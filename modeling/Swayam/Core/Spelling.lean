import Swayam.Core.Peers

/-!
# SWAYAM — spellings of an imported hash

A quarantine record works through its hash field: `is_quarantined` compares it,
as a text, with the `std::to_string` of a 64-bit hash. The import takes 1 to 20
digits of any kind, and compares those it has as texts too. So a peer can spend
the import budget on digits that no hash is written as: a zero in front, or a
number of 2^64 or more; and on one number in two spellings.

What an import adds is decided by the lines that it reaches within its budgets
(`Reached`), and these are fields of a hash exactly when each is spelled as one.

* `isSpelled_iff` — the digits that a 64-bit number is written as;
* `hashText_ne_of_not_spelled` — a record with any other field matches no content;
* `mem_merge_iff` — the hashes that a call imports, from its lines;
* `importsOccur_iff` — when all of them can occur.
-/

namespace Swayam

open Delimited Fresh

/-! ## The texts of 64-bit numbers -/

/-- Without a zero in front, and below 2^64. -/
structure IsSpelled (hash : Text) : Prop where
  noZero : hash.head? = some zeroDigit → hash = [zeroDigit]
  fits   : ofDecimal hash < 2 ^ 64

/-- A hash is spelled as the exporter does exactly if it is a decimal word. -/
theorem isSpelled_iff {hash : Text} (h : IsHash hash) :
    IsSpelled hash ↔ ∃ n < 2 ^ 64, hash = decimal n := by
  constructor
  · intro hspelled
    exact ⟨ofDecimal hash, hspelled.fits, (decimal_ofDecimal h.1 h.2 hspelled.noZero).symm⟩
  · rintro ⟨n, hn, rfl⟩
    exact ⟨decimal_head_ne_zero, by rwa [ofDecimal_decimal]⟩

/-- **Any other field matches nothing**: whatever the content, its record is not found by it. -/
theorem hashText_ne_of_not_spelled {hash : Text} (hhash : IsHash hash) (h : ¬ IsSpelled hash)
    (content : Text) : hashText (structuralHash content) ≠ hash := by
  intro heq
  have hlt : (structuralHash content).toNat < 2 ^ 64 := UInt64.toNat_lt _
  exact h ((isSpelled_iff hhash).mpr ⟨_, hlt, heq.symm⟩)

/-! ## The lines that a call reaches -/

/-- The peer file gets past the gates in front of the import, and the log opens. -/
structure MergeCall.Opens (call : MergeCall) (content : Text) : Prop where
  file    : call.peerFile = some content
  log     : call.outOpens = true
  session : call.sessionImported < call.policy.maxImportsPerSession
  lines   : (lines newline content).length ≤ call.policy.maxHashesPerFile

/-- What both budgets leave to a call. -/
def MergeCall.budget (call : MergeCall) : Nat :=
  min call.policy.maxImportsPerPeer (call.policy.maxImportsPerSession - call.sessionImported)

/-- A line with this hash field, of 1 to 20 digits, that the log does not have; and the lines in
front of it have fewer such fields than the budgets allow. -/
def MergeCall.Reached (call : MergeCall) (log content hash : Text) : Prop :=
  ∃ before line after, lines newline content = before ++ line :: after ∧
    validHash line = some hash ∧ hash ∉ hashFields log ∧
    (fresh (hashFields log) (before.filterMap validHash)).length < call.budget

/-- Each of the lines reached has a 64-bit number in its hash field, as it is written. -/
def MergeCall.ReachesSpelled (call : MergeCall) (log : Text) : Prop :=
  ∀ content hash, call.Opens content → call.Reached log content hash → IsSpelled hash

/-- What the import is for: each record has the hash field of some 64-bit value, and no two have
the same number there. -/
structure ImportsOccur (call : MergeCall) (files : LogFiles) : Prop where
  written : ∀ hash ∈ (mergePeerSignaturesGuarded call files).1, ∃ n < 2 ^ 64, hash = decimal n
  apart   : (mergePeerSignaturesGuarded call files).1.Pairwise fun h h' =>
    ofDecimal h ≠ ofDecimal h'

section Merge

variable {call : MergeCall} {files : LogFiles} {hash : Text}

/-- Nothing is imported behind a closed gate. -/
theorem MergeCall.Opens.of_mem (h : hash ∈ (mergePeerSignaturesGuarded call files).1) :
    ∃ content, call.Opens content := by
  unfold mergePeerSignaturesGuarded at h
  cases hadmitted : call.admitted with
  | none => simp [hadmitted] at h
  | some ls =>
    rw [hadmitted] at h
    dsimp only at h
    split at h
    · simp at h
    · rename_i hopens
      rw [MergeCall.admitted] at hadmitted
      split at hadmitted
      · simp at hadmitted
      · rename_i hsession
        cases hfile : call.peerFile with
        | none => simp [hfile] at hadmitted
        | some content =>
          rw [hfile] at hadmitted
          dsimp only at hadmitted
          split at hadmitted
          · simp at hadmitted
          · rename_i hlines
            exact ⟨content, hfile, by simpa using hopens, by omega, by omega⟩

/-- **What a call imports**: the hash fields of the lines it reaches. -/
theorem mem_merge_iff {content : Text} (hopens : call.Opens content) :
    hash ∈ (mergePeerSignaturesGuarded call files).1 ↔
      call.Reached (files.log.getD []) content hash := by
  obtain ⟨hfile, hlog, hsession, hlines⟩ := hopens
  have hadmitted : call.admitted = some (lines newline content) := by
    simp only [MergeCall.admitted, hfile]
    rw [if_neg (by omega), if_neg (by omega)]
  rw [mergePeerSignaturesGuarded, hadmitted]
  dsimp only
  rw [if_neg (by simp [hlog])]
  show hash ∈ importLoop call.policy (hashFields (files.log.getD [])) 0 call.sessionImported
    (lines newline content) ↔ _
  -- the loop takes the first fresh fields, as many as the budgets leave
  rw [importLoop_eq, Nat.sub_zero, mem_take_fresh]
  constructor
  · rintro ⟨a, b, heq, hnew, hlen⟩
    -- the place among the valid fields is one among the lines
    obtain ⟨before, rest, hsplit, rfl, hrest⟩ := List.filterMap_eq_append_iff.mp heq
    obtain ⟨skipped, line, after, rfl, hskipped, hline, rfl⟩ := List.filterMap_eq_cons_iff.mp hrest
    refine ⟨before ++ skipped, line, after, by rw [hsplit, List.append_assoc], hline, hnew, ?_⟩
    rw [List.filterMap_append, List.filterMap_eq_nil_iff.mpr hskipped, List.append_nil]
    exact hlen
  · rintro ⟨before, line, after, hsplit, hline, hnew, hlen⟩
    refine ⟨before.filterMap validHash, after.filterMap validHash, ?_, hnew, hlen⟩
    rw [hsplit, List.filterMap_append, List.filterMap_cons_some hline]

/-- What an import reaches is a hash. -/
theorem MergeCall.Reached.isHash {log content : Text} (h : call.Reached log content hash) :
    IsHash hash := by
  obtain ⟨before, line, after, -, hline, -⟩ := h
  obtain ⟨-, hne, -, hdigits⟩ := validHash_eq_some_iff.mp hline
  exact ⟨hne, hdigits⟩

/-- No hash is imported twice. -/
theorem nodup_merge (call : MergeCall) (files : LogFiles) :
    (mergePeerSignaturesGuarded call files).1.Nodup := by
  cases hadmitted : call.admitted with
  | none => simp [mergePeerSignaturesGuarded, hadmitted]
  | some ls =>
    rw [mergePeerSignaturesGuarded, hadmitted]
    dsimp only
    split
    · exact List.nodup_nil
    · show (importLoop call.policy (hashFields (files.log.getD [])) 0 call.sessionImported ls).Nodup
      rw [importLoop_eq]
      exact (nodup_fresh _ _).sublist (List.take_sublist _ _)

end Merge

/-- **The imported hashes can occur** exactly when every line that the call reaches is spelled
as a 64-bit number. -/
theorem importsOccur_iff (call : MergeCall) (files : LogFiles) :
    ImportsOccur call files ↔ call.ReachesSpelled (files.log.getD []) := by
  constructor
  · intro hoccur content hash hopens hreached
    have hmem := (mem_merge_iff hopens).mpr hreached
    exact (isSpelled_iff hreached.isHash).mpr (hoccur.written hash hmem)
  · intro hspelled
    have hwritten : ∀ hash ∈ (mergePeerSignaturesGuarded call files).1,
        ∃ n < 2 ^ 64, hash = decimal n := by
      intro hash hmem
      obtain ⟨content, hopens⟩ := MergeCall.Opens.of_mem hmem
      have hreached := (mem_merge_iff hopens).mp hmem
      exact (isSpelled_iff hreached.isHash).mp (hspelled content hash hopens hreached)
    refine ⟨hwritten, (nodup_merge call files).imp_of_mem fun hmem hmem' hne hnum => ?_⟩
    -- spelled numbers are texts that differ as numbers
    obtain ⟨n, -, rfl⟩ := hwritten _ hmem
    obtain ⟨m, -, rfl⟩ := hwritten _ hmem'
    rw [ofDecimal_decimal, ofDecimal_decimal] at hnum
    exact hne (congrArg decimal hnum)

/-- A peer that spells the hash 7 in two ways. -/
def paddedCall : MergeCall where
  peerCsvPath := ascii "/tmp/peer_a.csv"
  peerFile := some (ascii "007,11,0,m\n7,11,0,m\n")
  sessionImported := 0
  now := 0

/-- Both are imported, and the first is no 64-bit number's text. -/
theorem padded_hash_imported : ¬ ImportsOccur paddedCall { log := none } := by
  intro h
  have hmem : ascii "007" ∈ (mergePeerSignaturesGuarded paddedCall { log := none }).1 := by
    decide
  obtain ⟨n, -, hn⟩ := h.written _ hmem
  -- a number's text that starts with a zero is that zero alone
  have hzero : (decimal n).head? = some zeroDigit := by
    rw [← hn]
    rfl
  have hlen : (ascii "007").length = 1 := by
    rw [hn, decimal_head_ne_zero hzero]
    rfl
  exact absurd hlen (by decide)

end Swayam
