import Mathlib.Data.Finset.Basic
import Swayam.Core.Log

/-!
# SWAYAM — the ledger of `Moltbook`

`moltbook/collective_ledger.dat` holds one record a line:

    hash_dna|status|checksum

The checksum is FNV-1a over `hash_dna|status`, in decimal. A `Moltbook` loads the
ledger when it is constructed, skips the lines whose checksum does not fit, and
appends a record for every mutation that it does not know.

Taken as given: the ledger opens, and a record that is appended is there whole, unless
a crash cuts it off (`Torn.lean`); `char` is signed, as on the target.

* `recordKey_eq_some_iff` — the lines that the loader accepts;
* `recordKey_append` — what becomes of a record line behind other text;
* `recordKey_recordLine` — a record of plain fields is read back.
-/

namespace Swayam.Moltbook

open Delimited

/-! ## The record format -/

/-- The separator of the fields. -/
def bar : Byte := asciiByte '|'

/-- `calculate_checksum`: FNV-1a over the bytes as signed characters. -/
def calculateChecksum (record : Text) : UInt64 :=
  record.foldl (fun hash c => (hash ^^^ c.toInt8.toInt64.toUInt64) * 1099511628211)
    14695981039346656037

/-- `hash_dna + "|" + status` -/
def rawRecord (hashDna status : Text) : Text := hashDna ++ bar :: status

/-- `std::to_string(calculate_checksum(raw_record))` -/
def checksumText (raw : Text) : Text := decimal (calculateChecksum raw).toNat

/-- The record as a line, without its newline. -/
def recordLine (hashDna status : Text) : Text :=
  rawRecord hashDna status ++ bar :: checksumText (rawRecord hashDna status)

/-- What `record_mutation` writes. -/
def recordEntry (hashDna status : Text) : Text := recordLine hashDna status ++ [newline]

/-- `std::getline(iss, field, delim)` on a string stream: the field and the rest of the stream,
which is `none` once it has run to its end. A call that extracts nothing fails. -/
def getField (delim : Byte) : Option Text → Option (Text × Option Text)
  | none => none
  | some [] => none
  | some (b :: t) =>
    match (b :: t).dropWhile (· ≠ delim) with
    | [] => some (b :: t, none)
    | _ :: rest => some ((b :: t).takeWhile (· ≠ delim), some rest)

/-- The `hash_dna` that `load_ledger` takes from a line. -/
def recordKey (line : Text) : Option Text :=
  match getField bar (some line) with
  | none => none
  | some (hashDna, rest) =>
    match getField bar rest with
    | none => none
    | some (status, rest) =>
      -- the checksum is what is left of the line
      match getField newline rest with
      | none => none
      | some (checksumStr, _) =>
        if checksumText (rawRecord hashDna status) = checksumStr then some hashDna else none

/-- The mutations that `load_ledger` finds in a ledger. -/
def loadLedger (file : Option Text) : Finset Text :=
  (keys newline recordKey (file.getD [])).toFinset

/-! ## The book -/

/-- A `Moltbook` and the ledger behind it. -/
structure Book where
  file           : Option Text
  knownMutations : Finset Text
  deriving DecidableEq

/-- The constructor, on a workspace with this ledger. -/
def Book.load (file : Option Text) : Book := ⟨file, loadLedger file⟩

/-- `is_known` -/
def Book.isKnown (m : Book) (hashDna : Text) : Bool := hashDna ∈ m.knownMutations

/-- `record_mutation`, whose append opens the ledger and writes the whole record. -/
def Book.recordMutation (m : Book) (hashDna status : Text) : Book :=
  if m.isKnown hashDna then m
  else ⟨some (m.file.getD [] ++ recordEntry hashDna status), insert hashDna m.knownMutations⟩

/-! ## Reading a field -/

theorem bar_notMem_checksumText (raw : Text) : bar ∉ checksumText raw := notMem_decimal rfl _

theorem newline_notMem_checksumText (raw : Text) : newline ∉ checksumText raw :=
  notMem_decimal rfl _

/-- A field ends at the delimiter, -/
theorem getField_some_of_mem {delim : Byte} {field : Text} (h : delim ∉ field) (rest : Text) :
    getField delim (some (field ++ delim :: rest)) = some (field, some rest) := by
  have htake : (field ++ delim :: rest).takeWhile (· ≠ delim) = field := by
    rw [List.takeWhile_append_of_pos]
    · simp
    · intro b hb
      have hne : b ≠ delim := fun heq => h (heq ▸ hb)
      simpa using hne
  have hdrop : (field ++ delim :: rest).dropWhile (· ≠ delim) = delim :: rest := by
    rw [List.dropWhile_append_of_pos]
    · simp
    · intro b hb
      have hne : b ≠ delim := fun heq => h (heq ▸ hb)
      simpa using hne
  obtain ⟨b, t, hbt⟩ : ∃ b t, field ++ delim :: rest = b :: t :=
    List.exists_cons_of_ne_nil (by simp)
  rw [hbt] at htake hdrop ⊢
  rw [getField, hdrop, htake]

/-- or at the end of the line. -/
theorem getField_of_notMem {delim : Byte} {t : Text} (h : delim ∉ t) (hne : t ≠ []) :
    getField delim (some t) = some (t, none) := by
  obtain ⟨b, t, rfl⟩ := List.exists_cons_of_ne_nil hne
  have hdrop : (b :: t).dropWhile (· ≠ delim) = [] := by
    rw [List.dropWhile_eq_nil_iff]
    intro a ha
    have hne : a ≠ delim := fun heq => h (heq ▸ ha)
    simpa using hne
  rw [getField, hdrop]

/-- A text is its part in front of the first delimiter, and what that one ends; or it has no
delimiter. -/
theorem exists_field (delim : Byte) (t : Text) :
    (∃ field rest, delim ∉ field ∧ t = field ++ delim :: rest) ∨ delim ∉ t := by
  by_cases hmem : delim ∈ t
  · left
    obtain ⟨field, rest, ht, hfield⟩ := List.eq_append_cons_of_mem hmem
    exact ⟨field, rest, hfield, ht⟩
  · exact Or.inr hmem

/-! ## The lines that are accepted -/

/-- **What the loader accepts**: two fields and the decimal checksum of their record. -/
theorem recordKey_eq_some_iff {line hashDna : Text} (hline : newline ∉ line) :
    recordKey line = some hashDna ↔ ∃ status, bar ∉ hashDna ∧ bar ∉ status ∧
      line = recordLine hashDna status := by
  constructor
  · intro h
    -- the first field ends at a bar
    rcases exists_field bar line with ⟨first, rest, hfirst, rfl⟩ | hno
    · rw [recordKey, getField_some_of_mem hfirst] at h
      dsimp only at h
      rcases exists_field bar rest with ⟨status, sum, hstatus, rfl⟩ | hno
      · rw [getField_some_of_mem hstatus] at h
        dsimp only at h
        have hsum : newline ∉ sum := by
          intro hmem
          exact hline (by simp [hmem])
        by_cases hempty : sum = []
        · -- nothing behind the second bar: the third `getline` fails
          rw [hempty] at h
          exact absurd h (by simp [getField])
        · rw [getField_of_notMem hsum hempty] at h
          dsimp only at h
          split at h
          · rename_i hcheck
            obtain rfl := Option.some.inj h
            refine ⟨status, hfirst, hstatus, ?_⟩
            rw [recordLine, hcheck, rawRecord, List.append_assoc, List.cons_append]
          · exact absurd h (by simp)
      · -- a second field up to the end leaves no third one
        by_cases hempty : rest = []
        · rw [hempty] at h
          exact absurd h (by simp [getField])
        · rw [getField_of_notMem hno hempty] at h
          exact absurd h (by simp [getField])
    · -- nor does a first one leave a second
      by_cases hempty : line = []
      · rw [hempty] at h
        exact absurd h (by simp [recordKey, getField])
      · rw [recordKey, getField_of_notMem hno hempty] at h
        exact absurd h (by simp [getField])
  · rintro ⟨status, hdna, hstatus, rfl⟩
    -- the bars of the line are the two that the record puts there
    have hsplit : recordLine hashDna status =
        hashDna ++ bar :: (status ++ bar :: checksumText (rawRecord hashDna status)) := by
      rw [recordLine, rawRecord, List.append_assoc, List.cons_append]
    rw [recordKey, hsplit, getField_some_of_mem hdna]
    dsimp only
    rw [getField_some_of_mem hstatus]
    dsimp only
    rw [getField_of_notMem (newline_notMem_checksumText _) (decimal_ne_nil _)]
    dsimp only
    rw [if_pos rfl]

/-! ## Records -/

/-- The fields that a record line can be read back from. -/
structure Plain (hashDna status : Text) : Prop where
  dnaBar    : bar ∉ hashDna
  dnaLine   : newline ∉ hashDna
  statBar   : bar ∉ status
  statLine  : newline ∉ status

theorem rawRecord_inj {d d' s s' : Text} (hd : bar ∉ d) (hd' : bar ∉ d') :
    rawRecord d s = rawRecord d' s' ↔ d = d' ∧ s = s' :=
  append_sep_inj hd hd'

/-- A plain record is one line. -/
theorem Plain.newline_notMem {d s : Text} (h : Plain d s) : newline ∉ recordLine d s := by
  have hbar : newline ≠ bar := by decide
  simp only [recordLine, rawRecord, List.mem_append, List.mem_cons, not_or]
  exact ⟨⟨h.dnaLine, hbar, h.statLine⟩, hbar, newline_notMem_checksumText _⟩

/-- The bars of a record line of plain fields. -/
theorem count_recordLine {d s : Text} (hd : bar ∉ d) (hs : bar ∉ s) :
    (recordLine d s).count bar = 2 := by
  have hsum : (checksumText (rawRecord d s)).count bar = 0 :=
    List.count_eq_zero.mpr (bar_notMem_checksumText _)
  rw [recordLine, List.count_append, List.count_cons_self, hsum, rawRecord, List.count_append,
    List.count_cons_self, List.count_eq_zero.mpr hd, List.count_eq_zero.mpr hs]

/-- **A record line behind other text** is read as a record whose first field takes in that
text, when it holds no bar and the checksum happens to fit. -/
theorem recordKey_append {t d s h : Text} (ht : newline ∉ t) (hplain : Plain d s) :
    recordKey (t ++ recordLine d s) = some h ↔ bar ∉ t ∧ h = t ++ d ∧
      checksumText (rawRecord (t ++ d) s) = checksumText (rawRecord d s) := by
  have hline : newline ∉ t ++ recordLine d s := by
    rw [List.mem_append, not_or]
    exact ⟨ht, hplain.newline_notMem⟩
  have hsplit : t ++ recordLine d s =
      rawRecord (t ++ d) s ++ bar :: checksumText (rawRecord d s) := by
    simp only [recordLine, rawRecord, List.append_assoc]
  rw [recordKey_eq_some_iff hline]
  constructor
  · rintro ⟨status, hbarh, hbars, heq⟩
    -- the line has two bars, and those are the record's
    have hcount : (t ++ recordLine d s).count bar = 2 := by
      rw [heq, count_recordLine hbarh hbars]
    rw [List.count_append, count_recordLine hplain.dnaBar hplain.statBar] at hcount
    have hbart : bar ∉ t := List.count_eq_zero.mp (by omega)
    have hbard : bar ∉ t ++ d := by
      rw [List.mem_append, not_or]
      exact ⟨hbart, hplain.dnaBar⟩
    rw [hsplit, recordLine, append_sep_inj_last (bar_notMem_checksumText _)
      (bar_notMem_checksumText _), rawRecord_inj hbard hbarh] at heq
    obtain ⟨⟨rfl, rfl⟩, hsum⟩ := heq
    exact ⟨hbart, rfl, hsum.symm⟩
  · rintro ⟨hbart, rfl, hsum⟩
    refine ⟨s, ?_, hplain.statBar, ?_⟩
    · rw [List.mem_append, not_or]
      exact ⟨hbart, hplain.dnaBar⟩
    · rw [hsplit, recordLine, hsum]

/-- **A plain record is read back.** -/
theorem recordKey_recordLine {d s : Text} (hplain : Plain d s) :
    recordKey (recordLine d s) = some d :=
  (recordKey_append (t := []) List.not_mem_nil hplain).mpr ⟨List.not_mem_nil, rfl, rfl⟩

theorem mem_loadLedger {file : Option Text} {h : Text} :
    h ∈ loadLedger file ↔ h ∈ keys newline recordKey (file.getD []) := by
  rw [loadLedger, List.mem_toFinset]

theorem recordKey_nil : recordKey [] = none := rfl

end Swayam.Moltbook
