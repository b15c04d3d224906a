import Mathlib.Data.List.Induction
import Swayam.Lib.Fresh
import Swayam.Core.Log

/-!
# SWAYAM — the peers of a node

`merge_all_peer_files` and `export_node_signatures` of `NodeRegistry.hpp`, over
`merge_peer_signatures_guarded` of `Core/Definitions.lean`. The import loop is
compared with a reference that says in one line what it takes from a file: the
first of its new valid hashes, as many as the budgets leave (`importCount`).

The peer files and their order are whatever the directory iterator gives; a file that
does not open has no content. The log is written by nobody else during a sync.

* `importLoop_eq` — the loop takes exactly these;
* `merge_eq_reference` — what one file does to the log and the session counter;
* `mergeAll_induction` — what every file preserves, a whole sync preserves.
-/

namespace Swayam

open Delimited Fresh

/-! ## Valid hashes -/

/-- The hash that the import loop accepts of a line: 1 to 20 decimal digits. -/
def validHash (line : Text) : Option Text :=
  (hashField line).filter fun hash => hash ≠ [] ∧ hash.length ≤ 20 ∧ hash.all isDigit = true

/-- The valid hash fields of a peer file, in its order. -/
def validHashes (content : Text) : List Text := keys newline validHash content

/-- Those that a log does not have, without later repetitions. -/
def newHashes (log content : Text) : List Text := fresh (hashFields log) (validHashes content)

/-- How many of them a file may add to the log. -/
def importCount (policy : PeerImportPolicy) (sessionImported : Nat) (log content : Text) : Nat :=
  if policy.maxHashesPerFile < (lines newline content).length then 0
  else min (newHashes log content).length
    (min policy.maxImportsPerPeer (policy.maxImportsPerSession - sessionImported))

/-! ## `export_node_signatures` -/

/-- `export_node_signatures`: the file at `export_path` afterwards. Without a log it stays as
it is. -/
def exportNodeSignatures (outOpens : Bool) (localQuarantine exported : Option Text) :
    Option Text :=
  match localQuarantine with
  | none => exported
  | some log => if outOpens then some log else exported

/-! ## `merge_all_peer_files` -/

/-- An entry of `/tmp/` as the scan finds it: its name, its content (`none` when it does not
open), whether the log opens for appending, and the clock. -/
structure PeerFile where
  name     : Text
  content  : Option Text
  outOpens : Bool := true
  now      : Int
  deriving DecidableEq, Repr

/-- `entry.path().string()` -/
def PeerFile.path (file : PeerFile) : Text := ascii "/tmp/" ++ file.name

/-- The names that the scan picks up. -/
def isPeerFile (name : Text) : Bool :=
  (ascii "peer_").isPrefixOf name && !decide (name.length < 10) &&
    decide (name.drop (name.length - 4) = ascii ".csv")

/-- What is kept from file to file. -/
structure Sync where
  sessionImported : Nat
  files           : LogFiles
  deriving DecidableEq, Repr

/-- The text of the log. -/
def Sync.log (s : Sync) : Text := s.files.log.getD []

/-- The call that the scan makes for a file. -/
def PeerFile.call (file : PeerFile) (policy : PeerImportPolicy) (sessionImported : Nat) :
    MergeCall :=
  { peerCsvPath := file.path, peerFile := file.content, sessionImported, policy,
    outOpens := file.outOpens, now := file.now }

/-- The body of the scan. -/
def Sync.visit (policy : PeerImportPolicy) (s : Sync) (file : PeerFile) : Sync :=
  if isPeerFile file.name = false then s
  else
    let (hashes, files) := mergePeerSignaturesGuarded (file.call policy s.sessionImported) s.files
    ⟨s.sessionImported + hashes.length, files⟩

/-- `merge_all_peer_files`, over the entries that the scan gets to. -/
def mergeAllPeerFiles (policy : PeerImportPolicy) (files : LogFiles) (entries : List PeerFile) :
    Sync :=
  entries.foldl (Sync.visit policy) ⟨0, files⟩

/-! ## The import loop -/

theorem validHash_eq_some_iff {line hash : Text} : validHash line = some hash ↔
    hashField line = some hash ∧ hash ≠ [] ∧ hash.length ≤ 20 ∧ hash.all isDigit = true := by
  rw [validHash, Option.filter_eq_some_iff, decide_eq_true_eq]

/-- **The loop is its reference**: it takes the first of the new valid hashes, as many as both
budgets leave. -/
theorem importLoop_eq (policy : PeerImportPolicy) (ls : List Text) :
    ∀ (existing : List Text) (peer session : Nat),
      importLoop policy existing peer session ls =
        (fresh existing (ls.filterMap validHash)).take
          (min (policy.maxImportsPerPeer - peer) (policy.maxImportsPerSession - session)) := by
  induction ls with
  | nil =>
    intro existing peer session
    simp [importLoop]
  | cons line rest ih =>
    intro existing peer session
    rw [importLoop]
    cases hline : hashField line with
    | none =>
      -- the line has no field, so it has no valid one
      have hinvalid : validHash line = none := by rw [validHash, hline]; rfl
      rw [List.filterMap_cons_none hinvalid]
      exact ih existing peer session
    | some hash =>
      by_cases hvalid : hash ≠ [] ∧ hash.length ≤ 20 ∧ hash.all isDigit = true
      · have hkey : validHash line = some hash := validHash_eq_some_iff.mpr ⟨hline, hvalid⟩
        obtain ⟨hne, hlen, hdigits⟩ := hvalid
        rw [List.filterMap_cons_some hkey]
        dsimp only
        rw [if_neg (by rintro (h | h); exacts [hne h, by omega]), if_neg (by simp [hdigits])]
        by_cases hdup : hash ∈ existing
        · rw [if_pos hdup, fresh_cons_of_mem hdup]
          exact ih existing peer session
        · rw [if_neg hdup, fresh_cons_of_notMem hdup]
          -- either budget ends the loop, and the reference with it
          by_cases hpeer : policy.maxImportsPerPeer ≤ peer
          · rw [if_pos hpeer, show policy.maxImportsPerPeer - peer = 0 by omega, Nat.zero_min,
              List.take_zero]
          · rw [if_neg hpeer]
            by_cases hsession : policy.maxImportsPerSession ≤ session
            · rw [if_pos hsession, show policy.maxImportsPerSession - session = 0 by omega,
                Nat.min_zero, List.take_zero]
            · rw [if_neg hsession, ih]
              have hstep : min (policy.maxImportsPerPeer - peer)
                    (policy.maxImportsPerSession - session) =
                  min (policy.maxImportsPerPeer - (peer + 1))
                    (policy.maxImportsPerSession - (session + 1)) + 1 := by omega
              rw [hstep, List.take_succ_cons]
      · have hinvalid : validHash line = none := by
          rw [validHash, hline, Option.filter_some, if_neg (by simpa using hvalid)]
        rw [List.filterMap_cons_none hinvalid]
        dsimp only
        rw [← ih existing peer session]
        -- one of the two tests drops the line
        by_cases hlen : hash = [] ∨ 20 < hash.length
        · rw [if_pos hlen]
        · rw [if_neg hlen]
          rw [not_or, Nat.not_lt] at hlen
          rw [if_pos]
          by_contra hdigits
          rw [Bool.not_eq_false] at hdigits
          exact hvalid ⟨hlen.1, hlen.2, hdigits⟩

/-! ## What a merge writes -/

/-- A record of an imported hash, without the newline that ends it. -/
def peerLine (now : Int) (peerCsvPath hash : Text) : Text :=
  hash ++ ascii ",0," ++ decimalInt now ++ ascii ",peer:" ++ peerCsvPath

/-- What counts is a hash. -/
theorem isHash_of_mem_validHashes {content hash : Text} (h : hash ∈ validHashes content) :
    IsHash hash := by
  obtain ⟨line, -, hline⟩ := List.mem_filterMap.mp h
  obtain ⟨-, hne, -, hdigits⟩ := validHash_eq_some_iff.mp hline
  exact ⟨hne, hdigits⟩

/-- An imported record is one line. -/
theorem newline_notMem_peerLine {now : Int} {path hash : Text} (hpath : newline ∉ path)
    (hhash : IsHash hash) : newline ∉ peerLine now path hash := by
  have hnow : newline ∉ decimalInt now := notMem_decimalInt rfl (by decide) now
  have hzero : newline ∉ ascii ",0," := by decide
  have hpeer : newline ∉ ascii ",peer:" := by decide
  simp [peerLine, hhash.notMem isDigit_newline, hnow, hzero, hpeer, hpath]

/-- The first field of an imported record is the hash. -/
theorem hashField_peerLine {now : Int} {path hash : Text} (hhash : IsHash hash) :
    hashField (peerLine now path hash) = some hash := by
  refine hashField_eq_some_iff.mpr ⟨hhash.notMem isDigit_comma, ?_,
    ascii "0," ++ decimalInt now ++ ascii ",peer:" ++ path, ?_⟩
  · intro hhead
    exact hhash.notMem isDigit_sharp (List.mem_of_mem_head? hhead)
  · have hzero : ascii ",0," = comma :: ascii "0," := rfl
    rw [peerLine, hzero]
    simp only [List.append_assoc, List.cons_append]

/-- **One record for each hash**, each a line of its own. -/
theorem lines_output (call : MergeCall) (hpath : newline ∉ call.peerCsvPath) {hashes : List Text}
    (hvalid : ∀ hash ∈ hashes, IsHash hash) :
    lines newline (call.output hashes) = hashes.map (peerLine call.now call.peerCsvPath) := by
  induction hashes with
  | nil => rfl
  | cons hash hashes ih =>
    have hline : newline ∉ peerLine call.now call.peerCsvPath hash :=
      newline_notMem_peerLine hpath (hvalid hash (List.mem_cons_self ..))
    have hout : call.output (hash :: hashes) =
        peerLine call.now call.peerCsvPath hash ++ newline :: call.output hashes := by
      simp [MergeCall.output, peerEntry, peerLine]
    rw [hout, lines_append_sep hline, ih fun h hh => hvalid h (List.mem_cons_of_mem _ hh)]
    rfl

/-- The records of an import are its hashes. -/
theorem hashFields_output (call : MergeCall) (hpath : newline ∉ call.peerCsvPath)
    {hashes : List Text} (hvalid : ∀ hash ∈ hashes, IsHash hash) :
    hashFields (call.output hashes) = hashes := by
  rw [hashFields, keys, lines_output call hpath hvalid, List.filterMap_map]
  have hfields : ∀ hash ∈ hashes,
      (hashField ∘ peerLine call.now call.peerCsvPath) hash = some hash := fun hash hmem =>
    hashField_peerLine (hvalid hash hmem)
  rw [List.filterMap_congr hfields, List.filterMap_some]

/-- They are whole lines. -/
theorem lastLine_output (call : MergeCall) (hashes : List Text) :
    lastLine newline (call.output hashes) = [] := by
  induction hashes with
  | nil => rfl
  | cons hash hashes ih =>
    rw [MergeCall.output, List.flatMap_cons, lastLine_append, lastLine_peerEntry]
    exact ih

/-! ## One file -/

/-- The hashes that the scan takes from a file that opens, when the log does. -/
def referenceImports (policy : PeerImportPolicy) (sessionImported : Nat) (log content : Text) :
    List Text :=
  (newHashes log content).take (importCount policy sessionImported log content)

/-- The reference takes as many as the limits leave, from the file's hashes. -/
theorem referenceImports_spec (policy : PeerImportPolicy) (sessionImported : Nat)
    (log content : Text) :
    (referenceImports policy sessionImported log content).length =
        importCount policy sessionImported log content ∧
      ∀ hash ∈ referenceImports policy sessionImported log content, IsHash hash := by
  constructor
  · rw [referenceImports, List.length_take, Nat.min_eq_left]
    unfold importCount
    split <;> omega
  · intro hash hmem
    exact isHash_of_mem_validHashes (mem_fresh.mp (List.mem_of_mem_take hmem)).1

/-- **The call is its reference**, for a file that opens and a log that does. -/
theorem merge_eq_reference (call : MergeCall) (files : LogFiles) {content : Text}
    (hcontent : call.peerFile = some content) (hopens : call.outOpens = true) :
    (mergePeerSignaturesGuarded call files).1 =
      referenceImports call.policy call.sessionImported (files.log.getD []) content := by
  have hadmitted : call.admitted =
      if call.policy.maxImportsPerSession ≤ call.sessionImported then none
      else if call.policy.maxHashesPerFile < (lines newline content).length then none
      else some (lines newline content) := by
    simp only [MergeCall.admitted, hcontent]
  rw [mergePeerSignaturesGuarded, hadmitted, referenceImports, importCount]
  by_cases hsession : call.policy.maxImportsPerSession ≤ call.sessionImported
  · -- the session budget is used up: nothing is left to take
    rw [if_pos hsession, show call.policy.maxImportsPerSession - call.sessionImported = 0 by omega]
    simp
  · rw [if_neg hsession]
    by_cases hlines : call.policy.maxHashesPerFile < (lines newline content).length
    · rw [if_pos hlines, if_pos hlines]
      rfl
    · rw [if_neg hlines, if_neg hlines]
      dsimp only
      rw [if_neg (by simp [hopens])]
      show importLoop call.policy (hashFields (files.log.getD [])) 0 call.sessionImported
        (lines newline content) = _
      rw [importLoop_eq, Nat.sub_zero]
      -- the length of the list is no further bound
      rw [Nat.min_comm (newHashes _ _).length]
      exact List.take_eq_take_min

/-- What a call does to the log, whatever it imports: records behind the text. -/
theorem merge_log (call : MergeCall) (files : LogFiles) :
    (mergePeerSignaturesGuarded call files).2.log.getD [] =
      files.log.getD [] ++ call.output (mergePeerSignaturesGuarded call files).1 := by
  unfold mergePeerSignaturesGuarded
  split
  · exact (List.append_nil _).symm
  · dsimp only
    split
    · exact (List.append_nil _).symm
    · rfl

/-- A call imports decimal hashes only. -/
theorem isHash_of_mem_merge (call : MergeCall) (files : LogFiles) :
    ∀ hash ∈ (mergePeerSignaturesGuarded call files).1, IsHash hash := by
  intro hash hmem
  unfold mergePeerSignaturesGuarded at hmem
  split at hmem
  · exact absurd hmem List.not_mem_nil
  · dsimp only at hmem
    split at hmem
    · exact absurd hmem List.not_mem_nil
    · exact isHash_of_mem_importLoop hmem

/-- The hashes that the scan takes from an entry. -/
def Sync.imports (policy : PeerImportPolicy) (s : Sync) (file : PeerFile) : List Text :=
  if isPeerFile file.name = false then []
  else (mergePeerSignaturesGuarded (file.call policy s.sessionImported) s.files).1

section Visit

variable {policy : PeerImportPolicy} {s : Sync} {file : PeerFile}

/-- The text that they are written as. -/
def PeerFile.records (file : PeerFile) (hashes : List Text) : Text :=
  hashes.flatMap (peerEntry file.now file.path)

/-- A visit counts what it imports. -/
theorem visit_sessionImported (policy : PeerImportPolicy) (s : Sync) (file : PeerFile) :
    (s.visit policy file).sessionImported =
      s.sessionImported + (s.imports policy file).length := by
  unfold Sync.visit Sync.imports
  split
  · rfl
  · rfl

/-- An entry only appends its records to the log. -/
theorem visit_log (policy : PeerImportPolicy) (s : Sync) (file : PeerFile) :
    (s.visit policy file).log = s.log ++ file.records (s.imports policy file) := by
  unfold Sync.visit Sync.imports
  split
  · exact (List.append_nil _).symm
  · exact merge_log (file.call policy s.sessionImported) s.files

/-- A picked file that opens, with a log that does, is its reference. -/
theorem imports_eq {content : Text} (hname : isPeerFile file.name = true)
    (hcontent : file.content = some content) (hopens : file.outOpens = true) :
    s.imports policy file = referenceImports policy s.sessionImported s.log content := by
  rw [Sync.imports, if_neg (by simp [hname])]
  exact merge_eq_reference (file.call policy s.sessionImported) s.files hcontent hopens

/-- Any other entry adds nothing. -/
theorem imports_cases (policy : PeerImportPolicy) (s : Sync) (file : PeerFile) :
    s.imports policy file = [] ∨ ∃ content, isPeerFile file.name = true ∧
      file.content = some content ∧
      s.imports policy file = referenceImports policy s.sessionImported s.log content := by
  cases hname : isPeerFile file.name with
  | false => exact Or.inl (by rw [Sync.imports, if_pos hname])
  | true =>
    cases hcontent : file.content with
    | none =>
      left
      rw [Sync.imports, if_neg (by simp [hname]), mergePeerSignaturesGuarded, MergeCall.admitted]
      -- an unreadable file admits no line
      simp only [PeerFile.call, hcontent, ite_self]
    | some content =>
      cases hopens : file.outOpens with
      | true => exact Or.inr ⟨content, rfl, rfl, imports_eq hname hcontent hopens⟩
      | false =>
        left
        rw [Sync.imports, if_neg (by simp [hname]), mergePeerSignaturesGuarded]
        split
        · rfl
        · show (if file.outOpens = false then (_, _) else (_, _) : List Text × LogFiles).1 = []
          rw [if_pos hopens]

/-- **Both budgets hold for every entry.** -/
theorem length_imports_le (policy : PeerImportPolicy) (s : Sync) (file : PeerFile) :
    (s.imports policy file).length ≤ policy.maxImportsPerPeer ∧
      (s.imports policy file).length ≤ policy.maxImportsPerSession - s.sessionImported := by
  rcases imports_cases policy s file with h | ⟨content, -, -, h⟩
  · rw [h]
    exact ⟨Nat.zero_le _, Nat.zero_le _⟩
  · rw [h, (referenceImports_spec policy s.sessionImported s.log content).1, importCount]
    split
    · omega
    · omega

/-- And imports hashes only. -/
theorem isHash_of_mem_imports {hash : Text} (h : hash ∈ s.imports policy file) : IsHash hash := by
  rcases imports_cases policy s file with hnone | ⟨content, -, -, hsome⟩
  · rw [hnone] at h
    exact absurd h List.not_mem_nil
  · rw [hsome] at h
    exact (referenceImports_spec policy s.sessionImported s.log content).2 hash h

/-- A closed log stays closed. -/
theorem visit_closed (hclosed : lastLine newline s.log = []) :
    lastLine newline (s.visit policy file).log = [] := by
  rw [visit_log, lastLine_append, hclosed, List.nil_append]
  exact lastLine_output (file.call policy s.sessionImported) (s.imports policy file)

/-- **The records of a closed log stay, and the imported hashes follow them**, one record
each. -/
theorem visit_lines (hclosed : lastLine newline s.log = []) (hpath : newline ∉ file.path) :
    lines newline (s.visit policy file).log =
      lines newline s.log ++ (s.imports policy file).map (peerLine file.now file.path) := by
  rw [visit_log, lines_append_of_closed hclosed]
  congr 1
  exact lines_output (file.call policy s.sessionImported) hpath fun _ h => isHash_of_mem_imports h

/-- The hash fields of the log absorb those of the file. -/
theorem visit_absorbs (hclosed : lastLine newline s.log = []) (hpath : newline ∉ file.path) :
    Absorbs (hashFields s.log) (s.imports policy file) (hashFields (s.visit policy file).log) := by
  have hfields : hashFields (s.visit policy file).log =
      hashFields s.log ++ s.imports policy file := by
    rw [visit_log, hashFields, keys_append_of_closed hclosed]
    congr 1
    exact hashFields_output (file.call policy s.sessionImported) hpath fun _ h =>
      isHash_of_mem_imports h
  rw [hfields]
  rcases imports_cases policy s file with h | ⟨content, -, -, h⟩
  · rw [h, List.append_nil]
    exact Absorbs.refl _
  · rw [h]
    exact absorbs_take _ _ _

end Visit

/-! ## Whole syncs -/

/-- Files are visited in order. -/
theorem mergeAll_append (policy : PeerImportPolicy) (files : LogFiles) (a b : List PeerFile) :
    mergeAllPeerFiles policy files (a ++ b) =
      b.foldl (Sync.visit policy) (mergeAllPeerFiles policy files a) :=
  List.foldl_append

/-- The last one behind the others. -/
theorem mergeAll_concat (policy : PeerImportPolicy) (files : LogFiles) (a : List PeerFile)
    (file : PeerFile) :
    mergeAllPeerFiles policy files (a ++ [file]) =
      (mergeAllPeerFiles policy files a).visit policy file := by
  rw [mergeAll_append]
  rfl

/-- **What every entry preserves, the sync preserves.** -/
theorem mergeAll_induction {policy : PeerImportPolicy} {files : LogFiles}
    {P : List PeerFile → Sync → Prop} (hstart : P [] ⟨0, files⟩)
    (hvisit : ∀ a file, P a (mergeAllPeerFiles policy files a) →
      P (a ++ [file]) ((mergeAllPeerFiles policy files a).visit policy file)) :
    ∀ entries, P entries (mergeAllPeerFiles policy files entries) := by
  intro entries
  induction entries using List.reverseRecOn with
  | nil => exact hstart
  | append_singleton a file ih =>
    rw [mergeAll_concat]
    exact hvisit a file ih

end Swayam
