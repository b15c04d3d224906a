import Swayam.Moltbook.Ledger

/-!
# SWAYAM — the ledger of `Moltbook` across a reload

A `Moltbook` on an absent ledger records mutations with whatever strings it is
given, and another one loads what it has written. A field with a bar or a
newline does not come back; and the lines that a field with a newline holds are
read as records of their own.

* `mem_keys_recordEntry_iff` — what the loader takes from one record;
* `file_recordAll`, `known_recordAll` — the ledger and the set that a sequence of
  calls leaves;
* `load_of_plain` — with plain fields alone, everything comes back;
* `reload_iff` — exactly when the two sets are the same.
-/

namespace Swayam.Moltbook

open Delimited

/-! ## What one record brings along -/

/-- The `hash_dna` of the complete record lines that the fields hold. -/
def embeddedKeys (hashDna status : Text) : List Text :=
  closedKeys newline recordKey (rawRecord hashDna status)

/-- The fields end in a line of two fields, and the checksum of the whole record happens to be
that of this line. -/
def Collides (hashDna status h : Text) : Prop :=
  newline ∈ rawRecord hashDna status ∧ ∃ s, bar ∉ h ∧ bar ∉ s ∧
    lastLine newline (rawRecord hashDna status) = rawRecord h s ∧
    checksumText (rawRecord hashDna status) = checksumText (rawRecord h s)

/-- A record with a newline in a field is loaded as a record of `h`. -/
def Forges (hashDna status h : Text) : Prop :=
  h ∈ embeddedKeys hashDna status ∨ Collides hashDna status h

/-- The keys of a record: those of the lines in its fields, and that of its last line. -/
theorem keys_recordEntry (d s : Text) : keys newline recordKey (recordEntry d s) =
    embeddedKeys d s ++
      (recordKey (lastLine newline (rawRecord d s) ++
        bar :: checksumText (rawRecord d s))).toList := by
  have hsum : newline ∉ bar :: checksumText (rawRecord d s) := by
    rw [List.mem_cons, not_or]
    exact ⟨by decide, newline_notMem_checksumText _⟩
  have hentry : recordEntry d s =
      rawRecord d s ++ ((bar :: checksumText (rawRecord d s)) ++ newline :: []) := by
    rw [recordEntry, recordLine, List.append_assoc]
  rw [hentry, keys_append_line hsum, embeddedKeys]
  simp [keys]

/-- The last line of a record, with its checksum. -/
theorem recordKey_lastLine {d s h : Text} :
    recordKey (lastLine newline (rawRecord d s) ++ bar :: checksumText (rawRecord d s)) = some h ↔
      ∃ st, bar ∉ h ∧ bar ∉ st ∧ lastLine newline (rawRecord d s) = rawRecord h st ∧
        checksumText (rawRecord d s) = checksumText (rawRecord h st) := by
  have hline : newline ∉
      lastLine newline (rawRecord d s) ++ bar :: checksumText (rawRecord d s) := by
    rw [List.mem_append, List.mem_cons, not_or, not_or]
    exact ⟨notMem_lastLine _, by decide, newline_notMem_checksumText _⟩
  rw [recordKey_eq_some_iff hline]
  refine exists_congr fun st => and_congr_right fun _ => and_congr_right fun _ => ?_
  -- the checksums stand behind the last bars
  exact append_sep_inj_last (bar_notMem_checksumText _) (bar_notMem_checksumText _)

theorem Plain.newline_notMem_raw {d s : Text} (h : Plain d s) : newline ∉ rawRecord d s := by
  rw [rawRecord, List.mem_append, List.mem_cons, not_or, not_or]
  exact ⟨h.dnaLine, by decide, h.statLine⟩

/-- A record of one line forges nothing. -/
theorem not_forges_of_notMem {d s : Text} (hnl : newline ∉ rawRecord d s) (h : Text) :
    ¬ Forges d s h := by
  have hembedded : embeddedKeys d s = [] := by
    have hnone : closedKeys newline recordKey ([] ++ rawRecord d s) =
        closedKeys newline recordKey [] := closedKeys_append_of_notMem hnl []
    rw [List.nil_append] at hnone
    rw [embeddedKeys, hnone]
    rfl
  rintro (hmem | hcollides)
  · rw [hembedded] at hmem
    exact absurd hmem List.not_mem_nil
  · exact hnl hcollides.1

/-- **What the loader takes from a record**: its own `hash_dna`, when its fields are plain, and
what it forges. -/
theorem mem_keys_recordEntry_iff {d s h : Text} :
    h ∈ keys newline recordKey (recordEntry d s) ↔ Plain d s ∧ h = d ∨ Forges d s h := by
  rw [keys_recordEntry, List.mem_append, Option.mem_toList, recordKey_lastLine]
  by_cases hnl : newline ∈ rawRecord d s
  · -- a field with a newline is not plain
    have hplain : ¬ Plain d s := fun hp => hp.newline_notMem_raw hnl
    rw [Forges, Collides]
    simp only [hplain, false_and, false_or, hnl, true_and]
  · have hembedded : h ∉ embeddedKeys d s :=
      fun hmem => not_forges_of_notMem hnl h (Or.inl hmem)
    have hfields : newline ∉ d ∧ newline ∉ s := by
      rw [rawRecord, List.mem_append, List.mem_cons, not_or, not_or] at hnl
      exact ⟨hnl.1, hnl.2.2⟩
    rw [lastLine_of_notMem hnl]
    simp only [hembedded, not_forges_of_notMem hnl h, or_false, false_or]
    constructor
    · rintro ⟨st, hbarh, hbars, heq, -⟩
      -- one line: its bars are those between the fields
      have hone : (rawRecord d s).count bar = 1 := by
        rw [heq, rawRecord, List.count_append, List.count_cons_self, List.count_eq_zero.mpr hbarh,
          List.count_eq_zero.mpr hbars]
      rw [rawRecord, List.count_append, List.count_cons_self] at hone
      have hd : bar ∉ d := List.count_eq_zero.mp (by omega)
      have hs : bar ∉ s := List.count_eq_zero.mp (by omega)
      exact ⟨⟨hd, hfields.1, hs, hfields.2⟩, ((rawRecord_inj hd hbarh).mp heq).1.symm⟩
    · rintro ⟨hp, rfl⟩
      exact ⟨s, hp.dnaBar, hp.statBar, rfl, rfl⟩

/-! ## Sequences of calls -/

/-- The calls that append: each `hash_dna` is recorded once. -/
def newRecords (known : Finset Text) : List (Text × Text) → List (Text × Text)
  | [] => []
  | (d, s) :: calls =>
    if d ∈ known then newRecords known calls else (d, s) :: newRecords (insert d known) calls

/-- A new record was not known before. -/
theorem notMem_of_mem_newRecords {known : Finset Text} {calls : List (Text × Text)}
    {c : Text × Text} (hc : c ∈ newRecords known calls) : c.1 ∉ known := by
  induction calls generalizing known with
  | nil => exact absurd hc List.not_mem_nil
  | cons call calls ih =>
    rw [newRecords] at hc
    split at hc
    · exact ih hc
    · rename_i hnew
      rcases List.mem_cons.mp hc with rfl | hlater
      · exact hnew
      · exact fun hmem => ih hlater (Finset.mem_insert_of_mem hmem)

/-- One record for each mutation. -/
theorem eq_of_mem_newRecords {known : Finset Text} {calls : List (Text × Text)}
    {c c' : Text × Text} (hc : c ∈ newRecords known calls) (hc' : c' ∈ newRecords known calls)
    (hdna : c.1 = c'.1) : c = c' := by
  induction calls generalizing known with
  | nil => exact absurd hc List.not_mem_nil
  | cons call calls ih =>
    rw [newRecords] at hc hc'
    split at hc
    · rename_i hold
      rw [if_pos hold] at hc'
      exact ih hc hc'
    · rename_i hnew
      rw [if_neg hnew] at hc'
      -- a later record is of another mutation than the first one
      have hlater : ∀ r ∈ newRecords (insert call.1 known) calls, r.1 ≠ call.1 :=
        fun r hr heq => notMem_of_mem_newRecords hr (heq ▸ Finset.mem_insert_self _ _)
      rcases List.mem_cons.mp hc with rfl | hmem
      · rcases List.mem_cons.mp hc' with rfl | hmem'
        · rfl
        · exact absurd hdna.symm (hlater c' hmem')
      · rcases List.mem_cons.mp hc' with rfl | hmem'
        · exact absurd hdna (hlater c hmem)
        · exact ih hmem hmem'

/-- The book after a sequence of `record_mutation` calls. -/
def Book.recordAll (m : Book) (calls : List (Text × Text)) : Book :=
  calls.foldl (fun m c => m.recordMutation c.1 c.2) m

/-- A known hash is not recorded again, -/
theorem recordMutation_known {m : Book} {d s : Text} (h : d ∈ m.knownMutations) :
    m.recordMutation d s = m := by
  rw [Book.recordMutation, Book.isKnown, if_pos (by simpa using h)]

/-- a new one is. -/
theorem recordMutation_new {m : Book} {d s : Text} (h : d ∉ m.knownMutations) :
    m.recordMutation d s =
      ⟨some (m.file.getD [] ++ recordEntry d s), insert d m.knownMutations⟩ := by
  rw [Book.recordMutation, Book.isKnown, if_neg (by simpa using h)]

/-- **The ledger** is what it was, and the new records. -/
theorem file_recordAll (calls : List (Text × Text)) (m : Book) :
    (m.recordAll calls).file.getD [] = m.file.getD [] ++
      (newRecords m.knownMutations calls).flatMap fun c => recordEntry c.1 c.2 := by
  induction calls generalizing m with
  | nil =>
    rw [newRecords, List.flatMap_nil, List.append_nil]
    rfl
  | cons c calls ih =>
    obtain ⟨d, s⟩ := c
    show ((m.recordMutation d s).recordAll calls).file.getD [] = _
    rw [ih, newRecords]
    -- the set decides in both whether the call appends
    by_cases hd : d ∈ m.knownMutations
    · rw [recordMutation_known hd, if_pos hd]
    · rw [recordMutation_new hd, if_neg hd, List.flatMap_cons, Option.getD_some,
        List.append_assoc]

/-- **The known mutations** are the old ones and those of the new records. -/
theorem known_recordAll (calls : List (Text × Text)) (m : Book) (h : Text) :
    h ∈ (m.recordAll calls).knownMutations ↔
      h ∈ m.knownMutations ∨ ∃ c ∈ newRecords m.knownMutations calls, c.1 = h := by
  induction calls generalizing m with
  | nil =>
    show h ∈ m.knownMutations ↔ _
    simp [newRecords]
  | cons c calls ih =>
    obtain ⟨d, s⟩ := c
    show h ∈ ((m.recordMutation d s).recordAll calls).knownMutations ↔ _
    rw [ih, newRecords]
    by_cases hd : d ∈ m.knownMutations
    · rw [recordMutation_known hd, if_pos hd]
    · rw [recordMutation_new hd, if_neg hd]
      simp only [Finset.mem_insert, List.exists_mem_cons_iff]
      rw [or_assoc, eq_comm, or_left_comm]

/-- The keys of records one behind the other. -/
theorem mem_keys_entries {h : Text} (records : List (Text × Text)) :
    h ∈ keys newline recordKey (records.flatMap fun c => recordEntry c.1 c.2) ↔
      ∃ c ∈ records, h ∈ keys newline recordKey (recordEntry c.1 c.2) := by
  induction records with
  | nil => simp [keys]
  | cons c records ih =>
    -- a record ends its line, so the next one starts on a line of its own
    have hclosed : lastLine newline (recordEntry c.1 c.2) = [] := lastLine_append_sep _
    rw [List.flatMap_cons, keys_append_of_closed hclosed, List.mem_append, ih]
    simp

/-! ## The reload -/

/-- The book of these calls, on an absent ledger. -/
def freshBook (calls : List (Text × Text)) : Book := (Book.load none).recordAll calls

/-- **What a reload finds**: the plain records, and the forged ones. -/
theorem mem_loadLedger_freshBook {calls : List (Text × Text)} {h : Text} :
    h ∈ loadLedger (freshBook calls).file ↔
      ∃ c ∈ newRecords ∅ calls, Plain c.1 c.2 ∧ h = c.1 ∨ Forges c.1 c.2 h := by
  rw [mem_loadLedger, freshBook, file_recordAll]
  show h ∈ keys newline recordKey ((newRecords ∅ calls).flatMap _) ↔ _
  rw [mem_keys_entries]
  simp only [mem_keys_recordEntry_iff]

/-- What a fresh book knows are the new records of its calls. -/
theorem mem_known_freshBook {calls : List (Text × Text)} {h : Text} :
    h ∈ (freshBook calls).knownMutations ↔ ∃ c ∈ newRecords ∅ calls, c.1 = h := by
  rw [freshBook, known_recordAll]
  show h ∈ (∅ : Finset Text) ∨ (∃ c ∈ newRecords ∅ calls, c.1 = h) ↔ _
  simp

/-- **Plain fields survive**: a new `Moltbook` on their ledger knows what the old one did. -/
theorem load_of_plain {calls : List (Text × Text)}
    (hplain : ∀ c ∈ newRecords ∅ calls, Plain c.1 c.2) :
    Book.load (freshBook calls).file = freshBook calls := by
  have hsame : loadLedger (freshBook calls).file = (freshBook calls).knownMutations := by
    ext h
    rw [mem_loadLedger_freshBook, mem_known_freshBook]
    constructor
    · rintro ⟨c, hc, ⟨-, rfl⟩ | hforged⟩
      · exact ⟨c, hc, rfl⟩
      · exact absurd hforged (not_forges_of_notMem (hplain c hc).newline_notMem_raw h)
    · rintro ⟨c, hc, rfl⟩
      exact ⟨c, hc, Or.inl ⟨hplain c hc, rfl⟩⟩
  rw [Book.load, hsame]

/-- **The ledger survives a reload, when it does.** After any calls of `record_mutation` on an
absent ledger, a new `Moltbook` knows the same mutations if and only if every recorded
`hash_dna` stands in a record of plain fields, or is forged by a record; and every `hash_dna`
that a record forges is recorded. -/
theorem reload_iff (calls : List (Text × Text)) :
    (Book.load (freshBook calls).file).knownMutations = (freshBook calls).knownMutations ↔
      (∀ c ∈ newRecords ∅ calls,
        Plain c.1 c.2 ∨ ∃ c' ∈ newRecords ∅ calls, Forges c'.1 c'.2 c.1) ∧
      ∀ c ∈ newRecords ∅ calls, ∀ h, Forges c.1 c.2 h → ∃ c' ∈ newRecords ∅ calls, c'.1 = h := by
  show loadLedger (freshBook calls).file = _ ↔ _
  rw [Finset.ext_iff]
  simp only [mem_loadLedger_freshBook, mem_known_freshBook]
  constructor
  · intro hsame
    refine ⟨fun c hc => ?_, fun c hc h hforged => ?_⟩
    · obtain ⟨c', hc', hown | hforged⟩ := (hsame c.1).mpr ⟨c, hc, rfl⟩
      · -- one record for each mutation: it is this one that came back
        obtain rfl : c = c' := eq_of_mem_newRecords hc hc' hown.2
        exact Or.inl hown.1
      · exact Or.inr ⟨c', hc', hforged⟩
    · exact (hsame h).mp ⟨c, hc, Or.inr hforged⟩
  · rintro ⟨hback, hforged⟩ h
    constructor
    · rintro ⟨c, hc, ⟨-, rfl⟩ | hf⟩
      · exact ⟨c, hc, rfl⟩
      · exact hforged c hc h hf
    · rintro ⟨c, hc, rfl⟩
      rcases hback c hc with hplain | ⟨c', hc', hf⟩
      · exact ⟨c, hc, Or.inl ⟨hplain, rfl⟩⟩
      · exact ⟨c', hc', Or.inr hf⟩

/-- **A bar in a field is not read back**: the line of the record is skipped, as are all with more
than two fields in front of the checksum. -/
theorem reload_fails_on_bar :
    (freshBook [(ascii "a|b", ascii "ok")]).isKnown (ascii "a|b") = true ∧
    (Book.load (freshBook [(ascii "a|b", ascii "ok")]).file).isKnown (ascii "a|b") = false := by
  decide

end Swayam.Moltbook
