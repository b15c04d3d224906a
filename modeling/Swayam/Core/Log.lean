import Mathlib.Data.List.TakeWhile
import Swayam.Core.Definitions

/-!
# SWAYAM — the records of a quarantine log

Facts about the log format that every later module uses, stated on
`hashFields`, the hash fields of a text:

* `isRecorded_iff` — the loop of `is_quarantined` finds exactly these;
* `hashFields_withHeader`, `hashFields_subset_append` — putting the header in
  front changes none of them and appending text loses none, whatever the last
  line looks like;
* `mem_hashFields_quarantineEntry` — a record on a closed log adds its hash.
-/

namespace Swayam

open Delimited

/-! ## Separators -/

@[simp] theorem isDigit_newline : isDigit newline = false := rfl
@[simp] theorem isDigit_comma : isDigit comma = false := rfl
@[simp] theorem isDigit_sharp : isDigit sharp = false := rfl

theorem comma_notMem_hashText (hash : UInt64) : comma ∉ hashText hash :=
  notMem_decimal isDigit_comma _

theorem newline_notMem_hashText (hash : UInt64) : newline ∉ hashText hash :=
  notMem_decimal isDigit_newline _

theorem newline_notMem_header : newline ∉ quarantineVersionHeader := by decide

/-- Two hashes have two texts. -/
theorem hashText_injective : Function.Injective hashText :=
  decimal_injective.comp fun _ _ h => UInt64.toNat_inj.mp h

/-- None of them is empty, -/
theorem hashText_ne_nil (hash : UInt64) : hashText hash ≠ [] := decimal_ne_nil _

/-- and none looks like a comment. -/
theorem hashText_head_ne_sharp (hash : UInt64) : (hashText hash).head? ≠ some sharp := by
  intro h
  have hmem : sharp ∈ hashText hash := List.mem_of_mem_head? h
  exact notMem_decimal isDigit_sharp _ hmem

/-! ## The header -/

/-- A headed log is not given another header. -/
theorem withHeader_of_headed {c : Text} (h : quarantineVersionHeader <+: c) :
    withHeader c = c := by
  obtain ⟨t, rfl⟩ := h
  rw [withHeader, if_neg]
  rintro (hnil | htake)
  · exact absurd (List.append_eq_nil_iff.mp hnil).1 (by decide)
  · exact htake (List.take_left' rfl)

/-- Any other one is. -/
theorem withHeader_of_not_headed {c : Text} (h : ¬ quarantineVersionHeader <+: c) :
    withHeader c = headerLine ++ c := by
  rw [withHeader, if_pos]
  right
  intro htake
  exact h (htake ▸ List.take_prefix ..)

/-- So a log stays as it is exactly if it was headed. -/
theorem withHeader_eq_self_iff {c : Text} :
    withHeader c = c ↔ quarantineVersionHeader <+: c := by
  constructor
  · intro h
    by_contra hno
    -- a header in front would make the text longer
    rw [withHeader_of_not_headed hno] at h
    have hlen := congrArg List.length h
    rw [List.length_append] at hlen
    have hpos : headerLine.length = 22 := rfl
    omega
  · exact withHeader_of_headed

@[simp] theorem withHeader_nil : withHeader [] = headerLine := rfl

@[simp] theorem withHeader_headerLine_append (c : Text) :
    withHeader (headerLine ++ c) = headerLine ++ c :=
  withHeader_of_headed (by rw [headerLine, List.append_assoc]; exact List.prefix_append ..)

/-! ## The key of a line -/

/-- A line has a hash field exactly when it is that field, a comma and a rest,
and is no comment. -/
theorem hashField_eq_some_iff {line f : Text} :
    hashField line = some f ↔
      comma ∉ f ∧ f.head? ≠ some sharp ∧ ∃ r, line = f ++ comma :: r := by
  unfold hashField
  constructor
  · intro h
    split at h
    · exact absurd h (by simp)
    · rename_i hskip
      push Not at hskip
      split at h
      · rename_i hcomma
        rw [Option.some.injEq] at h
        have hnot : comma ∉ f := by
          intro hmem
          have := List.mem_takeWhile_imp (h ▸ hmem)
          simp at this
        have hsplit := List.takeWhile_append_dropWhile (p := (· ≠ comma)) (l := line)
        rw [h] at hsplit
        cases hdrop : line.dropWhile (· ≠ comma) with
        | nil =>
          -- without a rest the line would be its own comma-free field
          rw [hdrop, List.append_nil] at hsplit
          exact absurd (hsplit ▸ hcomma) hnot
        | cons y r =>
          have hy : y = comma := by
            have := List.head?_dropWhile_not (· ≠ comma) line
            rw [hdrop] at this
            simpa using this
          rw [hdrop, hy] at hsplit
          refine ⟨hnot, ?_, r, hsplit.symm⟩
          intro hhead
          apply hskip.2
          rw [← hsplit, List.head?_append, hhead]
          rfl
      · exact absurd h (by simp)
  · rintro ⟨hnot, hhead, r, rfl⟩
    rw [if_neg, if_pos (by simp), List.takeWhile_append_of_pos, List.takeWhile_cons_of_neg]
    · simp
    · simp
    · intro a ha
      have : a ≠ comma := fun h => hnot (h ▸ ha)
      simpa using this
    · rintro (h | h)
      · simp at h
      · rw [List.head?_append] at h
        cases hf : f.head? with
        | none =>
          rw [hf] at h
          have hcs : comma = sharp := by simpa using h
          exact absurd hcs (by decide)
        | some y =>
          rw [hf] at h hhead
          exact hhead h

/-- A line that goes on after its comma keeps its hash field. -/
theorem hashField_stable : Stable hashField := by
  intro l f x h
  rw [hashField_eq_some_iff] at h ⊢
  obtain ⟨hnot, hhead, r, rfl⟩ := h
  exact ⟨hnot, hhead, r ++ x, by simp⟩

/-- Lines that start with `#` have no hash field. -/
theorem hashField_sharp {line : Text} (h : line.head? = some sharp) : hashField line = none := by
  rw [hashField, if_pos (Or.inr h)]

/-! ## Recorded hashes -/

/-- The search finds a hash among the hash fields of the records. -/
theorem findHash_iff {hashStr : Text} {ls : List Text} :
    findHash hashStr ls = true ↔ hashStr ∈ ls.filterMap hashField := by
  induction ls with
  | nil => simp [findHash]
  | cons line rest ih =>
    rw [findHash, List.filterMap_cons]
    cases hline : hashField line with
    | none => exact ih
    | some f =>
      by_cases hf : f = hashStr
      · simp [hf]
      · simp [hf, ih, Ne.symm hf]

/-- **`is_quarantined` is membership** in the hash fields of the log. -/
theorem isRecorded_iff {log : Text} {hash : UInt64} :
    isRecorded log hash = true ↔ hashText hash ∈ hashFields log :=
  findHash_iff

/-- A text is quarantined exactly if its hash is among them. -/
theorem isQuarantined_iff {content : Text} {log : Option Text} :
    isQuarantined content log = true ↔
      hashText (structuralHash content) ∈ hashFields (log.getD []) :=
  isRecorded_iff

theorem hashFields_subset_append (c x : Text) : hashFields c ⊆ hashFields (c ++ x) :=
  keys_subset_append hashField_stable c x

/-- The header is a whole line. -/
theorem headerLine_closed : lastLine newline headerLine = [] := lastLine_append_sep _

/-- And no record. -/
@[simp] theorem hashFields_headerLine_append (c : Text) :
    hashFields (headerLine ++ c) = hashFields c := by
  have hlines : lines newline (headerLine ++ c) = quarantineVersionHeader :: lines newline c := by
    rw [headerLine, List.append_assoc]
    exact lines_append_sep newline_notMem_header c
  -- the header line is a comment
  rw [hashFields, keys, hlines, List.filterMap_cons, hashField_sharp rfl]
  rfl

/-- **The header changes no record.** -/
theorem hashFields_withHeader (c : Text) : hashFields (withHeader c) = hashFields c := by
  unfold withHeader
  split
  · exact hashFields_headerLine_append c
  · rfl

/-- The header changes nothing of the last line. -/
theorem lastLine_withHeader (c : Text) :
    lastLine newline (withHeader c) = lastLine newline c := by
  unfold withHeader
  split
  · rw [lastLine_append, headerLine_closed, List.nil_append]
  · rfl

/-- A field and a comma at the start of a line are a record's field, whatever
follows them. -/
theorem mem_hashFields_append {c f : Text} (hclosed : lastLine newline c = [])
    (hcomma : comma ∉ f) (hnl : newline ∉ f) (hhead : f.head? ≠ some sharp) (r : Text) :
    f ∈ hashFields (c ++ (f ++ comma :: r)) := by
  have hfield : hashField (f ++ [comma]) = some f :=
    hashField_eq_some_iff.mpr ⟨hcomma, hhead, [], rfl⟩
  have hline : newline ∉ f ++ [comma] := by
    rw [List.mem_append, not_or]
    exact ⟨hnl, by decide⟩
  have hmem : f ∈ hashFields (c ++ (f ++ [comma])) := by
    rw [hashFields, keys_append_of_closed hclosed, List.mem_append]
    right
    rw [keys, lines_of_notMem hline (by simp)]
    simp [hfield]
  -- the rest of the record only extends the line
  have hmono := hashFields_subset_append (c ++ (f ++ [comma])) r hmem
  simpa using hmono

/-- A record with a newline-free label is a single line, and starts with a digit. -/
theorem quarantineEntry_eq_line (hash : UInt64) (signalNum now : Int) {sourceLabel : Text}
    (hlabel : newline ∉ sourceLabel) :
    ∃ l, quarantineEntry hash signalNum now sourceLabel = l ++ [newline] ∧ newline ∉ l ∧
      l.head? ≠ some sharp ∧ hashField l = some (hashText hash) := by
  refine ⟨hashText hash ++ comma :: (decimalInt signalNum ++ comma :: (decimalInt now ++
    comma :: sourceLabel)), by simp [quarantineEntry], ?_, ?_, ?_⟩
  · have hsignal : newline ∉ decimalInt signalNum := notMem_decimalInt rfl (by decide) _
    have hnow : newline ∉ decimalInt now := notMem_decimalInt rfl (by decide) _
    have hnl : newline ≠ comma := by decide
    simp [newline_notMem_hashText, hsignal, hnow, hlabel, hnl]
  · rw [List.head?_append_of_ne_nil _ (hashText_ne_nil hash)]
    exact hashText_head_ne_sharp hash
  · exact hashField_eq_some_iff.mpr
      ⟨comma_notMem_hashText hash, hashText_head_ne_sharp hash, _, rfl⟩

/-- A record with a newline-free label adds exactly its hash to a closed log. -/
theorem hashFields_append_quarantineEntry {c : Text} (hclosed : lastLine newline c = [])
    (hash : UInt64) (signalNum now : Int) {sourceLabel : Text} (hlabel : newline ∉ sourceLabel) :
    hashFields (c ++ quarantineEntry hash signalNum now sourceLabel) =
      hashFields c ++ [hashText hash] := by
  obtain ⟨l, hentry, hl, -, hfield⟩ := quarantineEntry_eq_line hash signalNum now hlabel
  have hkeys : keys newline hashField (l ++ [newline]) = [hashText hash] := by
    rw [keys, lines_append_sep hl, lines_nil, List.filterMap_cons, hfield]
    rfl
  rw [hentry, hashFields, keys_append_of_closed hclosed, hkeys]
  rfl

/-- **A record adds its hash** to a closed log, whatever its label holds. -/
theorem mem_hashFields_quarantineEntry {c : Text} (hclosed : lastLine newline c = [])
    (hash : UInt64) (signalNum now : Int) (sourceLabel : Text) :
    hashText hash ∈ hashFields (c ++ quarantineEntry hash signalNum now sourceLabel) :=
  mem_hashFields_append hclosed (comma_notMem_hashText hash) (newline_notMem_hashText hash)
    (hashText_head_ne_sharp hash) _

/-! ## Imported hashes -/

/-- What the import loop accepts as a hash: digits, and at least one. -/
def IsHash (hash : Text) : Prop := hash ≠ [] ∧ hash.all isDigit = true

/-- **Only decimal hashes are imported.** -/
theorem isHash_of_mem_importLoop {policy : PeerImportPolicy} {hash : Text} :
    ∀ {ls existing : List Text} {peer session : Nat},
      hash ∈ importLoop policy existing peer session ls → IsHash hash := by
  intro ls
  induction ls with
  | nil =>
    intro existing peer session h
    exact absurd h List.not_mem_nil
  | cons line rest ih =>
    intro existing peer session h
    rw [importLoop] at h
    split at h
    · exact ih h
    · rename_i field hfield
      split at h
      · exact ih h
      · rename_i hlen
        split at h
        · exact ih h
        · rename_i hdigits
          split at h
          · exact ih h
          · split at h
            · exact absurd h List.not_mem_nil
            · split at h
              · exact absurd h List.not_mem_nil
              · -- the hash of this line, which has passed every test, or of a later one
                rcases List.mem_cons.mp h with rfl | h
                · exact ⟨fun hnil => hlen (Or.inl hnil), by simpa using hdigits⟩
                · exact ih h

/-- A hash is made of digits alone. -/
theorem IsHash.notMem {hash : Text} (h : IsHash hash) {b : Byte} (hb : isDigit b = false) :
    b ∉ hash := by
  intro hmem
  have hdigit := List.all_eq_true.mp h.2 b hmem
  rw [hb] at hdigit
  exact absurd hdigit (by simp)

/-- An imported record is a whole line. -/
theorem lastLine_peerEntry (now : Int) (path hash : Text) :
    lastLine newline (peerEntry now path hash) = [] := by
  rw [peerEntry]
  exact lastLine_append_sep _

/-- Every imported hash is a hash field of what the merge writes. -/
theorem subset_hashFields_output (c : MergeCall) {hashes : List Text}
    (hvalid : ∀ h ∈ hashes, IsHash h) : hashes ⊆ hashFields (c.output hashes) := by
  induction hashes with
  | nil => exact List.nil_subset _
  | cons hash hashes ih =>
    have hout : c.output (hash :: hashes) =
        peerEntry c.now c.peerCsvPath hash ++ c.output hashes := by
      rw [MergeCall.output, List.flatMap_cons]
      rfl
    rw [hout]
    have hhash : IsHash hash := hvalid hash (List.mem_cons_self ..)
    intro f hf
    -- the first record holds its hash, and is closed for those behind it
    rcases List.mem_cons.mp hf with rfl | hf
    · have hentry : peerEntry c.now c.peerCsvPath f = [] ++ (f ++ comma ::
          (ascii "0," ++ decimalInt c.now ++ ascii ",peer:" ++ c.peerCsvPath ++ [newline])) := by
        have hzero : ascii ",0," = comma :: ascii "0," := rfl
        simp [peerEntry, hzero]
      refine hashFields_subset_append _ _ ?_
      rw [hentry]
      refine mem_hashFields_append rfl (hhash.notMem rfl) (hhash.notMem rfl) ?_ _
      intro hhead
      exact hhash.notMem isDigit_sharp (List.mem_of_mem_head? hhead)
    · rw [hashFields, keys_append_of_closed (lastLine_peerEntry ..), List.mem_append]
      exact Or.inr (ih (fun h hh => hvalid h (List.mem_cons_of_mem _ hh)) hf)

end Swayam
