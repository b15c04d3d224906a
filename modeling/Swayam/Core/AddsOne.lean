import Swayam.Core.Append

/-!
# SWAYAM — what one append adds to the log

`atomic_quarantine_append` writes its record behind whatever the log ends in,
and its label as it stands; the reader then cuts the text into lines and
fields. A log without a final newline runs its last line into the record, and a
newline in the label starts lines of its own.

* `hashField_behind` — the hash field of a record behind an unterminated line;
* `addsExactly_iff` — exactly when the append adds the record's hash to the log, and
  nothing else.
-/

namespace Swayam

open Delimited

/-! ## The lines of a record -/

/-- What the record of a label holds behind its first newline. -/
def furtherLines (sourceLabel : Text) : Text :=
  match sourceLabel.dropWhile (· ≠ newline) with
  | [] => []
  | _ :: rest => rest ++ [newline]

/-- The hash fields that a label brings along. -/
def labelFields (sourceLabel : Text) : List Text := hashFields (furtherLines sourceLabel)

/-- The first line of a record, and the lines of its label. -/
theorem quarantineEntry_split (hash : UInt64) (signalNum now : Int) (sourceLabel : Text) :
    ∃ r, newline ∉ hashText hash ++ comma :: r ∧
      quarantineEntry hash signalNum now sourceLabel =
        (hashText hash ++ comma :: r) ++ newline :: furtherLines sourceLabel := by
  have hlabel : sourceLabel ++ [newline] =
      sourceLabel.takeWhile (· ≠ newline) ++ newline :: furtherLines sourceLabel := by
    have hsplit := List.takeWhile_append_dropWhile (p := (· ≠ newline)) (l := sourceLabel)
    unfold furtherLines
    cases hdrop : sourceLabel.dropWhile (· ≠ newline) with
    | nil =>
      rw [hdrop, List.append_nil] at hsplit
      rw [hsplit]
    | cons b rest =>
      -- the label goes on behind its first newline
      have hb : b = newline := by
        have hhead := List.head?_dropWhile_not (· ≠ newline) sourceLabel
        rw [hdrop] at hhead
        simpa using hhead
      rw [hdrop, hb] at hsplit
      nth_rewrite 1 [← hsplit]
      simp
  have hfirst : newline ∉ sourceLabel.takeWhile (· ≠ newline) := by
    intro hmem
    have hne := List.mem_takeWhile_imp hmem
    simp at hne
  refine ⟨decimalInt signalNum ++ comma :: (decimalInt now ++ comma ::
    sourceLabel.takeWhile (· ≠ newline)), ?_, ?_⟩
  · have hsignal : newline ∉ decimalInt signalNum := notMem_decimalInt rfl (by decide) _
    have hnow : newline ∉ decimalInt now := notMem_decimalInt rfl (by decide) _
    have hnl : newline ≠ comma := by decide
    simp only [List.mem_append, List.mem_cons, not_or]
    exact ⟨newline_notMem_hashText hash, hnl, hsignal, hnl, hnow, hnl, hfirst⟩
  · rw [quarantineEntry, hlabel]
    simp only [List.append_assoc, List.cons_append]

/-- **A record behind an unterminated line**: the line takes the hash into its own field, keeps
its own, or hides it in a comment. -/
theorem hashField_behind {t h : Text} (hcomma : comma ∉ h) (hsharp : h.head? ≠ some sharp)
    (r : Text) :
    hashField (t ++ (h ++ comma :: r)) =
      if t = [] then some h
      else if t.head? = some sharp ∨ comma ∈ t then hashField t
      else some (t ++ h) := by
  split
  · rename_i hnil
    rw [hnil, List.nil_append]
    exact hashField_eq_some_iff.mpr ⟨hcomma, hsharp, r, rfl⟩
  · rename_i hopen
    have hhead : (t ++ (h ++ comma :: r)).head? = t.head? := List.head?_append_of_ne_nil _ hopen
    split
    · rename_i hown
      by_cases hcomment : t.head? = some sharp
      · rw [hashField_sharp hcomment, hashField_sharp (hhead.trans hcomment)]
      · -- the field ends at a comma of the unterminated line
        obtain ⟨f, hf⟩ : ∃ f, hashField t = some f := by
          refine ⟨t.takeWhile (· ≠ comma), ?_⟩
          rw [hashField, if_neg (by simp [hopen, hcomment]), if_pos (hown.resolve_left hcomment)]
        rw [hf]
        exact hashField_stable t f _ hf
    · rename_i hplain
      rw [not_or] at hplain
      refine hashField_eq_some_iff.mpr ⟨?_, ?_, r, by rw [List.append_assoc]⟩
      · rw [List.mem_append, not_or]
        exact ⟨hplain.2, hcomma⟩
      · rw [List.head?_append_of_ne_nil _ hopen]
        exact hplain.1

/-- A line without a comma, and a comment, has no hash field. -/
theorem hashField_eq_none {t : Text} (h : t = [] ∨ t.head? = some sharp ∨ comma ∉ t) :
    hashField t = none := by
  rw [hashField]
  rcases h with rfl | hsharp | hcomma
  · rw [if_pos (Or.inl rfl)]
  · rw [if_pos (Or.inr hsharp)]
  · rw [if_neg hcomma, ite_self]

/-! ## What is added -/

/-- The fields of a log are the old ones and this one. -/
def AddsExactly (old new : List Text) (field : Text) : Prop :=
  ∀ f, f ∈ new ↔ f ∈ old ∨ f = field

section Fields

variable {old brought : List Text} {field : Text}

/-- Behind a record on a line of its own, the label must not bring anything along. -/
theorem addsExactly_cons : AddsExactly old (old ++ field :: brought) field ↔
    ∀ f ∈ brought, f ∈ old ∨ f = field := by
  simp only [AddsExactly, List.mem_append, List.mem_cons]
  constructor
  · intro h f hf
    exact (h f).mp (Or.inr (Or.inr hf))
  · intro hlabel f
    constructor
    · rintro (hf | hf | hf)
      · exact Or.inl hf
      · exact Or.inr hf
      · exact hlabel f hf
    · rintro (hf | hf)
      · exact Or.inl hf
      · exact Or.inr (Or.inl hf)

/-- Behind a record that a line swallows, its field has to come from elsewhere. -/
theorem addsExactly_swallowed : AddsExactly old (old ++ brought) field ↔
    (∀ f ∈ brought, f ∈ old ∨ f = field) ∧ (field ∈ old ∨ field ∈ brought) := by
  simp only [AddsExactly, List.mem_append]
  constructor
  · intro h
    exact ⟨fun f hf => (h f).mp (Or.inr hf), (h field).mpr (Or.inr rfl)⟩
  · rintro ⟨hlabel, hthere⟩ f
    constructor
    · rintro (hf | hf)
      · exact Or.inl hf
      · exact hlabel f hf
    · rintro (hf | rfl)
      · exact Or.inl hf
      · exact hthere

/-- A record that turns into another field: that one has to be old. -/
theorem addsExactly_joined {joined : Text} (hne : joined ≠ field) :
    AddsExactly old (old ++ joined :: brought) field ↔
      (∀ f ∈ brought, f ∈ old ∨ f = field) ∧ (field ∈ old ∨ field ∈ brought) ∧ joined ∈ old := by
  constructor
  · intro h
    -- the joined field is not the hash, so it must have been there
    have hjoined : joined ∈ old :=
      ((h joined).mp (by simp)).resolve_right hne
    have hswallowed : AddsExactly old (old ++ brought) field := by
      intro f
      rw [← h f]
      simp only [List.mem_append, List.mem_cons]
      constructor
      · rintro (hf | hf)
        · exact Or.inl hf
        · exact Or.inr (Or.inr hf)
      · rintro (hf | rfl | hf)
        · exact Or.inl hf
        · exact Or.inl hjoined
        · exact Or.inr hf
    obtain ⟨hlabel, hthere⟩ := addsExactly_swallowed.mp hswallowed
    exact ⟨hlabel, hthere, hjoined⟩
  · rintro ⟨hlabel, hthere, hjoined⟩ f
    rw [← addsExactly_swallowed.mpr ⟨hlabel, hthere⟩ f]
    simp only [List.mem_append, List.mem_cons]
    constructor
    · rintro (hf | rfl | hf)
      · exact Or.inl hf
      · exact Or.inl hjoined
      · exact Or.inr hf
    · rintro (hf | hf)
      · exact Or.inl hf
      · exact Or.inr (Or.inr hf)

end Fields

/-- The fields of a log behind an append, from the terminated lines of the old one, its last
line, and the label. -/
theorem hashFields_append_entry (c : Text) (hash : UInt64) (signalNum now : Int)
    (sourceLabel : Text) : ∃ ks,
    hashFields c = ks ++ (hashField (lastLine newline c)).toList ∧
    hashFields (c ++ quarantineEntry hash signalNum now sourceLabel) =
      ks ++ ((if lastLine newline c = [] then some (hashText hash)
        else if (lastLine newline c).head? = some sharp ∨ comma ∈ lastLine newline c then
          hashField (lastLine newline c)
        else some (lastLine newline c ++ hashText hash)).toList ++ labelFields sourceLabel) := by
  obtain ⟨r, hline, hentry⟩ := quarantineEntry_split hash signalNum now sourceLabel
  refine ⟨closedKeys newline hashField c, keys_eq_closedKeys rfl c, ?_⟩
  rw [hentry, hashFields, keys_append_line hline,
    hashField_behind (comma_notMem_hashText hash) (hashText_head_ne_sharp hash)]
  rfl

/-- **One hash is added, and none but it, exactly when** the label brings no other hash along and
the last line of the log is complete; or, behind an incomplete one, when the hash is there
anyway and the line that swallows the record keeps its own field, or makes an old one. -/
theorem addsExactly_iff (log tmp backup : Option Text) (hash : UInt64) (signalNum now : Int)
    (sourceLabel : Text) :
    AddsExactly (hashFields (log.getD []))
        (hashFields ((atomicQuarantineAppend .clean hash signalNum now sourceLabel
          ⟨log, tmp, backup⟩).log.getD [])) (hashText hash) ↔
      (∀ f ∈ labelFields sourceLabel, f ∈ hashFields (log.getD []) ∨ f = hashText hash) ∧
      (lastLine newline (log.getD []) = [] ∨
        ((hashText hash ∈ hashFields (log.getD []) ∨ hashText hash ∈ labelFields sourceLabel) ∧
          ((lastLine newline (log.getD [])).head? = some sharp ∨
            comma ∈ lastLine newline (log.getD []) ∨
            lastLine newline (log.getD []) ++ hashText hash ∈ hashFields (log.getD [])))) := by
  obtain ⟨ks, hold, hnew⟩ :=
    hashFields_append_entry (withHeader (log.getD [])) hash signalNum now sourceLabel
  rw [hashFields_withHeader, lastLine_withHeader] at hold
  rw [lastLine_withHeader] at hnew
  rw [atomicQuarantineAppend_clean]
  show AddsExactly _ (hashFields (withHeader (log.getD []) ++ _)) _ ↔ _
  rw [hnew]
  -- only the open line, the old fields and the label's fields matter
  generalize lastLine newline (log.getD []) = t at hold ⊢
  generalize hashFields (log.getD []) = old at hold ⊢
  generalize labelFields sourceLabel = brought
  by_cases hclosed : t = []
  · -- the record has a line of its own
    rw [hashField_eq_none (Or.inl hclosed), Option.toList_none, List.append_nil] at hold
    rw [if_pos hclosed, ← hold, Option.toList_some, List.singleton_append, addsExactly_cons]
    simp only [hclosed, true_or, and_true]
  · rw [if_neg hclosed, or_iff_right hclosed]
    by_cases hown : t.head? = some sharp ∨ comma ∈ t
    · -- the unterminated line is what it was
      rw [if_pos hown, ← List.append_assoc, ← hold, addsExactly_swallowed, ← or_assoc,
        or_iff_left_of_imp fun _ => hown, and_iff_left hown]
    · -- the unterminated line and the hash make one field
      rw [if_neg hown]
      rw [not_or] at hown
      rw [hashField_eq_none (Or.inr (Or.inr hown.2)), Option.toList_none, List.append_nil] at hold
      -- the joined field is longer than the hash, so it is another one
      have hlonger : t ++ hashText hash ≠ hashText hash := by
        intro hsame
        have hlen := congrArg List.length hsame
        have hpos := List.length_pos_iff.mpr hclosed
        rw [List.length_append] at hlen
        omega
      rw [← hold, Option.toList_some, List.singleton_append, addsExactly_joined hlonger,
        or_iff_right hown.1, or_iff_right hown.2]

/-- **Two appends that do not add their hash alone**: behind a log that ends in `123` without a
newline, 7 becomes 1237; and a label of two lines adds the 9 that its second one starts with. -/
theorem addsExactly_fails :
    ¬ AddsExactly (hashFields (ascii "123"))
        (hashFields ((atomicQuarantineAppend .clean 7 11 1700000000 (ascii "m.cpp")
          ⟨some (ascii "123"), none, none⟩).log.getD [])) (hashText 7) ∧
    ¬ AddsExactly (hashFields headerLine)
        (hashFields ((atomicQuarantineAppend .clean 7 11 1700000000 (ascii "m\n9,x")
          ⟨some headerLine, none, none⟩).log.getD [])) (hashText 7) := by
  constructor
  · intro h
    have hmem := (h (hashText 7)).mpr (Or.inr rfl)
    exact absurd hmem (by decide)
  · intro h
    have hmem := (h (ascii "9")).mp (by decide)
    exact absurd hmem (by decide)

end Swayam
