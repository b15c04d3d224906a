import Mathlib.Data.List.Basic

/-!
# Delimited text

Text over an arbitrary alphabet cut into lines by a separator, the way a
`getline` loop reads it: every separator ends a line, and what follows the
last separator is a line of its own when it is not empty.

* `lines` — the lines such a loop sees;
* `lastLine` — the unterminated rest after the last separator; a text is
  *closed* when it is empty;
* `keys` — the keys of the lines that have one, for a key function on lines.

The main facts are `lines_append` (appending to a text only touches its last
line), `keys_subset_append` (when a longer line keeps its key, appending text
never loses a key) and `keys_append_subset_of_lastLine_eq` (a writer whose
last line is the text's last line adds the keys it writes).
-/

namespace Delimited

variable {α β : Type*} [DecidableEq α] (sep : α)

/-- The lines that a `getline` loop reads. -/
def lines : List α → List (List α)
  | [] => []
  | x :: xs =>
    if x = sep then [] :: lines xs
    else match lines xs with
      | [] => [[x]]
      | l :: ls => (x :: l) :: ls

/-- What follows the last separator. -/
def lastLine : List α → List α
  | [] => []
  | x :: xs => if sep ∈ x :: xs then lastLine xs else x :: xs

/-- The keys of the lines that have one, in order. -/
def keys (key : List α → Option β) (c : List α) : List β :=
  (lines sep c).filterMap key

variable {sep}

/-! ## Lines -/

@[simp] theorem lines_nil : lines sep [] = [] := rfl

@[simp] theorem lines_sep_cons (xs : List α) : lines sep (sep :: xs) = [] :: lines sep xs := by
  simp [lines]

/-- Only an empty text has no line. -/
theorem lines_eq_nil {c : List α} : lines sep c = [] ↔ c = [] := by
  cases c with
  | nil => simp
  | cons x xs =>
    simp only [lines]
    split
    · simp
    · split <;> simp

/-- A separator-free text is one line. -/
theorem lines_of_notMem {l : List α} (h : sep ∉ l) (hne : l ≠ []) : lines sep l = [l] := by
  induction l with
  | nil => exact absurd rfl hne
  | cons x xs ih =>
    rw [List.mem_cons, not_or] at h
    rw [lines, if_neg (Ne.symm h.1)]
    cases xs with
    | nil => simp
    | cons y ys => rw [ih h.2 (List.cons_ne_nil y ys)]

/-- A separator ends the line in front of it. -/
theorem lines_append_sep {l : List α} (h : sep ∉ l) (b : List α) :
    lines sep (l ++ sep :: b) = l :: lines sep b := by
  induction l with
  | nil => simp
  | cons x xs ih =>
    rw [List.mem_cons, not_or] at h
    rw [List.cons_append, lines, if_neg (Ne.symm h.1), ih h.2]

/-! ## The last line -/

@[simp] theorem lastLine_nil : lastLine sep [] = [] := rfl

/-- A text without separators is its own last line. -/
theorem lastLine_of_notMem {l : List α} (h : sep ∉ l) : lastLine sep l = l := by
  cases l with
  | nil => rfl
  | cons x xs => rw [lastLine, if_neg h]

/-- The last line holds no separator. -/
theorem notMem_lastLine (c : List α) : sep ∉ lastLine sep c := by
  induction c with
  | nil => simp
  | cons x xs ih =>
    rw [lastLine]
    split
    · exact ih
    · assumption

/-- Text behind goes on with the last line, -/
theorem lastLine_append_of_notMem {x : List α} (h : sep ∉ x) (c : List α) :
    lastLine sep (c ++ x) = lastLine sep c ++ x := by
  induction c with
  | nil => simp [lastLine_of_notMem h]
  | cons y ys ih =>
    rw [List.cons_append, lastLine, lastLine, ih]
    by_cases hy : sep ∈ y :: ys
    · rw [if_pos hy, if_pos (by simp only [List.mem_cons, List.mem_append] at hy ⊢; tauto)]
    · rw [if_neg hy, if_neg (by simp only [List.mem_cons, List.mem_append] at hy ⊢; tauto)]
      rfl

/-- unless it ends it. -/
theorem lastLine_append_of_mem {x : List α} (h : sep ∈ x) (c : List α) :
    lastLine sep (c ++ x) = lastLine sep x := by
  induction c with
  | nil => rfl
  | cons y ys ih => rw [List.cons_append, lastLine, if_pos (by simp [h]), ih]

@[simp] theorem lastLine_append_sep (c : List α) : lastLine sep (c ++ [sep]) = [] := by
  rw [lastLine_append_of_mem (by simp)]
  simp [lastLine]

/-- The last line depends on the text in front only through its last line. -/
theorem lastLine_append (c x : List α) :
    lastLine sep (c ++ x) = lastLine sep (lastLine sep c ++ x) := by
  by_cases h : sep ∈ x
  · rw [lastLine_append_of_mem h, lastLine_append_of_mem h]
  · rw [lastLine_append_of_notMem h, lastLine_append_of_notMem h,
      lastLine_of_notMem (notMem_lastLine c)]

variable (sep) in
/-- Every text is a closed text followed by its last line. -/
theorem exists_closed (c : List α) :
    ∃ b, c = b ++ lastLine sep c ∧ lastLine sep b = [] := by
  induction c with
  | nil => exact ⟨[], rfl, rfl⟩
  | cons x xs ih =>
    rw [lastLine]
    by_cases h : sep ∈ x :: xs
    · rw [if_pos h]
      obtain ⟨b, hb, hclosed⟩ := ih
      refine ⟨x :: b, by rw [List.cons_append, ← hb], ?_⟩
      have hmem : sep ∈ x :: b := by
        rw [hb] at h
        have hlast : sep ∉ lastLine sep xs := notMem_lastLine xs
        simp only [List.mem_cons, List.mem_append] at h ⊢
        tauto
      rw [lastLine, if_pos hmem, hclosed]
    · rw [if_neg h]
      exact ⟨[], rfl, rfl⟩

omit [DecidableEq α] in
/-- Of a single terminated line, only the whole is a prefix that ends in the
separator. -/
theorem eq_of_prefix_line {l q : List α} (hl : sep ∉ l) (hq : q ++ [sep] <+: l ++ [sep]) :
    q = l := by
  obtain ⟨t, ht⟩ := hq
  rcases List.eq_nil_or_concat t with rfl | ⟨t, y, rfl⟩
  · rw [List.append_nil] at ht
    exact List.append_cancel_right ht
  · -- otherwise the separator would be one of the line's own letters
    rw [List.concat_eq_append, ← List.append_assoc] at ht
    have hsplit := List.append_inj_left' ht rfl
    exact absurd (hsplit ▸ by simp) hl

omit [DecidableEq α] in
/-- A text is split at its first separator in one way only. -/
theorem append_sep_inj {x x' z z' : List α} (hx : sep ∉ x) (hx' : sep ∉ x') :
    x ++ sep :: z = x' ++ sep :: z' ↔ x = x' ∧ z = z' := by
  constructor
  · intro h
    rcases List.append_eq_append_iff.mp h with ⟨c, hc, htail⟩ | ⟨c, hc, htail⟩
    · cases c with
      | nil =>
        rw [List.nil_append, List.cons.injEq] at htail
        exact ⟨by rw [hc, List.append_nil], htail.2⟩
      | cons y c =>
        -- the first text's separator would be a letter of `x'`
        rw [List.cons_append, List.cons.injEq] at htail
        exact absurd (by rw [hc, htail.1]; simp) hx'
    · cases c with
      | nil =>
        rw [List.nil_append, List.cons.injEq] at htail
        exact ⟨by rw [hc, List.append_nil], htail.2.symm⟩
      | cons y c =>
        rw [List.cons_append, List.cons.injEq] at htail
        exact absurd (by rw [hc, htail.1]; simp) hx
  · rintro ⟨rfl, rfl⟩
    rfl

omit [DecidableEq α] in
/-- And at its last one. -/
theorem append_sep_inj_last {x x' z z' : List α} (hz : sep ∉ z) (hz' : sep ∉ z') :
    x ++ sep :: z = x' ++ sep :: z' ↔ x = x' ∧ z = z' := by
  have hreverse : ∀ y w : List α, (y ++ sep :: w).reverse = w.reverse ++ sep :: y.reverse := by
    intro y w
    simp
  rw [← List.reverse_inj, hreverse, hreverse,
    append_sep_inj (by simpa using hz) (by simpa using hz'), List.reverse_inj, List.reverse_inj,
    and_comm]

/-! ## Appending -/

/-- What is appended to a closed text starts a new line. -/
theorem lines_append_of_closed {c : List α} (h : lastLine sep c = []) (x : List α) :
    lines sep (c ++ x) = lines sep c ++ lines sep x := by
  induction c with
  | nil => simp
  | cons y ys ih =>
    -- a closed text that is not empty has a separator
    have hmem : sep ∈ y :: ys := by
      by_contra hno
      rw [lastLine, if_neg hno] at h
      exact absurd h (List.cons_ne_nil y ys)
    rw [lastLine, if_pos hmem] at h
    rw [List.cons_append, lines, lines, ih h]
    by_cases hy : y = sep
    · simp [hy]
    · have hys : lines sep ys ≠ [] := by
        rw [Ne, lines_eq_nil]
        rintro rfl
        simp only [List.mem_singleton] at hmem
        exact hy hmem.symm
      obtain ⟨l, ls, hl⟩ := List.exists_cons_of_ne_nil hys
      simp [hy, hl]

variable (sep) in
/-- **Appending touches only the last line.** -/
theorem lines_append (c x : List α) :
    ∃ b, c = b ++ lastLine sep c ∧
      lines sep c = lines sep b ++ lines sep (lastLine sep c) ∧
      lines sep (c ++ x) = lines sep b ++ lines sep (lastLine sep c ++ x) := by
  obtain ⟨b, hb, hclosed⟩ := exists_closed sep c
  refine ⟨b, hb, ?_, ?_⟩
  · rw [← lines_append_of_closed hclosed, ← hb]
  · rw [← lines_append_of_closed hclosed, ← List.append_assoc, ← hb]

/-- The first line of a text that is not empty survives an append up to its end. -/
theorem lines_append_of_notMem {l : List α} (h : sep ∉ l) (hne : l ≠ []) (x : List α) :
    ∃ t ls, lines sep (l ++ x) = (l ++ t) :: ls := by
  induction l with
  | nil => exact absurd rfl hne
  | cons y ys ih =>
    rw [List.mem_cons, not_or] at h
    rw [List.cons_append, lines, if_neg (Ne.symm h.1)]
    cases ys with
    | nil =>
      cases hx : lines sep x with
      | nil => exact ⟨[], [], by simp [hx]⟩
      | cons l ls => exact ⟨l, ls, by simp [hx]⟩
    | cons z zs =>
      obtain ⟨t, ls, ht⟩ := ih h.2 (List.cons_ne_nil z zs)
      exact ⟨t, ls, by rw [ht]; rfl⟩

/-! ## Keys -/

/-- Behind whole lines the keys of a text are added. -/
theorem keys_append_of_closed {key : List α → Option β} {c : List α}
    (h : lastLine sep c = []) (x : List α) :
    keys sep key (c ++ x) = keys sep key c ++ keys sep key x := by
  rw [keys, lines_append_of_closed h, List.filterMap_append]
  rfl

/-- A key function that longer lines keep: extending a line never changes its key. -/
def Stable (key : List α → Option β) : Prop :=
  ∀ l k x, key l = some k → key (l ++ x) = some k

/-- **Appending text loses no key**, whatever the last line looked like. -/
theorem keys_subset_append {key : List α → Option β} (hkey : Stable key)
    (c x : List α) : keys sep key c ⊆ keys sep key (c ++ x) := by
  obtain ⟨b, -, hc, hcx⟩ := lines_append sep c x
  intro k hk
  rw [keys, hc, List.filterMap_append, List.mem_append] at hk
  rw [keys, hcx, List.filterMap_append, List.mem_append]
  rcases hk with hk | hk
  · exact Or.inl hk
  · right
    by_cases hne : lastLine sep c = []
    · simp [hne] at hk
    · -- the key of the last line, which what is appended makes longer
      rw [lines_of_notMem (notMem_lastLine c) hne] at hk
      obtain ⟨t, ls, ht⟩ := lines_append_of_notMem (notMem_lastLine c) hne x
      rw [List.mem_filterMap] at hk
      obtain ⟨l, hl, hkl⟩ := hk
      rw [List.mem_singleton] at hl
      subst hl
      rw [ht, List.mem_filterMap]
      exact ⟨lastLine sep c ++ t, List.mem_cons_self .., hkey _ _ _ hkl⟩

/-- **Writing piece by piece.** When a text ends in the same unterminated line as
what a writer has written so far, the keys that the writer's next piece
completes are keys of the text it is appended to. -/
theorem keys_append_subset_of_lastLine_eq {key : List α → Option β} {c w : List α}
    (h : lastLine sep c = lastLine sep w) (x : List α) {k : β}
    (hk : k ∈ keys sep key (w ++ x)) : k ∈ keys sep key w ∨ k ∈ keys sep key (c ++ x) := by
  obtain ⟨bw, -, hw, hwx⟩ := lines_append sep w x
  obtain ⟨bc, -, -, hcx⟩ := lines_append sep c x
  rw [keys, hwx, List.filterMap_append, List.mem_append] at hk
  rcases hk with hk | hk
  · left
    rw [keys, hw, List.filterMap_append, List.mem_append]
    exact Or.inl hk
  · right
    rw [keys, hcx, h, List.filterMap_append, List.mem_append]
    exact Or.inr hk

/-! ## Terminated lines -/

variable (sep) in
/-- The text up to its last separator. -/
def closedPart (c : List α) : List α := c.take (c.length - (lastLine sep c).length)

variable (sep) in
/-- The keys of the terminated lines. -/
def closedKeys (key : List α → Option β) (c : List α) : List β := keys sep key (closedPart sep c)

/-- The closed part is what stands in front of the last line. -/
theorem closedPart_eq_of_append {b c : List α} (h : c = b ++ lastLine sep c) :
    closedPart sep c = b := by
  have hlen : c.length = b.length + (lastLine sep c).length := by
    nth_rewrite 1 [h]
    exact List.length_append
  have htake : c.length - (lastLine sep c).length = b.length := by omega
  rw [closedPart, htake]
  nth_rewrite 1 [h]
  exact List.take_left

variable (sep) in
/-- The two together are the text. -/
theorem closedPart_append_lastLine (c : List α) : closedPart sep c ++ lastLine sep c = c := by
  obtain ⟨b, hb, -⟩ := exists_closed sep c
  rw [closedPart_eq_of_append hb, ← hb]

variable (sep) in
/-- The closed part is made of whole lines. -/
theorem lastLine_closedPart (c : List α) : lastLine sep (closedPart sep c) = [] := by
  obtain ⟨b, hb, hclosed⟩ := exists_closed sep c
  rw [closedPart_eq_of_append hb, hclosed]

/-- An unterminated piece leaves the terminated lines alone. -/
theorem closedPart_append_of_notMem {x : List α} (h : sep ∉ x) (c : List α) :
    closedPart sep (c ++ x) = closedPart sep c := by
  refine closedPart_eq_of_append ?_
  rw [lastLine_append_of_notMem h, ← List.append_assoc, closedPart_append_lastLine]

variable {key : List α → Option β}

/-- The keys of a text are those of its terminated lines, and that of its last line. -/
theorem keys_eq_closedKeys (hnil : key [] = none) (c : List α) :
    keys sep key c = closedKeys sep key c ++ (key (lastLine sep c)).toList := by
  have hsplit : keys sep key (closedPart sep c ++ lastLine sep c) =
      keys sep key (closedPart sep c) ++ keys sep key (lastLine sep c) :=
    keys_append_of_closed (lastLine_closedPart sep c) (lastLine sep c)
  rw [closedPart_append_lastLine] at hsplit
  rw [hsplit]
  congr 1
  by_cases hclosed : lastLine sep c = []
  · rw [hclosed, hnil]
    rfl
  · rw [keys, lines_of_notMem (notMem_lastLine c) hclosed, List.filterMap_cons]
    cases key (lastLine sep c) with
    | none => rfl
    | some k => rfl

/-- An open line has no key yet. -/
theorem closedKeys_append_of_notMem {x : List α} (h : sep ∉ x) (c : List α) :
    closedKeys sep key (c ++ x) = closedKeys sep key c := by
  rw [closedKeys, closedPart_append_of_notMem h, closedKeys]

/-- **A line on its own terms**: a piece that ends a line adds the key of the unterminated line
with the piece behind it, and then the keys of what follows. -/
theorem keys_append_line {l : List α} (hl : sep ∉ l) (c rest : List α) :
    keys sep key (c ++ (l ++ sep :: rest)) =
      closedKeys sep key c ++ ((key (lastLine sep c ++ l)).toList ++ keys sep key rest) := by
  have hline : sep ∉ lastLine sep c ++ l := by
    rw [List.mem_append, not_or]
    exact ⟨notMem_lastLine c, hl⟩
  have hsplit : c ++ (l ++ sep :: rest) =
      closedPart sep c ++ ((lastLine sep c ++ l) ++ sep :: rest) := by
    nth_rewrite 1 [← closedPart_append_lastLine sep c]
    simp only [List.append_assoc]
  rw [hsplit, keys_append_of_closed (lastLine_closedPart sep c), closedKeys]
  congr 1
  rw [keys, lines_append_sep hline, List.filterMap_cons]
  cases key (lastLine sep c ++ l) with
  | none => rfl
  | some k => rfl

/-- A terminated line joins the terminated lines. -/
theorem closedKeys_append_line {l : List α} (hl : sep ∉ l) (c : List α) :
    closedKeys sep key (c ++ (l ++ [sep])) =
      closedKeys sep key c ++ (key (lastLine sep c ++ l)).toList := by
  have hclosed : lastLine sep (c ++ (l ++ [sep])) = [] := by
    rw [← List.append_assoc]
    exact lastLine_append_sep _
  have hpart : closedPart sep (c ++ (l ++ [sep])) = c ++ (l ++ [sep]) :=
    closedPart_eq_of_append (by rw [hclosed, List.append_nil])
  rw [closedKeys, hpart, keys_append_line hl]
  simp [keys]

end Delimited
