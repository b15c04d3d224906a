import Mathlib.Data.List.Infix

/-!
# Searching marked entries

A store of entries kept in one text, with membership decided by substring
search for a key that ends in a mark. The mark occurs in an entry only behind
its key, so every occurrence of the pattern ends at some entry's mark; but
nothing keeps it from starting inside that entry's key.

* `infix_mark_iff` — an occurrence ends at the first mark, and then the pattern
  is a suffix of what precedes it, or lies behind it;
* `infix_skip_iff` — an occurrence never spans a letter foreign to the pattern.

For a text that is put together, a word occurs in it only when it occurs in a
part: where the parts meet at a letter that is foreign to the word
(`infix_append_iff`), or where no part ends in a beginning of it (`Free`).
-/

namespace Search

variable {α : Type*} {q w t v : List α} {m x : α}

/-- A common end cancels. -/
theorem append_suffix_append_iff : q ++ t <:+ w ++ t ↔ q <:+ w := by
  constructor
  · rintro ⟨a, h⟩
    rw [← List.append_assoc] at h
    exact ⟨a, List.append_cancel_right h⟩
  · rintro ⟨a, rfl⟩
    exact ⟨a, by rw [List.append_assoc]⟩

/-- **A marked pattern against a marked text.** -/
theorem infix_mark_iff (hq : m ∉ q) (hw : m ∉ w) :
    q ++ [m] <:+: w ++ m :: v ↔ q <:+ w ∨ q ++ [m] <:+: v := by
  constructor
  · rintro ⟨a, b, hab⟩
    have hsplit : (a ++ q) ++ m :: b = w ++ m :: v := by simpa using hab
    rcases List.append_eq_append_iff.mp hsplit with ⟨c, hwc, hc⟩ | ⟨c, haq, hc⟩
    · -- the pattern ends at or before the text's first mark
      cases c with
      | nil => exact Or.inl ⟨a, by rw [hwc, List.append_nil]⟩
      | cons y ys =>
        rw [List.cons_append, List.cons.injEq] at hc
        exact absurd (by rw [hwc, ← hc.1]; simp) hw
    · cases c with
      | nil => exact Or.inl ⟨a, by rw [haq, List.append_nil]⟩
      | cons y ys =>
        -- the first mark lies in front of the pattern, which holds none itself
        rw [List.cons_append, List.cons.injEq] at hc
        obtain ⟨rfl, hv⟩ := hc
        rcases List.append_eq_append_iff.mp haq with ⟨d, hd, hqd⟩ | ⟨d, hd, hys⟩
        · cases d with
          | nil =>
            rw [List.nil_append] at hqd
            exact absurd (hqd ▸ List.mem_cons_self ..) hq
          | cons z zs =>
            exact absurd (by rw [hqd]; simp) hq
        · cases d with
          | nil =>
            rw [List.nil_append] at hys
            exact absurd (hys ▸ List.mem_cons_self ..) hq
          | cons z zs =>
            rw [List.cons_append, List.cons.injEq] at hys
            refine Or.inr ⟨zs, b, ?_⟩
            rw [hv, hys.2]
            simp
  · rintro (⟨a, rfl⟩ | ⟨a, b, hab⟩)
    · exact ⟨a, v, by simp⟩
    · exact ⟨w ++ m :: a, b, by simp [← hab]⟩

/-- **No occurrence spans a foreign letter.** A pattern that ends in a mark and does
not hold `x` occurs behind `x` or not at all, when no mark precedes `x`. -/
theorem infix_skip_iff (hq : x ∉ q) (hxm : x ≠ m) (ht : m ∉ t) :
    q ++ [m] <:+: t ++ x :: v ↔ q ++ [m] <:+: v := by
  constructor
  · rintro ⟨a, b, hab⟩
    have hsplit : a ++ (q ++ m :: b) = t ++ x :: v := by simpa using hab
    rcases List.append_eq_append_iff.mp hsplit with ⟨c, htc, hc⟩ | ⟨c, hac, hc⟩
    · -- an occurrence that starts before `x` would hold `x`, or its mark precede it
      rcases List.append_eq_append_iff.mp hc with ⟨d, hcd, hd⟩ | ⟨d, hqd, hd⟩
      · cases d with
        | nil =>
          rw [List.nil_append, List.cons.injEq] at hd
          exact absurd hd.1.symm hxm
        | cons z zs =>
          rw [List.cons_append, List.cons.injEq] at hd
          exact absurd (by rw [htc, hcd, ← hd.1]; simp) ht
      · cases d with
        | nil =>
          rw [List.nil_append, List.cons.injEq] at hd
          exact absurd hd.1 hxm
        | cons z zs =>
          rw [List.cons_append, List.cons.injEq] at hd
          exact absurd (by rw [hqd, ← hd.1]; simp) hq
    · -- it starts at `x`, which it does not hold, or behind
      cases c with
      | nil =>
        rw [List.nil_append] at hc
        cases q with
        | nil =>
          rw [List.nil_append, List.cons.injEq] at hc
          exact absurd hc.1 hxm
        | cons z zs =>
          rw [List.cons_append, List.cons.injEq] at hc
          exact absurd (by rw [hc.1]; simp) hq
      | cons z zs =>
        rw [List.cons_append, List.cons.injEq] at hc
        exact ⟨zs, b, by rw [hc.2]; simp⟩
  · rintro ⟨a, b, hab⟩
    exact ⟨t ++ x :: a, b, by simp [← hab]⟩

/-! ## Texts in parts -/

theorem infix_append_of_or {u : List α} (h : w <:+: u ∨ w <:+: v) : w <:+: u ++ v := by
  rcases h with h | h
  · exact List.infix_append_of_infix_left h
  · exact List.infix_append_of_infix_right h

/-- **No word occurs across a foreign letter**, at the end of the one part or the start of the
other. -/
theorem infix_append_iff (hx : x ∉ w) {u : List α}
    (hseam : (∀ b, u.getLast? = some b → b = x) ∨ ∀ b, v.head? = some b → b = x) :
    w <:+: u ++ v ↔ w <:+: u ∨ w <:+: v := by
  constructor
  · rintro ⟨a, b, h⟩
    rw [List.append_assoc] at h
    rcases List.append_eq_append_iff.mp h with ⟨c, rfl, hc⟩ | ⟨c, rfl, hc⟩
    · rcases List.append_eq_append_iff.mp hc with ⟨d, rfl, -⟩ | ⟨d, hw, hv⟩
      · exact Or.inl ⟨a, d, by simp⟩
      · -- the word is a part of the end of `u` and one of the start of `v`
        cases d with
        | nil =>
          rw [List.append_nil] at hw
          exact Or.inl ⟨a, [], by simp [hw]⟩
        | cons y d =>
          cases c with
          | nil =>
            rw [List.nil_append] at hw
            exact Or.inr ⟨[], b, by rw [hv, hw, List.nil_append]⟩
          | cons z c =>
            exfalso
            -- then it holds the byte at the seam
            rcases hseam with hseam | hseam
            · have hne := List.cons_ne_nil z c
              have hlast := hseam ((z :: c).getLast hne) (by
                rw [List.getLast?_append, List.getLast?_eq_some_getLast hne]
                rfl)
              exact hx (by rw [hw, ← hlast]; exact List.mem_append_left _ (List.getLast_mem _))
            · have hhead := hseam y (by rw [hv]; rfl)
              exact hx (by rw [hw, ← hhead]; simp)
    · exact Or.inr ⟨c, b, by rw [List.append_assoc, hc]⟩
  · exact infix_append_of_or

/-- A text that neither holds a word nor ends in a beginning of it. -/
def Free (w u : List α) : Prop :=
  ¬ w <:+: u ∧ ∀ k, k < w.length → 0 < k → ¬ w.take k <:+ u

instance [DecidableEq α] (w u : List α) : Decidable (Free w u) :=
  inferInstanceAs (Decidable (_ ∧ ∀ k, k < w.length → _))

/-- A text without the first letter of the word. -/
theorem free_of_notMem {c : α} {u : List α} (h : c ∉ u) : Free (c :: w) u := by
  constructor
  · exact fun hpart => h (hpart.subset List.mem_cons_self)
  · intro k _ hpos hsuffix
    refine h (hsuffix.subset ?_)
    obtain ⟨k, rfl⟩ : ∃ j, k = j + 1 := ⟨k - 1, by omega⟩
    exact List.mem_cons_self

/-- **Free parts make a free text.** -/
theorem Free.append {u : List α} (hu : Free w u) (hv : Free w v) : Free w (u ++ v) := by
  -- a beginning of the word cannot reach into `u`
  have hreach : ∀ c d : List α, c ++ d <+: w → c ≠ [] → c <:+ u → d ≠ [] → False := by
    rintro c d ⟨e, he⟩ hc hsuffix hd
    have hlength : c.length < w.length := by
      rw [← he]
      have hpos := List.length_pos_iff.mpr hd
      simp only [List.length_append]
      omega
    refine hu.2 c.length hlength (List.length_pos_iff.mpr hc) ?_
    rwa [← he, List.append_assoc, List.take_left]
  constructor
  · rintro ⟨a, b, h⟩
    rw [List.append_assoc] at h
    rcases List.append_eq_append_iff.mp h with ⟨c, rfl, hc⟩ | ⟨c, rfl, hc⟩
    · rcases List.append_eq_append_iff.mp hc with ⟨d, rfl, -⟩ | ⟨d, hw, hb⟩
      · exact hu.1 ⟨a, d, by simp⟩
      · by_cases hd : d = []
        · rw [hd, List.append_nil] at hw
          exact hu.1 ⟨a, [], by simp [hw]⟩
        · by_cases hc' : c = []
          · rw [hc', List.nil_append] at hw
            exact hv.1 ⟨[], b, by rw [hb, hw, List.nil_append]⟩
          · exact hreach c d (by rw [hw]) hc' ⟨a, rfl⟩ hd
    · exact hv.1 ⟨c, b, by rw [List.append_assoc, hc]⟩
  · rintro k hk hpos ⟨a, h⟩
    rcases List.append_eq_append_iff.mp h with ⟨c, rfl, hc⟩ | ⟨c, rfl, hc⟩
    · by_cases hnil : v = []
      · rw [hnil, List.append_nil] at hc
        exact hu.2 k hk hpos ⟨a, by rw [hc]⟩
      · by_cases hc' : c = []
        · rw [hc', List.nil_append] at hc
          exact hv.2 k hk hpos ⟨[], by rw [hc, List.nil_append]⟩
        · exact hreach c v (by rw [← hc]; exact List.take_prefix k w) hc' ⟨a, rfl⟩ hnil
    · exact hv.2 k hk hpos ⟨c, hc.symm⟩

end Search
