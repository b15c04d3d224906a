import Mathlib.Data.List.Perm.Subperm

/-!
# Fresh entries

A store that takes over entries from a list: those that it does not hold yet,
each once, in the order of their first occurrence (`fresh`). A loop that tests
every entry against the store and adds the ones it takes computes them one
after the other (`fresh_cons_of_notMem`); a budget cuts the list short.

* `mem_fresh`, `nodup_fresh` — which entries are taken, and that none is taken
  twice;
* `mem_take_fresh` — which of them a budget lets through;
* `length_fresh_le` — their number is bounded by that of the distinct entries;
* `Absorbs` — what a store holds after taking over a part of the fresh entries
  of several lists: its old entries and new ones, pairwise different.
-/

namespace Fresh

variable {α : Type*} [BEq α] [LawfulBEq α]

/-- The entries of a list that a store does not hold, without later repetitions. -/
def fresh (store l : List α) : List α := (l.filter fun x => !store.contains x).eraseDups

variable {store l : List α} {x : α}

omit [LawfulBEq α] in
@[simp] theorem fresh_nil (store : List α) : fresh store [] = [] := rfl

theorem fresh_cons_of_mem (h : x ∈ store) (l : List α) : fresh store (x :: l) = fresh store l := by
  rw [fresh, List.filter_cons_of_neg (by simpa using h)]
  rfl

/-- A new entry is taken, and is no longer new behind its place. -/
theorem fresh_cons_of_notMem (h : x ∉ store) (l : List α) :
    fresh store (x :: l) = x :: fresh (store ++ [x]) l := by
  rw [fresh, List.filter_cons_of_pos (by simpa using h), List.eraseDups_cons, fresh,
    List.filter_filter]
  congr 2
  refine List.filter_congr fun y _ => ?_
  rw [List.contains_append, Bool.not_or]
  simp [Bool.and_comm]

/-- The fresh ones are those of the list not in the store, -/
theorem mem_fresh {y : α} : y ∈ fresh store l ↔ y ∈ l ∧ y ∉ store := by
  simp [fresh]

/-- each once. -/
theorem nodup_fresh (store l : List α) : (fresh store l).Nodup := by
  induction l generalizing store with
  | nil => exact List.nodup_nil
  | cons x l ih =>
    by_cases h : x ∈ store
    · rw [fresh_cons_of_mem h]
      exact ih store
    · rw [fresh_cons_of_notMem h]
      -- behind its place the entry counts as stored
      refine List.nodup_cons.mpr ⟨fun hmem => ?_, ih (store ++ [x])⟩
      exact (mem_fresh.mp hmem).2 (by simp)

/-- **What a budget leaves of them**: an entry that is not stored, with fewer fresh entries in
front of it than the budget has. -/
theorem mem_take_fresh {k : Nat} : x ∈ (fresh store l).take k ↔
    ∃ a b, l = a ++ x :: b ∧ x ∉ store ∧ (fresh store a).length < k := by
  induction l generalizing store k with
  | nil => simp
  | cons y l ih =>
    by_cases hy : y ∈ store
    · rw [fresh_cons_of_mem hy, ih]
      constructor
      · rintro ⟨a, b, rfl, hx, hlen⟩
        exact ⟨y :: a, b, rfl, hx, by rwa [fresh_cons_of_mem hy]⟩
      · rintro ⟨a, b, heq, hx, hlen⟩
        cases a with
        | nil =>
          rw [List.nil_append, List.cons.injEq] at heq
          exact absurd (heq.1 ▸ hy) hx
        | cons z a =>
          rw [List.cons_append, List.cons.injEq] at heq
          obtain ⟨rfl, rfl⟩ := heq
          exact ⟨a, b, rfl, hx, by rwa [fresh_cons_of_mem hy] at hlen⟩
    · rw [fresh_cons_of_notMem hy]
      constructor
      · intro hmem
        cases k with
        | zero => simp at hmem
        | succ k =>
          rw [List.take_succ_cons, List.mem_cons] at hmem
          rcases hmem with rfl | hmem
          · exact ⟨[], l, rfl, hy, by simp⟩
          · obtain ⟨a, b, rfl, hx, hlen⟩ := ih.mp hmem
            refine ⟨y :: a, b, rfl, fun h => hx (List.mem_append_left _ h), ?_⟩
            rw [fresh_cons_of_notMem hy, List.length_cons]
            omega
      · rintro ⟨a, b, heq, hx, hlen⟩
        -- the budget is not used up by what stands in front
        obtain ⟨k, rfl⟩ : ∃ n, k = n + 1 := ⟨k - 1, by omega⟩
        rw [List.take_succ_cons, List.mem_cons]
        cases a with
        | nil =>
          rw [List.nil_append, List.cons.injEq] at heq
          exact Or.inl heq.1.symm
        | cons z a =>
          rw [List.cons_append, List.cons.injEq] at heq
          obtain ⟨rfl, rfl⟩ := heq
          by_cases hxy : x = y
          · exact Or.inl hxy
          · refine Or.inr (ih.mpr ⟨a, b, rfl, ?_, ?_⟩)
            · simp [hx, hxy]
            · rw [fresh_cons_of_notMem hy, List.length_cons] at hlen
              omega

/-- A store that holds the whole list takes nothing from it. -/
theorem fresh_eq_nil_iff : fresh store l = [] ↔ l ⊆ store := by
  rw [List.eq_nil_iff_forall_not_mem]
  constructor
  · intro h x hx
    by_contra hnew
    exact h x (mem_fresh.mpr ⟨hx, hnew⟩)
  · intro h x hx
    exact (mem_fresh.mp hx).2 (h (mem_fresh.mp hx).1)

/-- **At most the distinct entries are taken.** -/
theorem length_fresh_le (store l : List α) : (fresh store l).length ≤ l.eraseDups.length := by
  have hsub : fresh store l ⊆ l.eraseDups := fun x hx =>
    List.mem_eraseDups.mpr (mem_fresh.mp hx).1
  exact (List.subperm_of_subset (nodup_fresh store l) hsub).length_le

/-- An empty store takes all distinct entries. -/
theorem fresh_empty (l : List α) : fresh [] l = l.eraseDups := by
  simp [fresh]

theorem length_eraseDups_le (l : List α) : l.eraseDups.length ≤ l.length := by
  have hnodup : l.eraseDups.Nodup := fresh_empty l ▸ nodup_fresh [] l
  exact (List.subperm_of_subset hnodup fun _ hx => List.mem_eraseDups.mp hx).length_le

/-! ## Stores that have grown -/

/-- The store has taken over these entries: each is new, and none is taken twice. -/
structure Absorbs (store taken store' : List α) : Prop where
  eq    : store' = store ++ taken
  nodup : taken.Nodup
  new   : ∀ x ∈ taken, x ∉ store

omit [BEq α] [LawfulBEq α] in
theorem Absorbs.refl (store : List α) : Absorbs store [] store :=
  ⟨(List.append_nil store).symm, List.nodup_nil, fun _ h => absurd h List.not_mem_nil⟩

omit [BEq α] [LawfulBEq α] in
/-- **Taking over once more** keeps the entries pairwise different. -/
theorem Absorbs.trans {taken taken' store' store'' : List α} (h : Absorbs store taken store')
    (h' : Absorbs store' taken' store'') : Absorbs store (taken ++ taken') store'' := by
  obtain ⟨rfl, hnodup, hnew⟩ := h
  obtain ⟨rfl, hnodup', hnew'⟩ := h'
  refine ⟨List.append_assoc .., ?_, ?_⟩
  · refine List.nodup_append.mpr ⟨hnodup, hnodup', ?_⟩
    rintro a ha b hb rfl
    exact hnew' a hb (List.mem_append_right _ ha)
  · intro x hx
    rcases List.mem_append.mp hx with hx | hx
    · exact hnew x hx
    · exact fun hmem => hnew' x hx (List.mem_append_left _ hmem)

/-- The first fresh entries of a list. -/
theorem absorbs_take (store l : List α) (k : Nat) :
    Absorbs store ((fresh store l).take k) (store ++ (fresh store l).take k) := by
  refine ⟨rfl, (nodup_fresh store l).sublist (List.take_sublist k _), fun x hx => ?_⟩
  exact (mem_fresh.mp (List.mem_of_mem_take hx)).2

end Fresh
