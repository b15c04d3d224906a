import Mathlib.Data.List.Basic
import Mathlib.Data.Set.Finite.Basic
import Mathlib.Logic.Equiv.Fintype

/-!
# Numbering by first occurrence

A reader that gives every key it meets a number, the next one when the key is
new: what it has numbered so far is a list of keys (`collect`), and the number
of a key is its place there.

* `idxOf_of_isPrefix` — a number, once given, stays;
* `idxOf_collect_map` — an injective renaming of the keys changes no number;
* `exists_perm_of_numbers` — and where two readers give the same numbers, a
  bijection takes the keys of the one to those of the other.
-/

namespace Numbering

variable {α β : Type*} [DecidableEq α] [DecidableEq β]

/-- A key that is met is put at the end when it is new. -/
def extend (known : List α) (key : α) : List α := if key ∈ known then known else known ++ [key]

/-- The keys that are known after a list of keys. -/
def collect (known keys : List α) : List α := keys.foldl extend known

theorem collect_cons (known : List α) (key : α) (keys : List α) :
    collect known (key :: keys) = collect (extend known key) keys := rfl

theorem collect_append (known keys keys' : List α) :
    collect known (keys ++ keys') = collect (collect known keys) keys' :=
  List.foldl_append

/-- A new key goes behind the known ones. -/
theorem prefix_extend (known : List α) (key : α) : known <+: extend known key := by
  unfold extend
  split
  · exact List.prefix_rfl
  · exact List.prefix_append known [key]

/-- Then it is known. -/
theorem mem_extend (known : List α) (key : α) : key ∈ extend known key := by
  unfold extend
  split
  · assumption
  · simp

/-- So collecting only adds behind, -/
theorem prefix_collect (known keys : List α) : known <+: collect known keys := by
  induction keys generalizing known with
  | nil => exact List.prefix_rfl
  | cons key keys ih => exact (prefix_extend known key).trans (ih (extend known key))

/-- and what is collected is known. -/
theorem mem_collect {known keys : List α} {key : α} (h : key ∈ keys) :
    key ∈ collect known keys := by
  induction keys generalizing known with
  | nil => exact absurd h List.not_mem_nil
  | cons head keys ih =>
    rcases List.mem_cons.mp h with rfl | h
    · exact (prefix_collect _ keys).subset (mem_extend known key)
    · exact ih h

/-- **A number, once given, stays.** -/
theorem idxOf_of_isPrefix {known known' : List α} {key : α} (h : known <+: known')
    (hkey : key ∈ known) : known'.idxOf key = known.idxOf key := by
  obtain ⟨rest, rfl⟩ := h
  exact List.idxOf_append_of_mem hkey

/-! ## Renamings -/

/-- Renaming keys commutes with each step, -/
theorem extend_map {f : α → β} (hf : Function.Injective f) (known : List α) (key : α) :
    extend (known.map f) (f key) = (extend known key).map f := by
  unfold extend
  by_cases hkey : key ∈ known
  · rw [if_pos hkey, if_pos (List.mem_map_of_mem hkey)]
  · rw [if_neg hkey, if_neg, List.map_append, List.map_singleton]
    rw [List.mem_map_of_injective hf]
    exact hkey

/-- so with collecting, -/
theorem collect_map {f : α → β} (hf : Function.Injective f) (known keys : List α) :
    collect (known.map f) (keys.map f) = (collect known keys).map f := by
  induction keys generalizing known with
  | nil => rfl
  | cons key keys ih => rw [List.map_cons, collect_cons, extend_map hf, ih, collect_cons]

/-- and changes no number. -/
theorem idxOf_map {f : α → β} (hf : Function.Injective f) (known : List α) (key : α) :
    (known.map f).idxOf (f key) = known.idxOf key := by
  induction known with
  | nil => rfl
  | cons head known ih =>
    rw [List.map_cons, List.idxOf_cons, List.idxOf_cons, ih]
    by_cases heq : head = key
    · rw [heq, beq_self_eq_true, beq_self_eq_true]
    · rw [beq_false_of_ne heq, beq_false_of_ne (hf.ne heq)]

/-- **A renaming changes no number.** -/
theorem idxOf_collect_map {f : α → β} (hf : Function.Injective f) (keys : List α) (key : α) :
    (collect [] (keys.map f)).idxOf (f key) = (collect [] keys).idxOf key := by
  rw [← List.map_nil (f := f), collect_map hf, idxOf_map hf]

omit [DecidableEq α] in
/-- A finite partial bijection is part of a permutation. -/
theorem exists_perm_of_pairs {pairs : List (α × α)}
    (h : ∀ p ∈ pairs, ∀ q ∈ pairs, p.1 = q.1 ↔ p.2 = q.2) :
    ∃ σ : Equiv.Perm α, ∀ p ∈ pairs, σ p.1 = p.2 := by
  have hfst : Function.Injective fun p : {p // p ∈ pairs} => p.1.1 := fun p q heq =>
    Subtype.ext (Prod.ext heq ((h p.1 p.2 q.1 q.2).mp heq))
  have hsnd : Function.Injective fun p : {p // p ∈ pairs} => p.1.2 := fun p q heq =>
    Subtype.ext (Prod.ext ((h p.1 p.2 q.1 q.2).mpr heq) heq)
  have hfinite : Finite {p // p ∈ pairs} := (List.finite_toSet pairs).to_subtype
  obtain ⟨σ, hσ⟩ := Equiv.Perm.exists_extending_pair _ _ hfst hsnd
  exact ⟨σ, fun p hp => hσ ⟨p, hp⟩⟩

omit [DecidableEq β] in
/-- **Equal numbers come from a bijection**: pairs of keys of one sort (`f`) with the same
numbers in the two lists are the pairs of a permutation. -/
theorem exists_perm_of_numbers {f : β → α} (hf : Function.Injective f) {known known' : List α}
    {pairs : List (β × β)}
    (h : ∀ p ∈ pairs, f p.1 ∈ known ∧ f p.2 ∈ known' ∧
      known.idxOf (f p.1) = known'.idxOf (f p.2)) :
    ∃ σ : Equiv.Perm β, ∀ p ∈ pairs, σ p.1 = p.2 := by
  refine exists_perm_of_pairs fun p hp q hq => ?_
  obtain ⟨hp₁, hp₂, hpeq⟩ := h p hp
  obtain ⟨-, -, hqeq⟩ := h q hq
  rw [← hf.eq_iff, ← List.idxOf_inj hp₁, hpeq, hqeq, List.idxOf_inj hp₂, hf.eq_iff]

end Numbering
