import Mathlib.Data.List.Basic

/-!
# Hashes that fold a step

A hash that takes in a text letter by letter, `t.foldl step s`. When the step
loses neither the state it starts from nor the letter it takes in, two texts
that differ in one letter have different hashes, whatever surrounds it: the
states differ behind that letter, and every later step keeps them apart.

* `Lossless.foldl_injective` — the states stay apart over a whole text;
* `Lossless.foldl_set_ne` — one changed letter changes the hash;
* `lossless_xor_mul` — the steps of the FNV kind, an exclusive or and a
  product with a factor that has an inverse.
-/

namespace FoldHash

variable {σ α : Type*}

/-- A step that keeps states apart and letters apart. -/
structure Lossless (step : σ → α → σ) : Prop where
  state  : ∀ a, Function.Injective fun s => step s a
  letter : ∀ s, Function.Injective (step s)

variable {step : σ → α → σ}

/-- **Different states stay different** over the rest of a text. -/
theorem Lossless.foldl_injective (h : Lossless step) (t : List α) :
    Function.Injective fun s => t.foldl step s := by
  induction t with
  | nil => exact Function.injective_id
  | cons a t ih =>
    intro s s' heq
    exact h.state a (ih heq)

/-- **One changed letter changes the hash.** -/
theorem Lossless.foldl_set_ne (h : Lossless step) {t : List α} {i : Nat} (hi : i < t.length)
    {b : α} (hb : b ≠ t[i]) (s : σ) : (t.set i b).foldl step s ≠ t.foldl step s := by
  induction t generalizing s i with
  | nil => exact absurd hi (Nat.not_lt_zero i)
  | cons a t ih =>
    cases i with
    | zero =>
      -- the letter itself: from here on the two states differ
      intro heq
      exact hb (h.letter s (h.foldl_injective t heq))
    | succ i =>
      have hi' : i < t.length := by
        rw [List.length_cons] at hi
        omega
      rw [List.getElem_cons_succ] at hb
      rw [List.set_cons_succ, List.foldl_cons, List.foldl_cons]
      exact ih hi' hb (step s a)

/-- A factor with an inverse can be taken back. -/
theorem mul_right_injective {p q : UInt64} (hpq : p * q = 1) :
    Function.Injective fun h : UInt64 => h * p := by
  intro h h' heq
  have hback : ∀ x : UInt64, x * p * q = x := by
    intro x
    rw [UInt64.mul_assoc, hpq, UInt64.mul_one]
  calc h = h * p * q := (hback h).symm
    _ = h' * p * q := congrArg (· * q) heq
    _ = h' := hback h'

/-- **The FNV step** loses nothing, for letters that are different as words. -/
theorem lossless_xor_mul {word : α → UInt64} (hword : Function.Injective word) {p q : UInt64}
    (hpq : p * q = 1) : Lossless fun (h : UInt64) (a : α) => (h ^^^ word a) * p where
  state _ _ _ heq := (UInt64.xor_left_inj _).mp (mul_right_injective hpq heq)
  letter _ _ _ heq := hword ((UInt64.xor_right_inj _).mp (mul_right_injective hpq heq))

end FoldHash
