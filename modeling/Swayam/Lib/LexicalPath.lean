import Mathlib.Data.List.Infix

/-!
# Lexical resolution of a relative path

The components of a relative path are followed one after the other from a root,
by their names alone: some stay where they are, some enter a directory, and some
leave it. Resolution fails at a component that would leave the root.

* `resolve_isSome_iff` — it succeeds when no initial part of the path leaves more
  directories than it has entered;
* `mismatch_eq_none_iff` — two paths compared component by component, by a comparison
  that takes the second one to be long enough.
-/

namespace LexicalPath

/-- What a component does. -/
inductive Step
  | stay
  | enter
  | leave
  deriving DecidableEq, Repr

variable {α : Type*}

/-- Follow the components from a place below the root, given by the components that lead there,
the last one first. -/
def resolve (step : α → Step) (place : List α) : List α → Option (List α)
  | [] => some place
  | c :: cs =>
    match step c with
    | .stay => resolve step place cs
    | .enter => resolve step (c :: place) cs
    | .leave =>
      match place with
      | [] => none
      | _ :: above => resolve step above cs

/-- How many of the components enter a directory. -/
def entered (step : α → Step) (cs : List α) : Nat := cs.countP (step · = .enter)

/-- How many leave one. -/
def left (step : α → Step) (cs : List α) : Nat := cs.countP (step · = .leave)

section Components

variable {step : α → Step} {c : α}

theorem counts_stay (h : step c = .stay) (cs : List α) :
    entered step (c :: cs) = entered step cs ∧ left step (c :: cs) = left step cs := by
  simp [entered, left, h]

theorem counts_enter (h : step c = .enter) (cs : List α) :
    entered step (c :: cs) = entered step cs + 1 ∧ left step (c :: cs) = left step cs := by
  simp [entered, left, h]

theorem counts_leave (h : step c = .leave) (cs : List α) :
    entered step (c :: cs) = entered step cs ∧ left step (c :: cs) = left step cs + 1 := by
  simp [entered, left, h]

/-- Resolution, component by component. -/
theorem resolve_stay (h : step c = .stay) (place cs : List α) :
    resolve step place (c :: cs) = resolve step place cs := by
  rw [resolve.eq_def]
  simp only [h]

theorem resolve_enter (h : step c = .enter) (place cs : List α) :
    resolve step place (c :: cs) = resolve step (c :: place) cs := by
  rw [resolve.eq_def]
  simp only [h]

/-- Nothing is above the root. -/
theorem resolve_leave_root (h : step c = .leave) (cs : List α) :
    resolve step [] (c :: cs) = none := by
  rw [resolve.eq_def]
  simp only [h]

theorem resolve_leave (h : step c = .leave) (d : α) (above cs : List α) :
    resolve step (d :: above) (c :: cs) = resolve step above cs := by
  rw [resolve.eq_def]
  simp only [h]

/-- A fact about the initial parts of a path, from those behind its first component. -/
theorem forall_prefix_cons {P : List α → Prop} (hnil : P []) (cs : List α) :
    (∀ front, front <+: c :: cs → P front) ↔ ∀ front, front <+: cs → P (c :: front) := by
  constructor
  · intro h front hfront
    exact h _ (List.cons_prefix_cons.mpr ⟨rfl, hfront⟩)
  · intro h front hfront
    rcases List.prefix_cons_iff.mp hfront with rfl | ⟨rest, rfl, hrest⟩
    · exact hnil
    · exact h rest hrest

end Components

/-- **A path stays inside** when each of its initial parts leaves no more directories than it has
entered, those that lead to its start included. -/
theorem resolve_isSome_iff (step : α → Step) (place cs : List α) :
    (resolve step place cs).isSome = true ↔
      ∀ front, front <+: cs → left step front ≤ place.length + entered step front := by
  induction cs generalizing place with
  | nil =>
    simp only [resolve, Option.isSome_some, List.prefix_nil, true_iff]
    rintro front rfl
    exact Nat.zero_le _
  | cons c cs ih =>
    have hnil : left step [] ≤ place.length + entered step [] := Nat.zero_le _
    rw [forall_prefix_cons (P := fun front => left step front ≤ place.length + entered step front)
      hnil]
    cases hstep : step c with
    | stay =>
      rw [resolve_stay hstep, ih]
      refine forall_congr' fun front => imp_congr_right fun _ => ?_
      rw [(counts_stay hstep front).1, (counts_stay hstep front).2]
    | enter =>
      rw [resolve_enter hstep, ih, List.length_cons]
      refine forall_congr' fun front => imp_congr_right fun _ => ?_
      rw [(counts_enter hstep front).1, (counts_enter hstep front).2]
      omega
    | leave =>
      cases place with
      | nil =>
        -- the component alone leaves the root
        rw [resolve_leave_root hstep]
        simp only [Option.isSome_none, Bool.false_eq_true, false_iff, not_forall]
        refine ⟨[], List.nil_prefix, ?_⟩
        rw [(counts_leave hstep []).1, (counts_leave hstep []).2]
        simp [entered]
      | cons d above =>
        rw [resolve_leave hstep, ih, List.length_cons]
        refine forall_congr' fun front => imp_congr_right fun _ => ?_
        rw [(counts_leave hstep front).1, (counts_leave hstep front).2]
        omega

/-! ## Comparison -/

/-- Where two paths differ first: what is left of each. The second one is read on until the first
one ends; `none` when it was read behind its end. -/
def mismatch [DecidableEq α] : List α → List α → Option (List α × List α)
  | [], ys => some ([], ys)
  | _ :: _, [] => none
  | x :: xs, y :: ys => if x = y then mismatch xs ys else some (x :: xs, y :: ys)

section Mismatch

variable [DecidableEq α] {xs ys rest : List α}

/-- **It reads behind the end** of a path that leads to the other. -/
theorem mismatch_eq_none_iff : mismatch xs ys = none ↔ ys <+: xs ∧ ys ≠ xs := by
  induction xs generalizing ys with
  | nil =>
    simp only [mismatch, reduceCtorEq, List.prefix_nil, false_iff, not_and, not_not]
    exact fun h => h
  | cons x xs ih =>
    cases ys with
    | nil => simp [mismatch]
    | cons y ys =>
      rw [mismatch, List.cons_prefix_cons]
      by_cases hxy : x = y
      · rw [if_pos hxy, ih]
        simp [hxy]
      · rw [if_neg hxy]
        simp [Ne.symm hxy]

/-- If the first list is used up, it is a front part of the second. -/
theorem mismatch_eq_some_nil (h : mismatch xs ys = some ([], rest)) : ys = xs ++ rest := by
  induction xs generalizing ys with
  | nil =>
    rw [mismatch, Option.some.injEq, Prod.mk.injEq] at h
    exact h.2
  | cons x xs ih =>
    cases ys with
    | nil => simp [mismatch] at h
    | cons y ys =>
      rw [mismatch] at h
      split at h
      · rename_i hxy
        rw [ih h, hxy, List.cons_append]
      · simp at h

/-- And a front part is used up. -/
theorem mismatch_append (xs rest : List α) : mismatch xs (xs ++ rest) = some ([], rest) := by
  induction xs with
  | nil => rfl
  | cons x xs ih => rw [List.cons_append, mismatch, if_pos rfl, ih]

end Mismatch

end LexicalPath
