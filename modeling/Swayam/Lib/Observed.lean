import Swayam.Lib.Stages

/-!
# Observed programs

A program over a part of the state, with an observer beside it: the observer sees what the
program has changed, and has a state of its own, which further effects may change.

* `lift` — the program, observed;
* `Refines` — without the observer, the one program is the other;
* `endState_lift`, `Refines.endState_fst` — the two parts of the state that a run ends in.
-/

namespace Observed

open Stages

variable {ε σ τ α β : Type}

/-- The program on the first part of the state, observed when it ends. -/
def lift (observe : σ → σ → τ → τ) (x : EStateM ε σ α) : EStateM ε (σ × τ) α := fun s =>
  match x s.1 with
  | .ok a w => .ok a (w, observe s.1 w s.2)
  | .error e w => .error e (w, observe s.1 w s.2)

/-- An effect on the observer, with an answer. -/
def onObserver (f : τ → β × τ) : EStateM ε (σ × τ) β := fun s => .ok (f s.2).1 (s.1, (f s.2).2)

/-- A result without the observer. -/
def forget : EStateM.Result ε (σ × τ) α → EStateM.Result ε σ α
  | .ok a s => .ok a s.1
  | .error e s => .error e s.1

/-- Without the observer, the one program is the other. -/
def Refines (x : EStateM ε (σ × τ) α) (y : EStateM ε σ α) : Prop := ∀ s, forget (x s) = y s.1

section Rules

variable {observe : σ → σ → τ → τ} {x : EStateM ε (σ × τ) α} {y : EStateM ε σ α}

/-- Observing refines nothing away. -/
theorem refines_lift (y : EStateM ε σ α) : Refines (lift observe y) y := by
  intro s
  unfold lift
  cases y s.1 <;> rfl

/-- Refinement goes through sequencing, -/
theorem refines_bind {k : α → EStateM ε (σ × τ) β} {l : α → EStateM ε σ β} (hx : Refines x y)
    (hk : ∀ a, Refines (k a) (l a)) : Refines (x >>= k) (y >>= l) := by
  intro s
  have hrun := hx s
  rw [bind_run, bind_run, ← hrun]
  cases x s with
  | ok a s' => exact hk a s'
  | error e s' => rfl

/-- and through a call. -/
theorem refines_call {answer : Except ε α} {k : α → EStateM ε (σ × τ) β} {l : α → EStateM ε σ β}
    (hk : ∀ a, Refines (k a) (l a)) : Refines (call answer >>= k) (call answer >>= l) := by
  refine refines_bind (fun s => ?_) hk
  cases answer <;> rfl

/-- The other program does not see an effect on the observer. -/
theorem refines_onObserver {f : τ → β × τ} {k : β → EStateM ε (σ × τ) α}
    (hk : ∀ b, Refines (k b) y) : Refines (onObserver f >>= k) y := fun _ => hk _ _

/-- The observer sees the state an action ends in. -/
theorem endState_lift (y : EStateM ε σ α) (s : σ × τ) : endState (lift observe y s) =
    (endState (y s.1), observe s.1 (endState (y s.1)) s.2) := by
  unfold lift
  cases y s.1 <;> rfl

/-- And leaves that state as it is. -/
theorem Refines.endState_fst (h : Refines x y) (s : σ × τ) :
    (endState (x s)).1 = endState (y s.1) := by
  rw [← h s]
  cases x s <;> rfl

end Rules

end Observed
