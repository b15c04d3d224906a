import Mathlib.Logic.Function.Basic
import Swayam.Lib.Machine

/-!
# Interleaved processes

Processes with a local state each, over one shared state. A process moves by a
partial function `move` of the shared state and its own local state; an action
of the scheduler is a process and a choice of the environment for it.

An invariant of such a system is best kept as one assertion for each local
state (`Ok`), next to a fact about the shared state alone (`Glob`). The rule
is `Sound.step`: the moving process proves its own next assertion and says
what it guarantees to the others (`Guar`), and every assertion is stable under
what another process guarantees.
-/

namespace Interleaving

/-- The shared state, and the local state of every process. -/
structure Config (μ ι π : Type*) where
  shared : μ
  proc   : ι → π

variable {μ ι π α : Type*} [DecidableEq ι]

/-- One process moves, the others keep their local states. -/
def step (move : μ → ι → π → α → Option (μ × π)) (s : Config μ ι π) (a : ι × α) :
    Option (Config μ ι π) :=
  (move s.shared a.1 (s.proc a.1) a.2).map fun r => ⟨r.1, Function.update s.proc a.1 r.2⟩

section Rules

variable {move : μ → ι → π → α → Option (μ × π)} {s s' : Config μ ι π}

/-- A step is a move of one process on the shared state. -/
theorem step_eq_some {p : ι} {a : α} : step move s (p, a) = some s' ↔
    ∃ m l, move s.shared p (s.proc p) a = some (m, l) ∧
      s' = ⟨m, Function.update s.proc p l⟩ := by
  unfold step
  rw [Option.map_eq_some_iff]
  constructor
  · rintro ⟨⟨m, l⟩, hmove, rfl⟩
    exact ⟨m, l, hmove, rfl⟩
  · rintro ⟨m, l, hmove, rfl⟩
    exact ⟨(m, l), hmove, rfl⟩

/-- A fact about every process survives a step that it survives for the process that
moved and for each of the others. -/
theorem forall_update {P : ι → π → Prop} {p : ι} {l : π} {proc : ι → π} (hown : P p l)
    (hothers : ∀ q, q ≠ p → P q (proc q)) (q : ι) : P q (Function.update proc p l q) := by
  rcases eq_or_ne q p with rfl | hne
  · rw [Function.update_self]
    exact hown
  · rw [Function.update_of_ne hne]
    exact hothers q hne

/-- The shared fact holds, and every process meets its assertion. -/
def Holds (Glob : μ → Prop) (Ok : μ → ι → π → Prop) (s : Config μ ι π) : Prop :=
  Glob s.shared ∧ ∀ p, Ok s.shared p (s.proc p)

/-- The two obligations: a move keeps the shared fact, establishes the mover's next
assertion and keeps its guarantee; what a process guarantees leaves the assertions
of the others true. -/
structure Sound (move : μ → ι → π → α → Option (μ × π)) (Glob : μ → Prop)
    (Ok : μ → ι → π → Prop) (Guar : ι → μ → μ → Prop) : Prop where
  own    : ∀ {m m' : μ} {p : ι} {l l' : π} {a : α}, Glob m → Ok m p l →
    move m p l a = some (m', l') → Glob m' ∧ Ok m' p l' ∧ Guar p m m'
  stable : ∀ {m m' : μ} {p q : ι} {l : π}, Glob m → q ≠ p → Guar p m m' → Ok m q l →
    Ok m' q l

/-- **Rely–guarantee.** The assertions of a sound system are an invariant of its steps. -/
theorem Sound.step {Glob : μ → Prop} {Ok : μ → ι → π → Prop} {Guar : ι → μ → μ → Prop}
    (hsound : Sound move Glob Ok Guar) (a : ι × α) (h : Holds Glob Ok s)
    (hs : Interleaving.step move s a = some s') : Holds Glob Ok s' := by
  obtain ⟨p, a⟩ := a
  obtain ⟨m, l, hmove, rfl⟩ := step_eq_some.mp hs
  obtain ⟨hglob, hown, hguar⟩ := hsound.own h.1 (h.2 p) hmove
  -- the mover has its own assertion, the others rely on its guarantee
  refine ⟨hglob, forall_update hown ?_⟩
  intro q hne
  exact hsound.stable h.1 hne hguar (h.2 q)

end Rules

end Interleaving
