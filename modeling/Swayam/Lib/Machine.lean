import Mathlib.Data.List.Induction

/-!
# Scheduled machines

A machine is a partial step function `step : σ → α → Option σ`: an action is
a choice of the scheduler (which process moves, what the environment
answers), and `none` means that the action is not enabled. A run is the
execution of a list of actions (`exec`).

Statements about every run come in three shapes, each with its rule here:

* `exec_induction` — a fact about the run and its last state, by induction on
  the number of steps;
* `exec_invariant` — an invariant of the states, from one step lemma;
* `exec_invariant_of_meets` — the same for the runs whose every step meets a
  condition on the state before it (`StepsMeet`).
-/

namespace Machine

variable {σ α : Type*}

/-- The state a list of actions leads to, when every action is enabled. -/
def exec (step : σ → α → Option σ) (s : σ) (as : List α) : Option σ :=
  as.foldlM step s

/-- Every action of the run meets `ok` in the state it is taken in. -/
def StepsMeet (step : σ → α → Option σ) (ok : σ → α → Prop) (s : σ) (as : List α) : Prop :=
  ∀ pre a post s', as = pre ++ a :: post → exec step s pre = some s' → ok s' a

/-- A step that is enabled under a condition. -/
theorem guarded_eq_some {c : Prop} [Decidable c] {s s' : σ} :
    (if c then some s else none) = some s' ↔ c ∧ s' = s := by
  rw [Option.ite_none_right_eq_some, Option.some.injEq, eq_comm]

section Runs

variable {step : σ → α → Option σ} {ok : σ → α → Prop}

@[simp] theorem exec_nil (s : σ) : exec step s [] = some s := rfl

@[simp] theorem exec_cons (s : σ) (a : α) (as : List α) :
    exec step s (a :: as) = (step s a).bind fun s' => exec step s' as := rfl

theorem exec_append (s : σ) (as bs : List α) :
    exec step s (as ++ bs) = (exec step s as).bind fun s' => exec step s' bs := by
  simp [exec, List.foldlM_append]

/-- Its last step comes last. -/
theorem exec_concat (s : σ) (as : List α) (a : α) :
    exec step s (as ++ [a]) = (exec step s as).bind fun s' => step s' a := by
  rw [exec_append]
  congr 1
  funext s'
  simp

/-- A run of one action more ends in a step of the shorter run's last state. -/
theorem exec_concat_eq_some {s s' : σ} {as : List α} {a : α}
    (h : exec step s (as ++ [a]) = some s') :
    ∃ m, exec step s as = some m ∧ step m a = some s' := by
  rw [exec_concat, Option.bind_eq_some_iff] at h
  exact h

/-- **Induction on runs.** What holds of the empty run, and of each run's
extension by one enabled action, holds of every run and its last state. -/
theorem exec_induction {s₀ : σ} {P : List α → σ → Prop} (hnil : P [] s₀)
    (hstep : ∀ as s a s', exec step s₀ as = some s → P as s → step s a = some s' →
      P (as ++ [a]) s') :
    ∀ as s, exec step s₀ as = some s → P as s := by
  intro as
  induction as using List.reverseRecOn with
  | nil =>
    intro s h
    rw [exec_nil, Option.some.injEq] at h
    exact h ▸ hnil
  | append_singleton as a ih =>
    intro s h
    obtain ⟨m, hm, ha⟩ := exec_concat_eq_some h
    exact hstep as m a s hm (ih m hm) ha

/-- **Invariant rule.** -/
theorem exec_invariant {I : σ → Prop}
    (hstep : ∀ s a s', I s → step s a = some s' → I s')
    {s₀ s : σ} {as : List α} (h₀ : I s₀) (h : exec step s₀ as = some s) : I s :=
  exec_induction (P := fun _ s => I s) h₀ (fun _ s a s' _ hi hs => hstep s a s' hi hs) as s h

/-- The condition restricts to the shorter run, and holds of its last action. -/
theorem stepsMeet_concat {s : σ} {as : List α} {a : α}
    (h : StepsMeet step ok s (as ++ [a])) :
    StepsMeet step ok s as ∧ ∀ m, exec step s as = some m → ok m a := by
  refine ⟨?_, fun m hm => h as a [] m rfl hm⟩
  intro pre b post s' hsplit hpre
  exact h pre b (post ++ [a]) s' (by simp [hsplit]) hpre

/-- **Conditional invariant rule.** An invariant that the steps meeting `ok`
preserve holds at the end of every run whose steps all meet `ok`. -/
theorem exec_invariant_of_meets {I : σ → Prop}
    (hstep : ∀ s a s', I s → ok s a → step s a = some s' → I s')
    {s₀ s : σ} {as : List α} (h₀ : I s₀) (hok : StepsMeet step ok s₀ as)
    (h : exec step s₀ as = some s) : I s := by
  refine exec_induction (P := fun as s => StepsMeet step ok s₀ as → I s)
    (fun _ => h₀) ?_ as s h hok
  intro as s a s' hexec ih hs hmeet
  obtain ⟨hpre, hlast⟩ := stepsMeet_concat hmeet
  exact hstep s a s' (ih hpre) (hlast s hexec) hs

/-- Along a run whose steps meet `ok`, every step meets what the invariant
gives of the state before it. -/
theorem stepsMeet_of_invariant {I : σ → Prop} {ok' : σ → α → Prop}
    (hstep : ∀ s a s', I s → ok s a → step s a = some s' → I s')
    (himp : ∀ s a, I s → ok s a → ok' s a)
    {s₀ : σ} {as : List α} (h₀ : I s₀) (hok : StepsMeet step ok s₀ as) :
    StepsMeet step ok' s₀ as := by
  intro pre a post s hsplit hpre
  refine himp s a (exec_invariant_of_meets hstep h₀ ?_ hpre) (hok pre a post s hsplit hpre)
  intro pre' b post' s' hsplit' hpre'
  exact hok pre' b (post' ++ a :: post) s' (by simp [hsplit, hsplit']) hpre'

end Runs

end Machine
