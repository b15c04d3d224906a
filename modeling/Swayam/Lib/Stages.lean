/-!
# Programs that stop at their first obstacle

Programs with a state and faults (`EStateM`) that go through a list of stages:
each stage passes, stops the program, or raises a fault. The effects made
before a fault stay.

* `call` and `change` — the two kinds of steps: a call with a given answer, and
  an effect that cannot fail;
* `Within` — a program changes the state within a relation `R`, fault or not;
* `Gate` and `firstObstacle` — the stages, as the environment decides them;
* `Meets` — a program does what its first obstacle says, behind a change of the
  state within `R`; `Answers` and `Returns` are the same for its parts.
-/

namespace Stages

variable {ε σ α β γ δ : Type}

/-- A call with this answer. -/
def call (answer : Except ε α) : EStateM ε σ α := fun s =>
  match answer with
  | .ok a => .ok a s
  | .error e => .error e s

/-- An effect that cannot fail. -/
def change (f : σ → σ) : EStateM ε σ Unit := fun s => .ok () (f s)

/-- How a sequence runs: -/
theorem bind_run (x : EStateM ε σ α) (f : α → EStateM ε σ β) (s : σ) : (x >>= f) s =
    match x s with
    | .ok a s' => f a s'
    | .error e s' => .error e s' := by
  show EStateM.bind x f s = _
  unfold EStateM.bind
  cases x s <;> rfl

/-- on from where its first part returns, -/
theorem bind_run_ok {x : EStateM ε σ α} {s s' : σ} {a : α} (h : x s = .ok a s')
    (f : α → EStateM ε σ β) : (x >>= f) s = f a s' := by
  rw [bind_run, h]

/-- and no further where that fails. -/
theorem bind_run_error {x : EStateM ε σ α} {s s' : σ} {e : ε} (h : x s = .error e s')
    (f : α → EStateM ε σ β) : (x >>= f) s = .error e s' := by
  rw [bind_run, h]

/-! ## Effects -/

/-- The state that a run ends in, with or without a fault. -/
def endState : EStateM.Result ε σ α → σ
  | .ok _ s => s
  | .error _ s => s

/-- Every run of the program changes the state within `R`. -/
def Within (R : σ → σ → Prop) (x : EStateM ε σ α) : Prop := ∀ s, R s (endState (x s))

section Effects

variable {R : σ → σ → Prop}

theorem within_pure (hrefl : ∀ s, R s s) (a : α) : Within R (pure a : EStateM ε σ α) :=
  fun s => hrefl s

/-- A change stays within its relation, -/
theorem within_change {f : σ → σ} (hf : ∀ s, R s (f s)) :
    Within R (change f : EStateM ε σ Unit) :=
  fun s => hf s

/-- A call, and what follows it when it returns. -/
theorem within_call (hrefl : ∀ s, R s s) {answer : Except ε α} {k : α → EStateM ε σ β}
    (h : ∀ a, answer = .ok a → Within R (k a)) : Within R (call answer >>= k) := by
  cases answer with
  | error e => exact fun s => hrefl s
  | ok a => exact h a rfl

/-- and so does a sequence. -/
theorem within_bind (htrans : ∀ a b c, R a b → R b c → R a c) {x : EStateM ε σ α}
    {k : α → EStateM ε σ β} (hx : Within R x) (hk : ∀ a, Within R (k a)) :
    Within R (x >>= k) := by
  intro s
  have hs := hx s
  rw [bind_run]
  cases hrun : x s with
  | ok a s' =>
    rw [hrun] at hs
    exact htrans _ _ _ hs (hk a s')
  | error e s' =>
    rw [hrun] at hs
    exact hs

end Effects

/-! ## Gates -/

/-- What the environment makes of a stage. -/
inductive Gate (ε : Type)
  | pass
  | stop
  | fault (e : ε)
  deriving DecidableEq, Repr

/-- The first stage that does not pass decides. -/
def firstObstacle : List (Gate ε) → Gate ε
  | [] => .pass
  | .pass :: gates => firstObstacle gates
  | .stop :: _ => .stop
  | .fault e :: _ => .fault e

/-- The gate of a call that goes on whatever it returns. -/
def returns (answer : Except ε α) : Gate ε :=
  match answer with
  | .ok _ => .pass
  | .error e => .fault e

/-- The gate of a call that has to return true. -/
def succeeds (answer : Except ε Bool) : Gate ε :=
  match answer with
  | .ok true => .pass
  | .ok false => .stop
  | .error e => .fault e

/-- The gate of a call whose result decides what follows. -/
def decides (answer : Except ε β) (gateOf : β → Gate ε) : Gate ε :=
  match answer with
  | .ok b => gateOf b
  | .error e => .fault e

/-- The gate of a test. -/
def holds (b : Bool) : Gate ε := if b then .pass else .stop

@[simp] theorem firstObstacle_singleton (gate : Gate ε) : firstObstacle [gate] = gate := by
  cases gate <;> rfl

/-- The program, from any state: behind an effect within `R`, it is one of the programs of
`onPass` when the gate passes, one of those of `onStop` when it stops, and the fault
otherwise. -/
def Meets (R : σ → σ → Prop) (onPass onStop : EStateM ε σ α → Prop) (x : EStateM ε σ α)
    (gate : Gate ε) : Prop :=
  ∀ s, ∃ s', R s s' ∧
    match gate with
    | .pass => ∃ y, onPass y ∧ x s = y s'
    | .stop => ∃ y, onStop y ∧ x s = y s'
    | .fault e => x s = .error e s'

/-- A program that answers with a boolean: true when it passes, false when it stops. -/
def Answers (R : σ → σ → Prop) (x : EStateM ε σ Bool) (gate : Gate ε) : Prop :=
  Meets R (· = pure true) (· = pure false) x gate

/-- A program that returns, behind an effect within `R`, unless its call raises a fault. -/
def Returns (R : σ → σ → Prop) (x : EStateM ε σ β) (answer : Except ε α) : Prop :=
  ∀ s, ∃ s', R s s' ∧
    match answer with
    | .ok _ => ∃ b, x s = .ok b s'
    | .error e => x s = .error e s'

/-! ## Stage by stage -/

section Rules

variable {R : σ → σ → Prop} {x : EStateM ε σ α} {onPass onStop : EStateM ε σ α → Prop}
  {gate : Gate ε} {gates : List (Gate ε)}

theorem meets_pass (hrefl : ∀ s, R s s) (hpass : onPass x) : Meets R onPass onStop x .pass :=
  fun s => ⟨s, hrefl s, x, hpass, rfl⟩

theorem meets_stop (hrefl : ∀ s, R s s) (hstop : onStop x) : Meets R onPass onStop x .stop :=
  fun s => ⟨s, hrefl s, x, hstop, rfl⟩

theorem meets_fault (hrefl : ∀ s, R s s) (e : ε) (k : β → EStateM ε σ α) :
    Meets R onPass onStop (call (.error e) >>= k) (.fault e) :=
  fun s => ⟨s, hrefl s, rfl⟩

/-- An effect within `R` in front. -/
theorem meets_change (htrans : ∀ a b c, R a b → R b c → R a c) {f : σ → σ}
    (hf : ∀ s, R s (f s)) (h : Meets R onPass onStop x gate) :
    Meets R onPass onStop (change f >>= fun _ => x) gate := by
  intro s
  obtain ⟨s', hs', hx⟩ := h (f s)
  exact ⟨s', htrans _ _ _ (hf s) hs', hx⟩

/-- A call that goes on whatever it returns. -/
theorem meets_returns (hrefl : ∀ s, R s s) {answer : Except ε β} {k : β → EStateM ε σ α}
    (h : ∀ b, answer = .ok b → Meets R onPass onStop (k b) (firstObstacle gates)) :
    Meets R onPass onStop (call answer >>= k) (firstObstacle (returns answer :: gates)) := by
  cases answer with
  | error e => exact meets_fault hrefl e k
  | ok b => exact h b rfl

/-- A call whose result decides what follows. -/
theorem meets_decides (hrefl : ∀ s, R s s) {answer : Except ε β} {k : β → EStateM ε σ α}
    {gateOf : β → Gate ε} (h : ∀ b, answer = .ok b → Meets R onPass onStop (k b) (gateOf b)) :
    Meets R onPass onStop (call answer >>= k) (decides answer gateOf) := by
  cases answer with
  | error e => exact meets_fault hrefl e k
  | ok b => exact h b rfl

/-- A call that has to return true. -/
theorem meets_succeeds (hrefl : ∀ s, R s s) {answer : Except ε Bool}
    {k : Bool → EStateM ε σ α} (hfalse : Meets R onPass onStop (k false) .stop)
    (h : Meets R onPass onStop (k true) (firstObstacle gates)) :
    Meets R onPass onStop (call answer >>= k) (firstObstacle (succeeds answer :: gates)) := by
  cases answer with
  | error e => exact meets_fault hrefl e k
  | ok b =>
    cases b with
    | false => exact hfalse
    | true => exact h

/-- A test. -/
theorem meets_holds {b : Bool} (hfalse : b = false → Meets R onPass onStop x .stop)
    (h : b = true → Meets R onPass onStop x (firstObstacle gates)) :
    Meets R onPass onStop x (firstObstacle (holds b :: gates)) := by
  cases b with
  | false => exact hfalse rfl
  | true => exact h rfl

/-- A part of the program that answers with a boolean. -/
theorem meets_answers (htrans : ∀ a b c, R a b → R b c → R a c) {part : EStateM ε σ Bool}
    {k : Bool → EStateM ε σ α} (hpart : Answers R part gate)
    (hfalse : Meets R onPass onStop (k false) .stop)
    (h : Meets R onPass onStop (k true) (firstObstacle gates)) :
    Meets R onPass onStop (part >>= k) (firstObstacle (gate :: gates)) := by
  intro s
  obtain ⟨s₁, hs₁, hpart⟩ := hpart s
  cases gate with
  | pass =>
    obtain ⟨_, rfl, hy⟩ := hpart
    -- the part passes, and the rest decides
    have hrun : (part >>= k) s = k true s₁ := bind_run_ok hy k
    obtain ⟨s', hs', hk⟩ := h s₁
    refine ⟨s', htrans _ _ _ hs₁ hs', ?_⟩
    rw [hrun]
    exact hk
  | stop =>
    obtain ⟨_, rfl, hy⟩ := hpart
    -- the part stops, and the rest stops with it
    have hrun : (part >>= k) s = k false s₁ := bind_run_ok hy k
    obtain ⟨s', hs', hk⟩ := hfalse s₁
    refine ⟨s', htrans _ _ _ hs₁ hs', ?_⟩
    rw [hrun]
    exact hk
  | fault e => exact ⟨s₁, hs₁, bind_run_error hpart k⟩

/-- A part of the program that goes on whatever it returns. -/
theorem meets_part (htrans : ∀ a b c, R a b → R b c → R a c) {answer : Except ε γ}
    {part : EStateM ε σ β} {k : β → EStateM ε σ α} (hpart : Returns R part answer)
    (h : ∀ b, Meets R onPass onStop (k b) (firstObstacle gates)) :
    Meets R onPass onStop (part >>= k) (firstObstacle (returns answer :: gates)) := by
  intro s
  obtain ⟨s₁, hs₁, hpart⟩ := hpart s
  cases answer with
  | ok c =>
    obtain ⟨b, hb⟩ := hpart
    have hrun : (part >>= k) s = k b s₁ := bind_run_ok hb k
    obtain ⟨s', hs', hk⟩ := h b s₁
    refine ⟨s', htrans _ _ _ hs₁ hs', ?_⟩
    rw [hrun]
    exact hk
  | error e => exact ⟨s₁, hs₁, bind_run_error hpart k⟩

/-- A call, and an effect that cannot fail. -/
theorem returns_call (hrefl : ∀ s, R s s) {answer : Except ε α} {k : α → EStateM ε σ β}
    (hk : ∀ a s, ∃ b s', R s s' ∧ k a s = .ok b s') : Returns R (call answer >>= k) answer := by
  intro s
  cases answer with
  | ok a =>
    obtain ⟨b, s', hs', hb⟩ := hk a s
    exact ⟨s', hs', b, hb⟩
  | error e => exact ⟨s, hrefl s, rfl⟩

theorem returns_pure (hrefl : ∀ s, R s s) (b : β) (c : γ) :
    Returns R (pure b : EStateM ε σ β) (.ok c : Except ε γ) :=
  fun s => ⟨s, hrefl s, b, rfl⟩

/-- Two parts that go on whatever they return. -/
theorem returns_bind (htrans : ∀ a b c, R a b → R b c → R a c) {answer : Except ε γ}
    {answer' : Except ε δ} {part : EStateM ε σ β} {k : β → EStateM ε σ α}
    (hpart : Returns R part answer) (hk : ∀ b, Returns R (k b) answer') :
    Returns R (part >>= k) (answer >>= fun _ => answer') := by
  intro s
  obtain ⟨s₁, hs₁, hpart⟩ := hpart s
  cases answer with
  | ok c =>
    obtain ⟨b, hb⟩ := hpart
    have hrun : (part >>= k) s = k b s₁ := bind_run_ok hb k
    obtain ⟨s', hs', hk⟩ := hk b s₁
    refine ⟨s', htrans _ _ _ hs₁ hs', ?_⟩
    rw [hrun]
    exact hk
  | error e => exact ⟨s₁, hs₁, bind_run_error hpart k⟩

end Rules

end Stages
