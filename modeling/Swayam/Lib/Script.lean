import Mathlib.Data.List.Basic

/-!
# Scripts that may be cut short

A script is a row of commands, each with the answer that it will get. A fault ends
the script, and so does a failure of a command that has to succeed. The process that
runs it may also be killed at any moment, and between two commands others may act:
every command finds an environment of its own.

* `ran` — the commands that run, and whether each of them succeeded; `completes` — all do
  that have to;
* `Always` — from a state of `P`, every state behind some of them is one of `I`;
* `always_nil`, `always_must`, `always_any` — the rules, command by command.
-/

namespace Script

variable {α ε σ ω : Type}

structure Command (α ε : Type) where
  args   : α
  answer : Except ε Bool
  must   : Bool            -- it has to succeed

/-- The commands that run, and whether they succeed. -/
def ran : List (Command α ε) → List (α × Bool)
  | [] => []
  | c :: cs =>
    match c.answer with
    | .error _ => []
    | .ok ok => (c.args, ok) :: if c.must && !ok then [] else ran cs

/-- Every command runs, and those succeed that have to. -/
def completes : List (Command α ε) → Bool
  | [] => true
  | c :: cs =>
    match c.answer with
    | .error _ => false
    | .ok ok => if c.must && !ok then false else completes cs

/-- Wherever the script is cut, and whatever its commands find, it leads from `P` to `I`. -/
def Always (effect : σ → (α × Bool) × ω → σ) (P I : σ → Prop) (cs : List (Command α ε)) : Prop :=
  ∀ fs : List ((α × Bool) × ω), fs.map Prod.fst <+: ran cs → ∀ s, P s → I (fs.foldl effect s)

/-- What stands behind a script runs when the script completes. -/
theorem ran_append (cs ds : List (Command α ε)) :
    ran (cs ++ ds) = ran cs ++ if completes cs then ran ds else [] := by
  induction cs with
  | nil => rfl
  | cons c cs ih =>
    rw [List.cons_append, ran, ran, completes, ih]
    cases c.answer with
    | error e => rfl
    | ok ok =>
      dsimp only
      split
      · rfl
      · rw [List.cons_append]

/-- What runs is of the script. -/
theorem args_mem_of_mem_ran {cs : List (Command α ε)} {f : α × Bool} (h : f ∈ ran cs) :
    ∃ c ∈ cs, c.args = f.1 := by
  induction cs with
  | nil => exact absurd h List.not_mem_nil
  | cons c cs ih =>
    unfold ran at h
    split at h
    · exact absurd h List.not_mem_nil
    · rcases List.mem_cons.mp h with rfl | hrest
      · exact ⟨c, List.mem_cons_self, rfl⟩
      · split at hrest
        · exact absurd hrest List.not_mem_nil
        · obtain ⟨d, hd, hargs⟩ := ih hrest
          exact ⟨d, List.mem_cons_of_mem c hd, hargs⟩

section Rules

variable {effect : σ → (α × Bool) × ω → σ} {P Q I : σ → Prop} {c : Command α ε}
  {cs : List (Command α ε)}

theorem always_nil (h : ∀ s, P s → I s) : Always effect P I ([] : List (Command α ε)) := by
  intro fs hfs s hs
  rw [ran, List.prefix_nil, List.map_eq_nil_iff] at hfs
  subst hfs
  exact h s hs

/-- Of a script that runs on, either nothing has run or its first command has. -/
theorem cut_cons {fs : List ((α × Bool) × ω)} (h : fs.map Prod.fst <+: ran (c :: cs)) :
    fs = [] ∨ ∃ ok found rest, c.answer = .ok ok ∧ fs = ((c.args, ok), found) :: rest ∧
      rest.map Prod.fst <+: if c.must && !ok then [] else ran cs := by
  cases fs with
  | nil => exact Or.inl rfl
  | cons f rest =>
    right
    unfold ran at h
    split at h
    · rw [List.map_cons, List.prefix_nil] at h
      exact absurd h (List.cons_ne_nil _ _)
    · rename_i ok hok
      rw [List.map_cons, List.cons_prefix_cons] at h
      obtain ⟨hf, hrest⟩ := h
      exact ⟨ok, f.2, rest, hok, by rw [← hf], hrest⟩

/-- A command that has to succeed: behind a failure nothing runs. -/
theorem always_must (hmust : c.must = true) (h : ∀ s, P s → I s)
    (hfails : ∀ s found, P s → I (effect s ((c.args, false), found)))
    (hdone : ∀ s found, P s → Q (effect s ((c.args, true), found)))
    (hrest : Always effect Q I cs) : Always effect P I (c :: cs) := by
  intro fs hfs s hs
  rcases cut_cons hfs with rfl | ⟨ok, found, rest, -, rfl, hcut⟩
  · exact h s hs
  · cases ok with
    | false =>
      rw [hmust] at hcut
      obtain rfl := List.map_eq_nil_iff.mp (List.prefix_nil.mp hcut)
      exact hfails s found hs
    | true =>
      rw [hmust] at hcut
      exact hrest rest hcut _ (hdone s found hs)

/-- A command whose success is not looked at. -/
theorem always_any (hany : c.must = false) (h : ∀ s, P s → I s)
    (hdone : ∀ s ok found, P s → Q (effect s ((c.args, ok), found)))
    (hrest : Always effect Q I cs) : Always effect P I (c :: cs) := by
  intro fs hfs s hs
  rcases cut_cons hfs with rfl | ⟨ok, found, rest, -, rfl, hcut⟩
  · exact h s hs
  · rw [hany] at hcut
    exact hrest rest hcut _ (hdone s ok found hs)

end Rules

/-- **Scripts in a row**, each of which may be cut short: an invariant of every one of them is one
of all. -/
theorem always_row {effect : σ → (α × Bool) × ω → σ} {I : σ → Prop} {β : Type}
    {script : β → List (Command α ε)} (h : ∀ b, Always effect I I (script b))
    (row : List (β × List ((α × Bool) × ω)))
    (hcut : ∀ x ∈ row, x.2.map Prod.fst <+: ran (script x.1)) {s : σ} (hs : I s) :
    I ((row.flatMap Prod.snd).foldl effect s) := by
  induction row generalizing s with
  | nil => exact hs
  | cons x row ih =>
    rw [List.flatMap_cons, List.foldl_append]
    refine ih (fun y hy => hcut y (List.mem_cons_of_mem x hy)) ?_
    exact h x.1 x.2 (hcut x List.mem_cons_self) s hs

end Script
