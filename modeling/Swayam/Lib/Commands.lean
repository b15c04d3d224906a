import Mathlib.Data.List.Basic
import Mathlib.Logic.Function.Basic

/-!
# Commands

Assignments, branches and counted loops over a store, for any variables, values and
operators.

* `eval_congr` — the value of an expression depends on the variables it reads;
* `exec_frame` — a command keeps what it does not write;
* `exec_congr` — what a command assigns before it reads it does not depend on the rest of
  the store.
-/

namespace Commands

/-- What the operators mean, and which values count as true. -/
structure Meaning (op α : Type*) where
  apply : op → α → α → α
  truth : α → Bool

inductive Expr (ν op α : Type*)
  | const (v : α)
  | var (x : ν)
  | bin (o : op) (a b : Expr ν op α)

inductive Cmd (ν op α : Type*)
  | assign (x : ν) (e : Expr ν op α)
  | seq (a b : Cmd ν op α)
  | branch (c : Expr ν op α) (a b : Cmd ν op α)
  | skip
  /-- the body once for each value of a variable of the loop -/
  | loop (i : ν) (values : List α) (body : Cmd ν op α)

variable {ν op α : Type*}

/-! ## Expressions -/

def Expr.eval (m : Meaning op α) (s : ν → α) : Expr ν op α → α
  | .const v => v
  | .var x => s x
  | .bin o a b => m.apply o (a.eval m s) (b.eval m s)

def Expr.reads : Expr ν op α → List ν
  | .const _ => []
  | .var x => [x]
  | .bin _ a b => a.reads ++ b.reads

/-- An expression depends on the variables it reads. -/
theorem eval_congr (m : Meaning op α) {s t : ν → α} {e : Expr ν op α}
    (h : ∀ x ∈ e.reads, s x = t x) : e.eval m s = e.eval m t := by
  induction e with
  | const v => rfl
  | var x => exact h x List.mem_cons_self
  | bin o a b iha ihb =>
    have ha := iha fun x hx => h x (List.mem_append_left _ hx)
    have hb := ihb fun x hx => h x (List.mem_append_right _ hx)
    rw [Expr.eval, Expr.eval, ha, hb]

/-! ## Commands -/

variable [DecidableEq ν]

def Cmd.exec (m : Meaning op α) : Cmd ν op α → (ν → α) → ν → α
  | .assign x e, s => Function.update s x (e.eval m s)
  | .seq a b, s => b.exec m (a.exec m s)
  | .branch c a b, s => if m.truth (c.eval m s) then a.exec m s else b.exec m s
  | .skip, s => s
  | .loop i values body, s =>
    -- the variable of the loop ends with it
    Function.update (values.foldl (fun s v => body.exec m (Function.update s i v)) s) i (s i)

/-- What a command may change. -/
def Cmd.writes : Cmd ν op α → List ν
  | .assign x _ => [x]
  | .seq a b => a.writes ++ b.writes
  | .branch _ a b => a.writes ++ b.writes
  | .skip => []
  | .loop i _ body => body.writes.filter (· ≠ i)

/-- **A command keeps what it does not write.** -/
theorem exec_frame (m : Meaning op α) {c : Cmd ν op α} {x : ν} (h : x ∉ c.writes)
    (s : ν → α) : c.exec m s x = s x := by
  induction c generalizing s with
  | assign y e =>
    have hne : x ≠ y := fun heq => h (List.mem_singleton.mpr heq)
    exact Function.update_of_ne hne ..
  | seq a b iha ihb =>
    rw [Cmd.writes, List.mem_append, not_or] at h
    rw [Cmd.exec, ihb h.2, iha h.1]
  | branch c a b iha ihb =>
    rw [Cmd.writes, List.mem_append, not_or] at h
    rw [Cmd.exec]
    split
    · exact iha h.1 s
    · exact ihb h.2 s
  | skip => rfl
  | loop i values body ih =>
    rw [Cmd.exec]
    by_cases hi : x = i
    · rw [hi, Function.update_self]
    · have hbody : x ∉ body.writes := fun hx =>
        h (List.mem_filter.mpr ⟨hx, decide_eq_true hi⟩)
      rw [Function.update_of_ne hi]
      clear h
      -- one turn after the other
      induction values generalizing s with
      | nil => rfl
      | cons v values ihv => rw [List.foldl_cons, ihv, ih hbody, Function.update_of_ne hi]

/-- Every variable is assigned before it is read, when those in `known` are; the result is what
is assigned then. -/
def Cmd.defines : Cmd ν op α → List ν → Option (List ν)
  | .assign x e, known => if e.reads ⊆ known then some (x :: known) else none
  | .seq a b, known => (a.defines known).bind b.defines
  | .branch c a b, known =>
    if c.reads ⊆ known ∧ (a.defines known).isSome = true ∧ (b.defines known).isSome = true then
      some known
    else none
  | .skip, known => some known
  | .loop i _ body, known => if (body.defines (i :: known)).isSome = true then some known else none

/-- What is defined stays defined. -/
theorem subset_of_defines {c : Cmd ν op α} {known known' : List ν}
    (h : c.defines known = some known') : known ⊆ known' := by
  induction c generalizing known known' with
  | assign x e =>
    rw [Cmd.defines, Option.ite_none_right_eq_some] at h
    rw [← Option.some.inj h.2]
    exact List.subset_cons_self x known
  | seq a b iha ihb =>
    rw [Cmd.defines, Option.bind_eq_some_iff] at h
    obtain ⟨middle, ha, hb⟩ := h
    exact List.Subset.trans (iha ha) (ihb hb)
  | branch c a b =>
    rw [Cmd.defines, Option.ite_none_right_eq_some] at h
    rw [Option.some.inj h.2]
    exact List.Subset.refl _
  | skip =>
    rw [Option.some.inj h]
    exact List.Subset.refl _
  | loop i values body =>
    rw [Cmd.defines, Option.ite_none_right_eq_some] at h
    rw [Option.some.inj h.2]
    exact List.Subset.refl _

/-- **What is assigned before it is read does not depend on the rest of the store.** -/
theorem exec_congr (m : Meaning op α) {c : Cmd ν op α} {known known' : List ν}
    (h : c.defines known = some known') {s t : ν → α} (hst : ∀ x ∈ known, s x = t x) :
    ∀ x ∈ known', c.exec m s x = c.exec m t x := by
  induction c generalizing known known' s t with
  | assign y e =>
    rw [Cmd.defines, Option.ite_none_right_eq_some] at h
    rw [← Option.some.inj h.2]
    have heval : e.eval m s = e.eval m t := eval_congr m fun x hx => hst x (h.1 hx)
    intro x hx
    rw [Cmd.exec, Cmd.exec, heval]
    by_cases hxy : x = y
    · rw [hxy, Function.update_self, Function.update_self]
    · rw [Function.update_of_ne hxy, Function.update_of_ne hxy]
      exact hst x ((List.mem_cons.mp hx).resolve_left hxy)
  | seq a b iha ihb =>
    rw [Cmd.defines, Option.bind_eq_some_iff] at h
    obtain ⟨middle, ha, hb⟩ := h
    exact ihb hb (iha ha hst)
  | branch c a b iha ihb =>
    rw [Cmd.defines, Option.ite_none_right_eq_some] at h
    obtain ⟨⟨hreads, ha, hb⟩, hknown⟩ := h
    obtain ⟨ka, ha⟩ := Option.isSome_iff_exists.mp ha
    obtain ⟨kb, hb⟩ := Option.isSome_iff_exists.mp hb
    have heval : c.eval m s = c.eval m t := eval_congr m fun x hx => hst x (hreads hx)
    rw [← Option.some.inj hknown]
    intro x hx
    rw [Cmd.exec, Cmd.exec, heval]
    -- both take the same branch
    split
    · exact iha ha hst x (subset_of_defines ha hx)
    · exact ihb hb hst x (subset_of_defines hb hx)
  | skip =>
    rw [← Option.some.inj h]
    exact hst
  | loop i values body ih =>
    rw [Cmd.defines, Option.ite_none_right_eq_some] at h
    obtain ⟨kb, hb⟩ := Option.isSome_iff_exists.mp h.1
    have hturn : ∀ (v : α) (s t : ν → α), (∀ x ∈ known, x ≠ i → s x = t x) →
        ∀ x ∈ known, x ≠ i →
          body.exec m (Function.update s i v) x = body.exec m (Function.update t i v) x := by
      intro v s t hst x hx _
      refine ih hb (fun y hy => ?_) x (subset_of_defines hb (List.mem_cons_of_mem i hx))
      by_cases hyi : y = i
      · rw [hyi, Function.update_self, Function.update_self]
      · rw [Function.update_of_ne hyi, Function.update_of_ne hyi]
        exact hst y ((List.mem_cons.mp hy).resolve_left hyi) hyi
    rw [← Option.some.inj h.2]
    intro x hx
    rw [Cmd.exec, Cmd.exec]
    by_cases hxi : x = i
    · rw [hxi, Function.update_self, Function.update_self]
      exact hst i (hxi ▸ hx)
    · rw [Function.update_of_ne hxi, Function.update_of_ne hxi]
      have hloop : ∀ (s t : ν → α), (∀ x ∈ known, x ≠ i → s x = t x) →
          ∀ x ∈ known, x ≠ i →
            values.foldl (fun s v => body.exec m (Function.update s i v)) s x =
              values.foldl (fun s v => body.exec m (Function.update s i v)) t x := by
        clear h
        induction values with
        | nil => exact fun s t hst => hst
        | cons v values ihv => exact fun s t hst => ihv _ _ (hturn v s t hst)
      exact hloop s t (fun x hx _ => hst x hx) x hx hxi

end Commands
