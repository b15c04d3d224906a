import Mathlib.Algebra.BigOperators.Group.Finset.Basic
import Mathlib.Algebra.Order.BigOperators.Group.Finset
import Swayam.Cas.RateLimit

/-!
# SWAYAM — `cas_commit.sh` makes progress

A PUT is only refused when another run has changed the file since the GET. So a
run that gives up after its sixth attempt has been overtaken by six others, and
of six runs none gives up.

* `run_length_le` — the runs come to an end;
* `served_runs_update` — of at most six runs that are served, every one changes the file;
* `seventh_starves` — and of seven, the last one need not.
-/

namespace Swayam.Cas

open Interleaving Machine

/-! ## The end of a run -/

/-- The steps that a run has left, at most. -/
def Run.left : Run → Nat
  | .getting attempt => 2 * (maxAttempts + 1 - attempt)
  | .putting attempt _ _ => 2 * (maxAttempts + 1 - attempt) - 1
  | .exited _ => 0

/-- No attempt comes after the sixth. -/
def Run.InTime : Run → Prop
  | .getting attempt => attempt ≤ maxAttempts
  | .putting attempt _ _ => attempt ≤ maxAttempts
  | .exited _ => True

section Moves

variable {api : Api} {transform : Nat → Text → Option Text} {sha : Text → Text}
  {m m' : Remote} {r : Nat} {run run' : Run} {act : Act}

/-- Each move uses up some of the time left. -/
theorem inTime_move (hrun : run.InTime) (h : move api transform sha m r run act = some (m', run')) :
    run'.InTime ∧ run'.left < run.left := by
  rcases move_cases h with ⟨attempt, rfl, rfl, hnext⟩ |
    ⟨attempt, requestSha, newContent, applied, status, rfl, -, -, -, rfl⟩
  · have hle : attempt ≤ maxAttempts := hrun
    rcases hnext with rfl | ⟨output, -, rfl⟩
    · refine ⟨trivial, ?_⟩
      show 0 < 2 * (maxAttempts + 1 - attempt)
      omega
    · refine ⟨hle, ?_⟩
      show 2 * (maxAttempts + 1 - attempt) - 1 < 2 * (maxAttempts + 1 - attempt)
      omega
  · have hle : attempt ≤ maxAttempts := hrun
    have hlast : 0 < 2 * (maxAttempts + 1 - attempt) - 1 := by omega
    unfold afterPut afterStatus
    split
    · exact ⟨trivial, hlast⟩
    · split
      · rename_i hmore
        refine ⟨Nat.succ_le_of_lt hmore, ?_⟩
        show 2 * (maxAttempts + 1 - (attempt + 1)) < 2 * (maxAttempts + 1 - attempt) - 1
        omega
      · exact ⟨trivial, hlast⟩

end Moves

/-- **The runs come to an end**: whatever the API answers, the runs of a set take twelve
steps each, at most. -/
theorem run_length_le {api : Api} {transform : Nat → Text → Option Text} {sha : Text → Text}
    {file : Option Text} {runs : Finset Nat} {as : List (Nat × Act)} {s : Sys}
    (honly : ∀ a ∈ as, a.1 ∈ runs) (hrun : exec (step api transform sha) (start file) as = some s) :
    as.length ≤ 2 * maxAttempts * runs.card := by
  have hinv : (∀ a ∈ as, a.1 ∈ runs) → (∀ r, (s.proc r).InTime) ∧
      as.length + ∑ r ∈ runs, (s.proc r).left ≤ 2 * maxAttempts * runs.card := by
    refine exec_induction (P := fun as s => (∀ a ∈ as, a.1 ∈ runs) → (∀ r, (s.proc r).InTime) ∧
      as.length + ∑ r ∈ runs, (s.proc r).left ≤ 2 * maxAttempts * runs.card) ?_ ?_ as s hrun
    · intro _
      refine ⟨fun r => Nat.le_add_left 1 5, ?_⟩
      have hfull : ∀ r ∈ runs, ((start file).proc r).left = 2 * maxAttempts := fun _ _ => rfl
      rw [Finset.sum_const_nat hfull, List.length_nil, Nat.mul_comm]
      omega
    · intro as s ⟨p, act⟩ s' _ ih hs honly
      obtain ⟨htime, hsum⟩ := ih fun a ha => honly a (List.mem_append_left _ ha)
      obtain ⟨m', run', hmove, rfl⟩ := step_eq_some.mp hs
      obtain ⟨hnext, hless⟩ := inTime_move (htime p) hmove
      have hp : p ∈ runs := honly (p, act) (by simp)
      refine ⟨forall_update hnext fun q _ => htime q, ?_⟩
      -- the sum of what is left goes down by the mover's share
      have hdown : ∑ r ∈ runs, (Function.update s.proc p run' r).left <
          ∑ r ∈ runs, (s.proc r).left := by
        refine Finset.sum_lt_sum (fun r _ => ?_) ⟨p, hp, ?_⟩
        · rcases eq_or_ne r p with rfl | hne
          · rw [Function.update_self]
            exact hless.le
          · rw [Function.update_of_ne hne]
        · rw [Function.update_self]
          exact hless
      rw [List.length_append, List.length_singleton]
      show as.length + 1 + ∑ r ∈ runs, (Function.update s.proc p run' r).left ≤ _
      omega
  have hle := (hinv honly).2
  omega

/-! ## Runs that are served -/

/-- The GET is answered, and the transform takes what it has read. -/
def Served (transform : Nat → Text → Option Text) (s : Sys) (a : Nat × Act) : Prop :=
  a.2 ≠ .fail ∧ (a.2 = .get → transform a.1 (commandSubst (s.shared.file.getD [])) ≠ none)

/-- A run has been overtaken once for each attempt that is behind it; the one it is at is lost
as soon as another has changed the file since its GET. -/
def Overtaken (sha : Text → Text) (m : Remote) (_ : Nat) : Run → Prop
  | .getting attempt => attempt ≤ m.commits.length + 1
  | .putting attempt requestSha _ => ∃ read, attempt ≤ read + 1 ∧ read ≤ m.commits.length ∧
      (m.commits.length = read → requestSha = shaOf sha m.file)
  | .exited code => code ≠ 0 → maxAttempts ≤ m.commits.length

/-- The file stays, or there is one commit more. -/
def Moves (_ : Nat) (m m' : Remote) : Prop := m' = m ∨ m.commits.length < m'.commits.length

section Served

variable {transform : Nat → Text → Option Text} {sha : Text → Text}

/-- Overtaken once, overtaken for good. -/
theorem overtaken_stable {m m' : Remote} {p r : Nat} {run : Run} (hmoves : Moves p m m')
    (h : Overtaken sha m r run) : Overtaken sha m' r run := by
  rcases hmoves with rfl | hlt
  · exact h
  · cases run with
    | getting attempt =>
      have hle : attempt ≤ m.commits.length + 1 := h
      show attempt ≤ m'.commits.length + 1
      omega
    | putting attempt requestSha newContent =>
      obtain ⟨read, hattempt, hread, -⟩ := h
      -- what it has read is out of date from now on
      exact ⟨read, hattempt, by omega, fun heq => by omega⟩
    | exited code =>
      intro hcode
      have hle := h hcode
      omega

/-- **What a served move keeps.** -/
theorem overtaken_move (hne : ∀ content, sha content ≠ []) {m m' : Remote} {r : Nat}
    {run run' : Run} {act : Act} (h : Overtaken sha m r run) (hact : act ≠ .fail)
    (hget : act = .get → transform r (commandSubst (m.file.getD [])) ≠ none)
    (hmove : move reliable transform sha m r run act = some (m', run')) :
    Overtaken sha m' r run' ∧ Moves r m m' := by
  cases run with
  | getting attempt =>
    cases act with
    | get =>
      simp only [move] at hmove
      split at hmove
      · rename_i hnone
        exact absurd hnone (hget rfl)
      · obtain ⟨rfl, rfl⟩ := Prod.mk.inj (Option.some.inj hmove)
        exact ⟨⟨m.commits.length, h, le_rfl, fun _ => rfl⟩, Or.inl rfl⟩
    | fail => exact absurd rfl hact
    | put applied status => exact absurd hmove (by simp [move])
  | putting attempt requestSha newContent =>
    cases act with
    | get => exact absurd hmove (by simp [move])
    | fail => exact absurd hmove (by simp [move])
    | put applied status =>
      simp only [move, Option.ite_none_right_eq_some] at hmove
      obtain ⟨hapi, hnext⟩ := hmove
      obtain ⟨rfl, rfl⟩ := Prod.mk.inj (Option.some.inj hnext)
      simp only [reliable, Bool.and_eq_true, decide_eq_true_eq] at hapi
      obtain ⟨haccepts, hstatus⟩ := hapi
      cases applied with
      | true =>
        rw [if_pos rfl, afterPut, afterStatus, if_pos hstatus]
        refine ⟨fun hcode => absurd rfl hcode, Or.inr ?_⟩
        simp [Remote.commit]
      | false =>
        rw [if_neg (by simp), afterPut, afterStatus, if_neg (by rw [hstatus]; simp)]
        obtain ⟨read, hattempt, hread, hcurrent⟩ := h
        -- a refusal means a commit since the GET
        have hlost : read < m.commits.length := by
          rcases Nat.lt_or_ge read m.commits.length with hlt | hge
          · exact hlt
          · rw [hcurrent (by omega), RateLimit.accepts_shaOf hne] at haccepts
            exact absurd haccepts (by simp)
        refine ⟨?_, Or.inl rfl⟩
        split
        · show attempt + 1 ≤ m.commits.length + 1
          omega
        · intro _
          omega
  | exited code => exact absurd hmove (by cases act <;> simp [move])

/-- **Step lemma.** -/
theorem overtaken_step (hne : ∀ content, sha content ≠ []) {s s' : Sys} {a : Nat × Act}
    (h : Holds (fun _ => True) (Overtaken sha) s) (hok : Served transform s a)
    (hs : step reliable transform sha s a = some s') :
    Holds (fun _ => True) (Overtaken sha) s' := by
  obtain ⟨r, act⟩ := a
  obtain ⟨m', run', hmove, rfl⟩ := step_eq_some.mp hs
  obtain ⟨hown, hmoves⟩ := overtaken_move hne (h.2 r) hok.1 hok.2 hmove
  exact ⟨trivial, forall_update hown fun q _ => overtaken_stable hmoves (h.2 q)⟩

end Served

/-- A run that never moves stays where it is. -/
theorem proc_eq_of_notMem {api : Api} {transform : Nat → Text → Option Text} {sha : Text → Text}
    {s s' : Sys} {as : List (Nat × Act)} {r : Nat} (hr : ∀ a ∈ as, a.1 ≠ r)
    (hrun : exec (step api transform sha) s as = some s') : s'.proc r = s.proc r := by
  refine exec_induction (P := fun as s' => (∀ a ∈ as, a.1 ≠ r) → s'.proc r = s.proc r)
    (fun _ => rfl) ?_ as s' hrun hr
  intro as t ⟨p, act⟩ t' _ ih hs hr
  obtain ⟨m', run', -, rfl⟩ := step_eq_some.mp hs
  have hne : p ≠ r := hr (p, act) (by simp)
  show Function.update t.proc p run' r = s.proc r
  rw [Function.update_of_ne hne.symm]
  exact ih fun a ha => hr a (List.mem_append_left _ ha)

/-- **No run starves.** With a reliable API whose sha identifies the content: let at most six
runs be served in any order until all of them are over. Then every one of them exits with 0 and
has changed the file exactly once, and the contents of the file are those of their transforms
applied one after the other. -/
theorem served_runs_update (transform : Nat → Text → Option Text) (sha : Text → Text)
    (hinj : Function.Injective sha) (hne : ∀ content, sha content ≠ []) (file : Option Text)
    (runs : Finset Nat) (hfew : runs.card ≤ maxAttempts) (as : List (Nat × Act)) (s : Sys)
    (hrun : exec (step reliable transform sha) (start file) as = some s)
    (honly : ∀ a ∈ as, a.1 ∈ runs)
    (hserved : StepsMeet (step reliable transform sha) (Served transform) (start file) as)
    (hover : ∀ r ∈ runs, ∃ code, s.proc r = .exited code) :
    (∀ r ∈ runs, s.proc r = .exited 0) ∧
      s.shared.authors.Nodup ∧ s.shared.authors.toFinset = runs ∧
      replay commandSubst transform (commandSubst (file.getD [])) s.shared.authors =
        some s.shared.contents ∧
      s.shared.file = s.shared.contents.getLast?.or file := by
  have hovertaken : Holds (fun _ => True) (Overtaken sha) s := by
    refine exec_invariant_of_meets (fun _ _ _ h hok hs => overtaken_step hne h hok hs)
      ⟨trivial, fun r => ?_⟩ hserved hrun
    show 1 ≤ 0 + 1
    omega
  obtain ⟨hhist, hruns⟩ : Holds (History transform file) (RunOk transform sha) s :=
    exec_invariant (fun _ a _ h hs => (sound_reliable hinj hne file).step a h hs)
      (history_start file) hrun
  -- only runs of the set have changed the file
  have hsubset : s.shared.authors.toFinset ⊆ runs := by
    intro r hr
    by_contra hout
    have hnever : ∀ a ∈ as, a.1 ≠ r := fun a ha heq => hout (heq ▸ honly a ha)
    have hidle := proc_eq_of_notMem hnever hrun
    have hok := hruns r
    rw [hidle] at hok
    exact hok (List.mem_toFinset.mp hr)
  have hcard : s.shared.commits.length = s.shared.authors.toFinset.card := by
    rw [List.toFinset_card_of_nodup hhist.once, Remote.authors, List.length_map]
  -- so a run that gives up has one of five others in front of it six times
  have hzero : ∀ r ∈ runs, s.proc r = .exited 0 := by
    intro r hr
    obtain ⟨code, hexit⟩ := hover r hr
    by_cases hcode : code = 0
    · rw [hexit, hcode]
    · have hsix := hovertaken.2 r
      rw [hexit] at hsix
      have hok := hruns r
      rw [hexit] at hok
      have hout : r ∉ s.shared.authors.toFinset := fun hmem =>
        hcode (hok.mp (List.mem_toFinset.mp hmem))
      have hstrict := Finset.card_lt_card
        (Finset.ssubset_iff_subset_ne.mpr ⟨hsubset, fun heq => hout (heq ▸ hr)⟩)
      have hle := hsix hcode
      omega
  refine ⟨hzero, hhist.once, Finset.Subset.antisymm hsubset fun r hr => ?_, hhist.replay,
    hhist.current⟩
  have hok := hruns r
  rw [hzero r hr] at hok
  exact List.mem_toFinset.mpr (hok.mpr rfl)

/-- Two runs race to the end. -/
def shortRace : List (Nat × Act) :=
  [(0, .get), (1, .get), (0, .put true 200), (1, .put false 409), (1, .get), (1, .put true 200)]

/-- A race of two that both get through. -/
theorem served_runs_update_shortRace :
    ∃ s, exec (step reliable addLetter tagged) (start (some (ascii "c"))) shortRace = some s ∧
      s.shared.authors.toFinset = {0, 1} := by
  have hview : (exec (step reliable addLetter tagged) (start (some (ascii "c"))) shortRace).map
      (fun s => (s.proc 0, s.proc 1)) = some (.exited 0, .exited 0) := by decide
  obtain ⟨s, hrun, hs⟩ := Option.map_eq_some_iff.mp hview
  obtain ⟨hzero, hone⟩ := Prod.mk.inj hs
  refine ⟨s, hrun, (served_runs_update addLetter tagged (fun _ _ h => (List.cons.inj h).2)
    (fun content => List.cons_ne_nil sharp content) (some (ascii "c")) {0, 1} (by decide) shortRace
    s hrun (by decide) ?_ ?_).2.2.1⟩
  · intro pre a post s' hsplit _
    have hmem : a ∈ shortRace := by
      rw [hsplit]
      simp
    have hall : ∀ a ∈ shortRace, a.2 ≠ .fail ∧ a.1 ≠ 2 := by decide
    obtain ⟨hact, htwo⟩ := hall a hmem
    refine ⟨hact, fun _ => ?_⟩
    rw [addLetter, if_neg htwo]
    exact Option.some_ne_none _
  · intro r hr
    rw [Finset.mem_insert, Finset.mem_singleton] at hr
    rcases hr with rfl | rfl
    · exact ⟨0, hzero⟩
    · exact ⟨0, hone⟩

/-! ## A seventh run -/

section Starved

variable {transform : Nat → Text → Option Text} {sha : Text → Text} {s : Sys} {r q attempt : Nat}

/-- `q` gets between the GET and the PUT of `r`. -/
def overtake (r q : Nat) : List (Nat × Act) :=
  [(r, .get), (q, .get), (q, .put true 200), (r, .put false 409)]

/-- One can be overtaken at every try. -/
theorem exec_overtake (hne : ∀ content, sha content ≠ [])
    (htotal : ∀ r old, transform r old ≠ none)
    (hchanges : ∀ old output, transform q (commandSubst old) = some output →
      sha (commandSubst output) ≠ sha old)
    (hother : r ≠ q) (hr : s.proc r = .getting attempt) (hq : s.proc q = .getting 1) :
    ∃ s', exec (step reliable transform sha) s (overtake r q) = some s' ∧
      s'.proc r = afterPut attempt 409 ∧ s'.shared.authors = s.shared.authors ++ [q] ∧
      ∀ p, p ≠ r → p ≠ q → s'.proc p = s.proc p := by
  obtain ⟨mine, hmine⟩ := Option.ne_none_iff_exists'.mp
    (htotal r (commandSubst (s.shared.file.getD [])))
  obtain ⟨output, houtput⟩ := Option.ne_none_iff_exists'.mp
    (htotal q (commandSubst (s.shared.file.getD [])))
  obtain ⟨s₁, hs₁⟩ : ∃ s₁ : Sys, s₁ = ⟨s.shared, Function.update s.proc r
    (.putting attempt (shaOf sha s.shared.file) (commandSubst mine))⟩ := ⟨_, rfl⟩
  obtain ⟨s₂, hs₂⟩ : ∃ s₂ : Sys, s₂ = ⟨s.shared, Function.update s₁.proc q
    (.putting 1 (shaOf sha s.shared.file) (commandSubst output))⟩ := ⟨_, rfl⟩
  obtain ⟨s₃, hs₃⟩ : ∃ s₃ : Sys, s₃ = ⟨s.shared.commit q (commandSubst output),
    Function.update s₂.proc q (.exited 0)⟩ := ⟨_, rfl⟩
  obtain ⟨s₄, hs₄⟩ : ∃ s₄ : Sys, s₄ = ⟨s.shared.commit q (commandSubst output),
    Function.update s₃.proc r (afterPut attempt 409)⟩ := ⟨_, rfl⟩
  have hget : step reliable transform sha s (r, .get) = some s₁ := by
    refine step_eq_some.mpr ⟨_, _, ?_, hs₁⟩
    rw [hr]
    simp only [move, hmine]
  have hget' : step reliable transform sha s₁ (q, .get) = some s₂ := by
    refine step_eq_some.mpr ⟨_, _, ?_, hs₂⟩
    have hproc : s₁.proc q = .getting 1 := by
      rw [hs₁]
      exact (Function.update_of_ne hother.symm _ _).trans hq
    rw [hproc, hs₁]
    simp only [move, houtput]
  -- the file is as both have read it
  have hput : step reliable transform sha s₂ (q, .put true 200) = some s₃ := by
    refine step_eq_some.mpr ⟨_, _, ?_, hs₃⟩
    have hproc : s₂.proc q = .putting 1 (shaOf sha s.shared.file) (commandSubst output) := by
      rw [hs₂]
      exact Function.update_self ..
    have hshared : s₂.shared = s.shared := by rw [hs₂]
    rw [hproc, hshared]
    simp only [move, RateLimit.accepts_shaOf hne]
    rfl
  -- and is not any more
  have hput' : step reliable transform sha s₃ (r, .put false 409) = some s₄ := by
    refine step_eq_some.mpr ⟨_, _, ?_, hs₄⟩
    have hproc : s₃.proc r = .putting attempt (shaOf sha s.shared.file) (commandSubst mine) := by
      rw [hs₃]
      refine (Function.update_of_ne hother _ _).trans ?_
      rw [hs₂]
      refine (Function.update_of_ne hother _ _).trans ?_
      rw [hs₁]
      exact Function.update_self ..
    have hshared : s₃.shared = s.shared.commit q (commandSubst output) := by rw [hs₃]
    have hrefused : accepts sha (some (commandSubst output)) (shaOf sha s.shared.file) = false := by
      cases hfile : s.shared.file with
      | none => rfl
      | some old =>
        rw [hfile, Option.getD_some] at houtput
        simp [accepts, shaOf, (hchanges old output houtput).symm]
    rw [hproc, hshared]
    simp only [move, Remote.commit, hrefused]
    rfl
  refine ⟨s₄, ?_, ?_, ?_, fun p hpr hpq => ?_⟩
  · rw [overtake, exec_cons, hget, Option.bind_some, exec_cons, hget', Option.bind_some, exec_cons,
      hput, Option.bind_some, exec_cons, hput', Option.bind_some, exec_nil]
  · rw [hs₄]
    exact Function.update_self ..
  · rw [hs₄]
    exact authors_commit ..
  · rw [hs₄]
    refine (Function.update_of_ne hpr _ _).trans ?_
    rw [hs₃]
    refine (Function.update_of_ne hpq _ _).trans ?_
    rw [hs₂]
    refine (Function.update_of_ne hpq _ _).trans ?_
    rw [hs₁]
    exact Function.update_of_ne hpr _ _

/-- Each of the runs `qs` overtakes one of the attempts that are left. -/
theorem starves (hne : ∀ content, sha content ≠ []) (htotal : ∀ r old, transform r old ≠ none)
    {qs : List Nat} (hchanges : ∀ q ∈ qs, ∀ old output,
      transform q (commandSubst old) = some output → sha (commandSubst output) ≠ sha old)
    (hnodup : (r :: qs).Nodup) (hleft : attempt + qs.length = maxAttempts + 1) (hsome : qs ≠ [])
    (hr : s.proc r = .getting attempt) (hqs : ∀ q ∈ qs, s.proc q = .getting 1) :
    ∃ s', exec (step reliable transform sha) s (qs.flatMap (overtake r)) = some s' ∧
      s'.proc r = .exited 1 ∧ s'.shared.authors = s.shared.authors ++ qs := by
  induction qs generalizing s attempt with
  | nil => exact absurd rfl hsome
  | cons q qs ih =>
    rw [List.nodup_cons, List.mem_cons, not_or, List.nodup_cons] at hnodup
    obtain ⟨⟨hrq, hrqs⟩, hq, hnodup⟩ := hnodup
    -- `q` gets in between the read of `r` and its PUT
    obtain ⟨t, ht, hproc, hauthors, hrest⟩ := exec_overtake hne htotal
      (hchanges q List.mem_cons_self) hrq hr (hqs q List.mem_cons_self)
    rw [List.length_cons] at hleft
    rw [List.flatMap_cons, exec_append, ht, Option.bind_some]
    by_cases hlast : qs = []
    · -- that was the sixth attempt
      subst hlast
      rw [List.length_nil] at hleft
      refine ⟨t, rfl, ?_, hauthors⟩
      rw [hproc, afterPut, afterStatus, if_neg (by simp [success]), if_neg (by omega)]
    · have hmore : 0 < qs.length := List.length_pos_iff.mpr hlast
      have hnext : t.proc r = .getting (attempt + 1) := by
        rw [hproc, afterPut, afterStatus, if_neg (by simp [success]), if_pos (by omega)]
      obtain ⟨s', hs', hexit, hall⟩ := ih (fun p hp => hchanges p (List.mem_cons_of_mem q hp))
        (List.nodup_cons.mpr ⟨hrqs, hnodup⟩) (by omega) hlast hnext fun p hp => by
          rw [hrest p (fun h => hrqs (h ▸ hp)) (fun h => hq (h ▸ hp))]
          exact hqs p (List.mem_cons_of_mem q hp)
      exact ⟨s', hs', hexit, by rw [hall, hauthors, List.append_assoc, List.singleton_append]⟩

/-- **Of seven runs one can starve.** With transforms that reject nothing, and any six runs that
always change the sha of the file: they can all be served one after the other such that a
seventh, which is served just as well, exits with 1 and has changed nothing. -/
theorem seventh_starves (transform : Nat → Text → Option Text) (sha : Text → Text)
    (hne : ∀ content, sha content ≠ []) (htotal : ∀ r old, transform r old ≠ none)
    (file : Option Text) (r : Nat) (qs : List Nat) (hnodup : (r :: qs).Nodup)
    (hsix : qs.length = maxAttempts)
    (hchanges : ∀ q ∈ qs, ∀ old output, transform q (commandSubst old) = some output →
      sha (commandSubst output) ≠ sha old) :
    ∃ as s, exec (step reliable transform sha) (start file) as = some s ∧
      StepsMeet (step reliable transform sha) (Served transform) (start file) as ∧
      s.proc r = .exited 1 ∧ s.shared.authors = qs := by
  have hfirst : (start file).proc r = .getting 1 := rfl
  have hsome : qs ≠ [] := by
    rintro rfl
    exact absurd hsix (by decide)
  obtain ⟨s, hrun, hexit, hauthors⟩ := starves hne htotal hchanges hnodup (by omega) hsome hfirst
    fun q _ => rfl
  refine ⟨qs.flatMap (overtake r), s, hrun, ?_, hexit, hauthors⟩
  intro pre a post t hsplit _
  have hmem : a ∈ qs.flatMap (overtake r) := by
    rw [hsplit]
    simp
  obtain ⟨q, -, ha⟩ := List.mem_flatMap.mp hmem
  refine ⟨?_, fun _ => htotal a.1 _⟩
  simp only [overtake, List.mem_cons, List.not_mem_nil, or_false] at ha
  rcases ha with rfl | rfl | rfl | rfl <;> simp

end Starved

/-- Every run turns one letter into the other. -/
def otherLetter : Nat → Text → Option Text := fun _ old =>
  if old = ascii "a" then some (ascii "b") else some (ascii "a")

/-- And then gives up. -/
theorem seventh_starves_otherLetter : ∃ as s,
    exec (step reliable otherLetter tagged) (start none) as = some s ∧
      StepsMeet (step reliable otherLetter tagged) (Served otherLetter) (start none) as ∧
      s.proc 6 = .exited 1 ∧ s.shared.authors = [0, 1, 2, 3, 4, 5] := by
  refine seventh_starves otherLetter tagged (fun content => List.cons_ne_nil sharp content)
    (fun _ old => ?_) none 6 [0, 1, 2, 3, 4, 5] (by decide) rfl ?_
  · unfold otherLetter
    split <;> exact Option.some_ne_none _
  · intro q _ old output houtput hsame
    obtain rfl := (List.cons.inj hsame).2
    unfold otherLetter at houtput
    rw [commandSubst_idem] at houtput
    split at houtput
    · rename_i ha
      obtain rfl := Option.some.inj houtput
      exact absurd ha (by decide)
    · rename_i ha
      obtain rfl := Option.some.inj houtput
      exact ha (by decide)

end Swayam.Cas
