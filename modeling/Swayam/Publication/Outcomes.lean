import Swayam.Pipeline.Branches
import Swayam.Publication.Workflows

/-!
# SWAYAM — what a run ends as in CI

The workflow has a case for a mutation that is quarantined: the step succeeds, and nothing
is published. The daemon of `main.cpp` writes `published` behind every cycle that returns,
and exits with 1 behind one that throws, so a cycle does not get there.

* `rationale_orchestrateEvolution` — a cycle leaves a rationale exactly for a code that has
  come through every stage in front of the publication;
* `step_succeeds_iff` — when the step succeeds: only for such a code, or for a daemon that is
  stopped before its cycle.
-/

namespace Swayam.Pipeline

open Stages

/-! ## The rationale of a cycle -/

/-- The rationale is left alone. -/
def KeepsRationale (w w' : World) : Prop := w'.rationale = w.rationale

theorem keepsRationale_refl (w : World) : KeepsRationale w w := rfl

theorem keepsRationale_trans (a b c : World) (hab : KeepsRationale a b)
    (hbc : KeepsRationale b c) : KeepsRationale a c := Eq.trans hbc hab

section Rationale

variable {stdHash : StdHash} {env : CycleEnv} {evolvedCode : Text}

/-- A status file is another file. -/
theorem keepsRationale_writeStatusFile (status : StatusCall) (outcome reason : Text) :
    Within KeepsRationale (writeStatusFile status outcome reason) := by
  intro w
  rw [endState_writeStatusFile]
  cases status.write <;> rfl

/-- The runner does not touch it. -/
theorem keepsRationale_evaluateAndExecute (env : RunnerEnv) (sourceCode mutationId : Text) :
    Within KeepsRationale (evaluateAndExecute stdHash env sourceCode mutationId) :=
  within_evaluateAndExecute keepsRationale_refl keepsRationale_trans
    (fun _ => within_call keepsRationale_refl fun _ _ => within_change fun _ => rfl)
    (fun _ _ => within_change fun _ => rfl) (fun _ => within_change fun _ => rfl) mutationId

/-- Nor does a git command. -/
theorem keepsRationale_gitCommand_bind {α : Type} (answer : Except Fault Bool) (args : List Text)
    {x : Bool → M α} (hx : ∀ success, Within KeepsRationale (x success)) :
    Within KeepsRationale (executeGitCommand answer args >>= x) := by
  have hcommand : Within KeepsRationale (executeGitCommand answer args) :=
    within_call keepsRationale_refl fun success _ =>
      within_bind keepsRationale_trans (within_change fun _ => rfl) fun _ =>
        within_pure keepsRationale_refl success
  exact within_bind keepsRationale_trans hcommand hx

/-- What follows the rationale does not write another one. -/
theorem keepsRationale_publishing (env : CycleEnv) (evolvedCode : Text) :
    Within KeepsRationale (publishing stdHash env evolvedCode) := by
  have hfalse : Within KeepsRationale (pure false : M Bool) := within_pure keepsRationale_refl false
  have hstatus := keepsRationale_writeStatusFile env.status
  have hpublish : Within KeepsRationale (publishEvolution env.git (mutationIdOf stdHash evolvedCode)
      (targetFile (mutationIdOf stdHash evolvedCode))) := by
    unfold publishEvolution
    -- each command that fails ends the publication
    refine keepsRationale_gitCommand_bind _ _ fun checkout => ?_
    split
    · refine keepsRationale_gitCommand_bind _ _ fun add => ?_
      split
      · refine keepsRationale_gitCommand_bind _ _ fun commit => ?_
        split
        · refine keepsRationale_gitCommand_bind _ _ fun push => ?_
          split
          · exact keepsRationale_gitCommand_bind _ _ fun _ => within_pure keepsRationale_refl true
          · exact hfalse
        · exact hfalse
      · exact hfalse
    · exact hfalse
  have hassimilate : Within KeepsRationale (assimilate stdHash env evolvedCode) := by
    unfold assimilate registerMutationHash syncLedgers
    refine within_bind keepsRationale_trans (within_change fun _ => rfl) fun _ => ?_
    refine within_bind keepsRationale_trans
      (within_call keepsRationale_refl fun _ _ => within_change fun _ => rfl) fun _ => ?_
    refine within_call keepsRationale_refl fun _ _ => ?_
    refine within_bind keepsRationale_trans ?_ fun _ => hstatus _ _
    refine keepsRationale_gitCommand_bind _ _ fun _ => ?_
    refine keepsRationale_gitCommand_bind _ _ fun _ => ?_
    exact keepsRationale_gitCommand_bind _ _ fun _ => within_pure keepsRationale_refl ()
  unfold publishing
  refine within_bind keepsRationale_trans hpublish fun success => ?_
  split
  · exact hassimilate
  · exact hstatus _ _

/-- The stages in front of the rationale. -/
def sandboxGates (stdHash : StdHash) (env : CycleEnv) (evolvedCode : Text) : List (Gate Fault) :=
  [returns env.analyzer,
   analysisGate env evolvedCode,
   succeeds env.targetOpens,
   firstObstacle (runnerGates stdHash env.runner evolvedCode)]

/-- What a cycle does with a code that has come through the sandbox. -/
def rationalePublishing (stdHash : StdHash) (env : CycleEnv) (evolvedCode : Text) : M Unit := do
  writeRationale env (mutationIdOf stdHash evolvedCode)
  publishing stdHash env evolvedCode

/-- **No rationale in front of the stages.** -/
theorem evaluateEvolution_sandboxes (stdHash : StdHash) (env : CycleEnv) (evolvedCode : Text) :
    Meets KeepsRationale (· = rationalePublishing stdHash env evolvedCode)
      (fun x => Within KeepsRationale x) (evaluateEvolution stdHash env evolvedCode)
      (firstObstacle (sandboxGates stdHash env evolvedCode)) := by
  have hstatus : ∀ reason, Within KeepsRationale (env.writeStatus (ascii "quarantined") reason) :=
    fun reason => keepsRationale_writeStatusFile env.status _ reason
  have hstops : ∀ reason, Meets KeepsRationale (· = rationalePublishing stdHash env evolvedCode)
      (fun x => Within KeepsRationale x) (env.writeStatus (ascii "quarantined") reason) .stop :=
    fun reason => meets_stop keepsRationale_refl (hstatus reason)
  rw [evaluateEvolution_eq]
  unfold sandboxGates
  refine meets_returns keepsRationale_refl fun _ _ => ?_
  unfold analysisGate
  by_cases hsafe : (evaluateMutation evolvedCode).isSafe = true
  · rw [if_pos hsafe]
    simp only [hsafe, Bool.true_eq_false, if_false]
    refine meets_succeeds keepsRationale_refl (hstops _) ?_
    refine meets_change keepsRationale_trans (fun _ => rfl) ?_
    refine meets_answers keepsRationale_trans (answers_within
      (evaluateAndExecute_answers stdHash env.runner evolvedCode _)
      (keepsRationale_evaluateAndExecute _ _ _)) (hstops _) ?_
    exact meets_pass keepsRationale_refl rfl
  · rw [if_neg hsafe]
    rw [Bool.not_eq_true] at hsafe
    simp only [hsafe, if_true]
    cases htelemetry : env.telemetry with
    | error f => exact meets_fault keepsRationale_refl f _
    | ok u => exact meets_stop keepsRationale_refl (hstatus _)

/-- A stage behind the others. -/
theorem firstObstacle_concat_eq_pass {gates : List (Gate Fault)} {gate : Gate Fault} :
    firstObstacle (gates ++ [gate]) = .pass ↔ firstObstacle gates = .pass ∧ gate = .pass := by
  induction gates with
  | nil => simp [firstObstacle]
  | cons first gates ih => cases first <;> simp [firstObstacle, ih]

/-- The code that gets a rationale. -/
def rationaleCode (stdHash : StdHash) (env : CycleEnv) : Option Text :=
  if env.rationale = .ok true then publishedCode stdHash env else none

/-- A code that has come through gets its rationale, when the file opens. -/
theorem rationale_rationalePublishing (w : World) :
    (endState (rationalePublishing stdHash env evolvedCode w)).rationale =
      if env.rationale = .ok true then some (rationaleText (mutationIdOf stdHash evolvedCode))
      else w.rationale := by
  have hrest : Within KeepsRationale (publishing stdHash env evolvedCode) :=
    keepsRationale_publishing env evolvedCode
  unfold rationalePublishing
  cases hopens : env.rationale with
  | error f =>
    have hwritten : writeRationale env (mutationIdOf stdHash evolvedCode) w = .error f w := by
      unfold writeRationale
      rw [hopens]
      rfl
    rw [bind_run_error hwritten, if_neg (by simp)]
    rfl
  | ok opens =>
    cases opens with
    | false =>
      have hwritten : writeRationale env (mutationIdOf stdHash evolvedCode) w = .ok () w := by
        unfold writeRationale
        rw [hopens]
        rfl
      rw [bind_run_ok hwritten, if_neg (by simp)]
      exact hrest w
    | true =>
      have hwritten : writeRationale env (mutationIdOf stdHash evolvedCode) w = .ok ()
          { w with rationale := some (rationaleText (mutationIdOf stdHash evolvedCode)) } := by
        unfold writeRationale
        rw [hopens]
        rfl
      rw [bind_run_ok hwritten, if_pos rfl]
      exact hrest _

/-- **The rationale that a cycle leaves**, however it ends. -/
theorem rationale_orchestrateEvolution (env : CycleEnv) (w : World) :
    (endState (orchestrateEvolution stdHash env w)).rationale =
      ((rationaleCode stdHash env).map fun evolvedCode =>
        rationaleText (mutationIdOf stdHash evolvedCode)).or w.rationale := by
  rw [orchestrateEvolution_eq]
  unfold rationaleCode publishedCode
  cases hcreated : env.createVault with
  | error f => simp [bind_run, call, endState]
  | ok created =>
    cases created with
    | false =>
      have hkept : (endState (env.writeStatus (ascii "quarantined")
          (ascii "vault creation failed") w)).rationale = w.rationale :=
        keepsRationale_writeStatusFile env.status _ _ w
      simpa [bind_run, call] using hkept
    | true =>
      cases hforged : env.forge with
      | error f => simp [bind_run, call, endState]
      | ok evolvedCode =>
        have hgates : vettingGates stdHash env evolvedCode =
            sandboxGates stdHash env evolvedCode ++ [returns env.rationale] := rfl
        show (endState (evaluateEvolution stdHash env evolvedCode w)).rationale = _
        dsimp only
        simp only [hgates, firstObstacle_concat_eq_pass]
        obtain ⟨w₁, hkept, hrun⟩ := evaluateEvolution_sandboxes stdHash env evolvedCode w
        cases hpass : firstObstacle (sandboxGates stdHash env evolvedCode) with
        | pass =>
          rw [hpass] at hrun
          obtain ⟨_, rfl, hrun⟩ := hrun
          rw [hrun, rationale_rationalePublishing, hkept]
          -- the rationale opens only when its call returns
          by_cases hopens : env.rationale = .ok true
          · simp [hopens, returns]
          · simp [hopens]
        | stop =>
          rw [hpass] at hrun
          obtain ⟨_, hstops, hrun⟩ := hrun
          rw [hrun, hstops, hkept]
          simp
        | fault f =>
          rw [hpass] at hrun
          rw [hrun]
          have hsame : w₁.rationale = w.rationale := hkept
          simp [endState, hsame]

/-! ## The end of a run -/

/-- The exit code, unless the process is terminated. -/
def exitCode (result : EStateM.Result Fault World Nat) : Option Nat :=
  match result with
  | .ok code _ => some code
  | .error _ _ => none

/-- An exit with 1 is no exit with 0. -/
theorem exitCode_exit {env : DaemonEnv} {outcome reason : Text} {code : Nat} {w : World}
    (h : exitCode (env.exit outcome reason code w) = some 0) : code = 0 := by
  unfold DaemonEnv.exit DaemonEnv.writeStatus writeStatusFile at h
  cases hthrows : env.status.throws with
  | none =>
    rw [hthrows] at h
    exact Option.some.inj h
  | some f =>
    rw [hthrows] at h
    exact absurd h (by simp [bind_run, call, change, exitCode])

/-- **A daemon that exits with 0** has been stopped before its cycle, or its cycle has
returned. -/
theorem main_of_exitCode {env : DaemonEnv} {w : World}
    (h : exitCode (main stdHash env w) = some 0) :
    (env.running = false ∧ main stdHash env w =
      env.exit (ascii "quarantined") (ascii "daemon stopped before completion") 0 w) ∨
    (env.running = true ∧ ∃ w', orchestrateEvolution stdHash env.cycle w = .ok () w' ∧
      main stdHash env w = env.exit (ascii "published") [] 0 w') := by
  by_cases hreached : env.ReachesCycle
  · rw [main_of_reached hreached, runCycle_run] at h ⊢
    right
    refine ⟨hreached.2.2.2.2, ?_⟩
    cases hrun : orchestrateEvolution stdHash env.cycle w with
    | ok u w' => exact ⟨w', rfl, rfl⟩
    | error fault w' =>
      -- behind a fault the daemon exits with 1, or does not exit
      rw [hrun] at h
      cases fault with
      | terminate => exact absurd h (by simp [exitCode])
      | exception what => exact absurd (exitCode_exit h) (by simp)
      | unknown => exact absurd (exitCode_exit h) (by simp)
  · unfold main mainWith at h ⊢
    by_cases hsigaction : env.sigaction = false
    · rw [if_pos hsigaction] at h
      exact absurd (exitCode_exit h) (by simp)
    rw [if_neg hsigaction] at h ⊢
    by_cases hlock : env.lockOpens = false
    · rw [if_pos hlock] at h
      exact absurd (exitCode_exit h) (by simp)
    rw [if_neg hlock] at h ⊢
    by_cases hflock : env.flock = false
    · rw [if_pos hflock] at h
      exact absurd (exitCode_exit h) (by simp)
    rw [if_neg hflock] at h ⊢
    cases hsetup : env.setup with
    | error f =>
      rw [hsetup] at h
      exact absurd h (by simp [bind_run, call, exitCode])
    | ok u =>
      have hstopped : env.running = false := by
        by_contra hrunning
        rw [Bool.not_eq_false] at hsigaction hlock hflock hrunning
        exact hreached ⟨hsigaction, hlock, hflock, hsetup, hrunning⟩
      rw [if_pos hstopped]
      exact Or.inl ⟨hstopped, rfl⟩

end Rationale

end Swayam.Pipeline

namespace Swayam.Publication

open Pipeline Stages

/-- `meta`, when the container ends: what the daemon has left in its status file, and its
rationale. The mutation that it runs has put nothing there. -/
structure LeavesMeta (w' : World) (files : List File) : Prop where
  status    : find files (metaPlace "status.json".toList) = w'.statusFile
  rationale : find files (metaPlace "rationale.md".toList) = w'.rationale

/-- The status of a daemon that a signal stops. -/
def stoppedStatus : Status := ⟨quarantined, ascii "daemon stopped before completion"⟩

/-- What `jq` makes of the two statuses that stand behind an exit with 0. -/
structure ReadsStatus (sandbox : SandboxEnv) : Prop where
  published   : sandbox.jq (statusText ⟨Pipeline.published, []⟩) = some Pipeline.published
  quarantined : sandbox.jq (statusText stoppedStatus) = some Pipeline.quarantined

section Step

variable {sandbox : SandboxEnv} {files : List File}

/-- The step behind a status that says `published`. -/
theorem sandboxStep_published (hreads : ReadsStatus sandbox)
    (h : find files (metaPlace "status.json".toList) = some (statusText ⟨Pipeline.published, []⟩)) :
    (∃ staged, sandboxStep sandbox files = some staged) ↔ sandbox.exits = true ∧
      sandbox.moves = true ∧ (find files (metaPlace "rationale.md".toList)).isSome = true := by
  unfold sandboxStep
  rw [h, Option.bind_some, hreads.published]
  cases sandbox.exits with
  | false => simp
  | true =>
    rw [if_neg (by simp)]
    dsimp only
    rw [if_pos rfl]
    cases find files (metaPlace "rationale.md".toList) with
    | none => simp
    | some rationale =>
      dsimp only
      cases sandbox.moves with
      | false => simp
      | true =>
        rw [if_neg (by simp)]
        exact iff_of_true ⟨_, rfl⟩ ⟨rfl, rfl, rfl⟩

/-- The step behind the status of a daemon that was stopped. -/
theorem sandboxStep_stopped (hreads : ReadsStatus sandbox)
    (h : find files (metaPlace "status.json".toList) = some (statusText stoppedStatus)) :
    (∃ staged, sandboxStep sandbox files = some staged) ↔ sandbox.exits = true := by
  have hne : Pipeline.quarantined ≠ Pipeline.published := by decide
  unfold sandboxStep
  rw [h, Option.bind_some, hreads.quarantined]
  cases sandbox.exits with
  | false => simp
  | true => simp [hne]

end Step

/-- **When the step succeeds.** Whatever the daemon's environment does, if its last status lands:
the step with the container succeeds exactly when the container exits with 0 and either the
daemon was stopped by a signal before its cycle, or its cycle had a code that came through every
stage in front of the publication, and its rationale was written and can be moved. A mutation
that the analyzer, the ban check, the compiler or the execution turns down makes the step fail. -/
theorem step_succeeds_iff (stdHash : StdHash) (daemon : DaemonEnv) (w : World)
    (sandbox : SandboxEnv) (files : List File) (hrationale : w.rationale = none)
    (hstatus : daemon.status.write = .lands) (hreads : ReadsStatus sandbox)
    (hleaves : LeavesMeta (endState (main stdHash daemon w)) files)
    (hexits : sandbox.exits = true → exitCode (main stdHash daemon w) = some 0) :
    (∃ staged, sandboxStep sandbox files = some staged) ↔
      sandbox.exits = true ∧ (daemon.running = false ∨ sandbox.moves = true ∧
        ∃ evolvedCode, rationaleCode stdHash daemon.cycle = some evolvedCode ∧
          Vetted stdHash daemon.cycle evolvedCode) := by
  cases hexit : sandbox.exits with
  | false =>
    unfold sandboxStep
    simp [hexit]
  | true =>
    obtain ⟨hfile, hrationaleFile⟩ := hleaves
    rcases main_of_exitCode (hexits hexit) with ⟨hstopped, hmain⟩ | ⟨hrunning, w', hcycle, hmain⟩
    · rw [hmain, endState_exit, hstatus] at hfile
      rw [sandboxStep_stopped hreads hfile, hstopped, hexit]
      simp
    · rw [hmain, endState_exit, hstatus] at hfile hrationaleFile
      replace hrationaleFile : find files (metaPlace "rationale.md".toList) = w'.rationale :=
        hrationaleFile
      rw [sandboxStep_published hreads hfile, hrationaleFile, hrunning, hexit]
      -- the rationale is that of the cycle
      have hleft : w'.rationale = (rationaleCode stdHash daemon.cycle).map fun evolvedCode =>
          rationaleText (mutationIdOf stdHash evolvedCode) := by
        have hcycleLeft : (endState (orchestrateEvolution stdHash daemon.cycle w)).rationale = _ :=
          rationale_orchestrateEvolution daemon.cycle w
        rw [hcycle, hrationale, Option.or_none] at hcycleLeft
        exact hcycleLeft
      rw [hleft, Option.isSome_map, Option.isSome_iff_exists]
      simp only [true_and, Bool.true_eq_false, false_or]
      refine and_congr_right fun _ => ⟨?_, ?_⟩
      · rintro ⟨evolvedCode, hcode⟩
        refine ⟨evolvedCode, hcode, ?_⟩
        unfold rationaleCode at hcode
        rw [Option.ite_none_right_eq_some] at hcode
        exact vetted_of_publishedCode hcode.2
      · rintro ⟨evolvedCode, hcode, -⟩
        exact ⟨evolvedCode, hcode⟩

/-- What the container of a cycle leaves whose code the analyzer rejects. -/
def rejectedFiles : List File :=
  [⟨metaPlace "status.json".toList, statusText ⟨Pipeline.published, []⟩⟩]

/-- A rejected run fails the step. -/
theorem step_succeeds_iff_rejected :
    ¬ ∃ staged, sandboxStep ⟨true, recordedOutcome, true⟩ rejectedFiles = some staged := by
  have hiff := step_succeeds_iff (fun _ => 7) (.working forgedCode) (World.fresh none)
    ⟨true, recordedOutcome, true⟩ rejectedFiles rfl rfl ⟨by decide, by decide⟩
    ⟨by decide +kernel, by decide +kernel⟩ (fun _ => by decide +kernel)
  rw [hiff]
  rintro ⟨-, hstopped | ⟨-, evolvedCode, hcode, -⟩⟩
  · exact absurd hstopped (by decide)
  · have hnone : rationaleCode (fun _ => 7) (DaemonEnv.working forgedCode).cycle = none := by
      decide +kernel
    exact absurd (hnone.symm.trans hcode) (by simp)

end Swayam.Publication
