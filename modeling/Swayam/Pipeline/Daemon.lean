import Swayam.Pipeline.Supervisor

/-!
# SWAYAM — `main`

The daemon runs one cycle and writes a last status behind it. CI publishes or
drops the mutation by the outcome that `meta/status.json` ends up with. A run has
three writers there: the mutation, when it is executed, the cycle, and main
behind both; the last of them that opens the file decides what is in it. The
outcome is the string behind the head of the file, also where what follows it is
cut off. A run that is killed from outside is not among the runs here.

* `statusTruthful_iff` — a run leaves `published` exactly when it has published,
  and `quarantined` otherwise, if and only if its environment meets
  `StatusAgrees`: main writes `published` whenever its cycle returns, also when
  the cycle has just written `quarantined`.
-/

namespace Swayam.Pipeline

open Stages

structure DaemonEnv where
  sigaction : Bool                   -- both signals are hooked
  lockOpens : Bool
  flock     : Bool
  setup     : Except Fault Unit      -- `core_guard` and `base_algorithm` are constructed
  running   : Bool                   -- `daemon_running`, when the loop tests it
  cycle     : CycleEnv
  status    : StatusCall             -- the one `write_status` of main

/-- `write_status` of `main.cpp` -/
def DaemonEnv.writeStatus (env : DaemonEnv) (outcome reason : Text) : M Unit :=
  writeStatusFile env.status outcome reason

/-- A status and an exit code. -/
def DaemonEnv.exit (env : DaemonEnv) (outcome reason : Text) (code : Nat) : M Nat := do
  env.writeStatus outcome reason
  pure code

/-- The body of the loop with its two handlers, and what follows it: every way through the
body leaves the loop, with `evolution_succeeded` set if the cycle has returned. -/
def runCycleWith (program : Program) (stdHash : StdHash) (env : DaemonEnv) : M Nat := fun w =>
  match orchestrateEvolutionWith program stdHash env.cycle w with
  -- `evolution_succeeded`: the cycle has returned, published or not
  | .ok _ w' => env.exit (ascii "published") [] 0 w'
  | .error (.exception what) w' => env.exit (ascii "quarantined") what 1 w'
  | .error .unknown w' => env.exit (ascii "quarantined") (ascii "unknown exception") 1 w'
  | .error .terminate w' => .error .terminate w'

/-- `main`, with its exit code, when this is the program that the forged code is compiled to. An
exception that leaves it terminates the process. -/
def mainWith (program : Program) (stdHash : StdHash) (env : DaemonEnv) : M Nat := do
  if env.sigaction = false then env.exit (ascii "quarantined") (ascii "signal hook failure") 1
  else if env.lockOpens = false then
    env.exit (ascii "quarantined") (ascii "lock file inaccessible") 1
  else if env.flock = false then
    env.exit (ascii "quarantined") (ascii "concurrent instance detected") 1
  else do
    call env.setup
    -- a signal before the first cycle
    if env.running = false then
      env.exit (ascii "quarantined") (ascii "daemon stopped before completion") 0
    else runCycleWith program stdHash env

/-- The run of a mutation that leaves the files alone. -/
def runCycle (stdHash : StdHash) (env : DaemonEnv) : M Nat := runCycleWith .harmless stdHash env

def main (stdHash : StdHash) (env : DaemonEnv) : M Nat := mainWith .harmless stdHash env

/-- A cycle and the status that main writes behind it, by how the cycle ends. -/
theorem runCycle_run (stdHash : StdHash) (env : DaemonEnv) (w : World) :
    runCycle stdHash env w =
      match orchestrateEvolution stdHash env.cycle w with
      | .ok _ w' => env.exit (ascii "published") [] 0 w'
      | .error (.exception what) w' => env.exit (ascii "quarantined") what 1 w'
      | .error .unknown w' => env.exit (ascii "quarantined") (ascii "unknown exception") 1 w'
      | .error .terminate w' => .error .terminate w' := rfl

/-! ## The last outcome -/

/-- The last outcome is `published` if and only if the run has published; a run that has
not, and has written the file, leaves `quarantined`. -/
def StatusTruthful (w : World) : Prop :=
  (lastOutcome w = some published ↔ w.published = true) ∧
  (w.published = false → w.statusFile ≠ none → lastOutcome w = some quarantined)

instance (w : World) : Decidable (StatusTruthful w) := inferInstanceAs (Decidable (_ ∧ _))

/-- A world at the start of a run. -/
def World.start (w : World) : World :=
  { w with statuses := [], statusFile := none, published := false }

/-- The run gets as far as its cycle. -/
def DaemonEnv.ReachesCycle (env : DaemonEnv) : Prop :=
  env.sigaction = true ∧ env.lockOpens = true ∧ env.flock = true ∧ env.setup = .ok () ∧
    env.running = true

/-- An exception leaves main in front of the loop. -/
def DaemonEnv.SetupThrows (env : DaemonEnv) : Prop :=
  env.sigaction = true ∧ env.lockOpens = true ∧ env.flock = true ∧ ∃ f, env.setup = .error f

/-- The program, if it is executed, writes nothing to the file but `quarantined`. -/
def SparesStatus (program : Program) (stdHash : StdHash) (env : CycleEnv) : Prop :=
  (∃ evolvedCode, env.Executes stdHash evolvedCode) → ∀ file, program.status = some file →
    recordedOutcome file = some quarantined

/-- The program is executed, and writes `published` to it. -/
def WritesPublished (program : Program) (stdHash : StdHash) (env : CycleEnv) : Prop :=
  (∃ evolvedCode, env.Executes stdHash evolvedCode) ∧
    ∃ file, program.status = some file ∧ recordedOutcome file = some published

/-- The file is right behind main's handlers, which write `quarantined`; a process that is
terminated gets to none. -/
def DaemonEnv.RightBehindFault (env : DaemonEnv) (hasPublished : Bool) (before : Prop)
    (f : Fault) : Prop :=
  match f with
  | .terminate => before
  | _ =>
    if hasPublished then env.status.write = .unopened ∧ before
    else env.status.write.Names quarantined before

/-- It is right behind a cycle that ends in its status, and main's `published` behind that. -/
def DaemonEnv.RightBehindCycle (env : DaemonEnv) (hasPublished : Bool) (before : Prop) : Prop :=
  let own := env.cycle.status.write.Names (if hasPublished then published else quarantined) before
  match env.cycle.status.throws with
  | some f => env.RightBehindFault hasPublished own f
  | none =>
    if hasPublished then env.status.write.Names published own
    else env.status.write = .unopened ∧ own

/-- When the status tells the truth. -/
def StatusAgrees (program : Program) (stdHash : StdHash) (env : DaemonEnv) : Prop :=
  (¬ env.ReachesCycle → env.SetupThrows ∨ env.status.write.Names quarantined True) ∧
  (env.ReachesCycle →
    match cycleGate stdHash env.cycle with
    | .fault f => env.RightBehindFault false (SparesStatus program stdHash env.cycle) f
    | .stop => env.RightBehindCycle false (SparesStatus program stdHash env.cycle)
    | .pass =>
      match firstObstacle (assimilateGates env.cycle) with
      | .fault f => env.RightBehindFault true (WritesPublished program stdHash env.cycle) f
      | _ => env.RightBehindCycle true (WritesPublished program stdHash env.cycle))

/-! ## Writes -/

theorem published_ne_quarantined : published ≠ quarantined := by decide

/-- What is right behind a publication. -/
theorem statusTruthful_of_published {w : World} (h : w.published = true) :
    StatusTruthful w ↔ lastOutcome w = some published := by
  rw [StatusTruthful, h]
  simp

/-- And without one. -/
theorem statusTruthful_of_unpublished {w : World} (h : w.published = false) :
    StatusTruthful w ↔ (w.statusFile ≠ none → lastOutcome w = some quarantined) := by
  rw [StatusTruthful, h]
  refine ⟨fun htruthful => htruthful.2 rfl, fun hright => ⟨?_, fun _ => hright⟩⟩
  -- a file that records anything exists
  simp only [Bool.false_eq_true, iff_false]
  intro hpublished
  have hfile : w.statusFile ≠ none := by
    intro hnone
    rw [lastOutcome, hnone] at hpublished
    exact absurd hpublished (by simp)
  exact published_ne_quarantined (Option.some.inj (hpublished.symm.trans (hright hfile)))

/-- **The right outcome**, written behind what there is. -/
theorem statusTruthful_leave_right {outcome : Text} {w : World}
    (houtcome : outcome = if w.published then published else quarantined) (write : StatusWrite)
    (reason : Text) : StatusTruthful (write.leave ⟨outcome, reason⟩ w) ↔
      write.Names outcome (StatusTruthful w) := by
  have hsame : (write.leave ⟨outcome, reason⟩ w).published = w.published := by
    cases write <;> rfl
  cases hpublished : w.published with
  | true =>
    rw [hpublished, if_pos rfl] at houtcome
    subst houtcome
    rw [statusTruthful_of_published (hsame.trans hpublished),
      statusTruthful_of_published hpublished]
    exact outcome_leave_iff (Or.inl rfl) write reason w
  | false =>
    rw [hpublished, if_neg (by simp)] at houtcome
    subst houtcome
    cases write with
    | unopened => exact Iff.rfl
    | lands =>
      rw [statusTruthful_of_unpublished (hsame.trans hpublished)]
      exact iff_of_true
        (fun _ => (outcome_leave_iff (Or.inr rfl) .lands reason w).mpr trivial) trivial
    | cut n =>
      -- the file exists, so it has to record the outcome
      rw [statusTruthful_of_unpublished (hsame.trans hpublished)]
      have hfile : (StatusWrite.leave (.cut n) ⟨quarantined, reason⟩ w).statusFile ≠ none :=
        Option.some_ne_none _
      rw [forall_prop_of_true hfile]
      exact outcome_leave_iff (Or.inr rfl) (.cut n) reason w

/-- **The wrong one**: the file has to be right already, and not to open. -/
theorem statusTruthful_leave_wrong {outcome : Text} {w : World}
    (houtcome : outcome = if w.published then quarantined else published) (write : StatusWrite)
    (reason : Text) : StatusTruthful (write.leave ⟨outcome, reason⟩ w) ↔
      write = .unopened ∧ StatusTruthful w := by
  have hsame : (write.leave ⟨outcome, reason⟩ w).published = w.published := by
    cases write <;> rfl
  cases hpublished : w.published with
  | true =>
    rw [hpublished, if_pos rfl] at houtcome
    subst houtcome
    rw [statusTruthful_of_published (hsame.trans hpublished),
      statusTruthful_of_published hpublished]
    exact outcome_leave_other (Or.inr rfl) (Or.inl rfl) published_ne_quarantined.symm write reason w
  | false =>
    rw [hpublished, if_neg (by simp)] at houtcome
    subst houtcome
    by_cases hunopened : write = .unopened
    · subst hunopened
      exact (and_iff_right rfl).symm
    · -- any write that opens the file leaves one that is wrong
      have hfile : (write.leave ⟨published, reason⟩ w).statusFile ≠ none := by
        cases write with
        | unopened => exact absurd rfl hunopened
        | lands => exact Option.some_ne_none _
        | cut n => exact Option.some_ne_none _
      rw [statusTruthful_of_unpublished (hsame.trans hpublished), forall_prop_of_true hfile,
        outcome_leave_other (Or.inl rfl) (Or.inr rfl) published_ne_quarantined]
      exact iff_of_false (fun h => hunopened h.1) fun h => hunopened h.1

/-- The world behind a last write of main. -/
theorem endState_exit (env : DaemonEnv) (outcome reason : Text) (code : Nat) (w : World) :
    endState (env.exit outcome reason code w) = env.status.write.leave ⟨outcome, reason⟩ w := by
  unfold DaemonEnv.exit DaemonEnv.writeStatus writeStatusFile
  cases env.status.throws <;> rfl

/-- The cycle's own write, when it returns. -/
theorem writeStatus_returns {env : CycleEnv} (h : env.status.throws = none)
    (outcome reason : Text) (w : World) : env.writeStatus outcome reason w =
      .ok () (env.status.write.leave ⟨outcome, reason⟩ w) := by
  unfold CycleEnv.writeStatus writeStatusFile
  rw [h]
  rfl

/-- And when it throws. -/
theorem writeStatus_throws {env : CycleEnv} {f : Fault} (h : env.status.throws = some f)
    (outcome reason : Text) (w : World) : env.writeStatus outcome reason w =
      .error f (env.status.write.leave ⟨outcome, reason⟩ w) := by
  unfold CycleEnv.writeStatus writeStatusFile
  rw [h]
  rfl

/-! ## The ends of a cycle -/

section Ends

variable {program : Program} {stdHash : StdHash} {env : DaemonEnv} {w w' : World}

/-- A cycle that throws, with what is then in the file. -/
theorem statusTruthful_of_fault {f : Fault}
    (h : orchestrateEvolutionWith program stdHash env.cycle w = .error f w') :
    StatusTruthful (endState (runCycleWith program stdHash env w)) ↔
      env.RightBehindFault w'.published (StatusTruthful w') f := by
  -- both handlers write `quarantined`
  have hhandler : ∀ reason code,
      StatusTruthful (endState (env.exit (ascii "quarantined") reason code w')) ↔
        if w'.published then env.status.write = .unopened ∧ StatusTruthful w'
        else env.status.write.Names quarantined (StatusTruthful w') := by
    intro reason code
    rw [endState_exit]
    cases hpublished : w'.published with
    | true =>
      rw [if_pos rfl]
      exact statusTruthful_leave_wrong (by rw [hpublished]; rfl) _ reason
    | false =>
      rw [if_neg (by simp)]
      exact statusTruthful_leave_right (by rw [hpublished]; rfl) _ reason
  unfold runCycleWith
  rw [h]
  cases f with
  | exception what => exact hhandler what 1
  | unknown => exact hhandler (ascii "unknown exception") 1
  | terminate => exact Iff.rfl

/-- A cycle that returns: main writes `published` behind whatever it has written. -/
theorem statusTruthful_of_return
    (h : orchestrateEvolutionWith program stdHash env.cycle w = .ok () w') :
    StatusTruthful (endState (runCycleWith program stdHash env w)) ↔
      if w'.published then env.status.write.Names published (StatusTruthful w')
      else env.status.write = .unopened ∧ StatusTruthful w' := by
  unfold runCycleWith
  rw [h]
  show StatusTruthful (endState (env.exit (ascii "published") [] 0 w')) ↔ _
  rw [endState_exit]
  cases hpublished : w'.published with
  | true =>
    rw [if_pos rfl]
    exact statusTruthful_leave_right (by rw [hpublished]; rfl) _ []
  | false =>
    rw [if_neg (by simp)]
    exact statusTruthful_leave_wrong (by rw [hpublished]; rfl) _ []

/-- **A cycle that ends in its status**, the right one. -/
theorem statusTruthful_of_status {outcome reason : Text}
    (h : orchestrateEvolutionWith program stdHash env.cycle w =
      env.cycle.writeStatus outcome reason w')
    (houtcome : outcome = if w'.published then published else quarantined) :
    StatusTruthful (endState (runCycleWith program stdHash env w)) ↔
      env.RightBehindCycle w'.published (StatusTruthful w') := by
  have hown : StatusTruthful (env.cycle.status.write.leave ⟨outcome, reason⟩ w') ↔
      env.cycle.status.write.Names (if w'.published then published else quarantined)
        (StatusTruthful w') := by
    rw [← houtcome]
    exact statusTruthful_leave_right houtcome _ reason
  have hsame : (env.cycle.status.write.leave ⟨outcome, reason⟩ w').published = w'.published := by
    cases env.cycle.status.write <;> rfl
  unfold DaemonEnv.RightBehindCycle
  cases hthrows : env.cycle.status.throws with
  | some f =>
    rw [writeStatus_throws hthrows] at h
    rw [statusTruthful_of_fault h, hown, hsame]
  | none =>
    rw [writeStatus_returns hthrows] at h
    rw [statusTruthful_of_return h, hown, hsame]

/-! ## What the program leaves -/

/-- The file in front of the run's own writes, when it has not published. -/
theorem statusTruthful_of_executed (hexecuted : Executed program stdHash env.cycle w.start w') :
    StatusTruthful w' ↔ SparesStatus program stdHash env.cycle := by
  obtain ⟨-, hpublished, hwritten, hkept⟩ := hexecuted
  rw [statusTruthful_of_unpublished hpublished, SparesStatus, lastOutcome]
  by_cases hexecutes : ∃ evolvedCode, env.cycle.Executes stdHash evolvedCode
  · rw [hwritten hexecutes, forall_prop_of_true hexecutes]
    show (program.status.or none ≠ none → (program.status.or none).bind recordedOutcome = _) ↔ _
    rw [Option.or_none]
    cases program.status with
    | none => simp
    | some file => simp
  · rw [hkept hexecutes]
    exact iff_of_true (fun hfile => absurd rfl hfile) fun h => absurd h hexecutes

/-- And when it has. -/
theorem outcome_of_executed (hexecuted : Executed program stdHash env.cycle w.start w') :
    lastOutcome w' = some published ↔ WritesPublished program stdHash env.cycle := by
  obtain ⟨-, -, hwritten, hkept⟩ := hexecuted
  rw [WritesPublished, lastOutcome]
  by_cases hexecutes : ∃ evolvedCode, env.cycle.Executes stdHash evolvedCode
  · rw [hwritten hexecutes, and_iff_right hexecutes]
    show (program.status.or none).bind recordedOutcome = _ ↔ _
    rw [Option.or_none, Option.bind_eq_some_iff]
  · rw [hkept hexecutes]
    exact iff_of_false (fun h => absurd h (by simp [World.start])) fun h => hexecutes h.1

/-! ## Runs of main -/

/-- A run that does not get to its cycle writes `quarantined`, unless its set-up throws. -/
theorem mainWith_of_not_reached (hreached : ¬ env.ReachesCycle) :
    (env.SetupThrows ∧ endState (mainWith program stdHash env w) = w) ∨
      (¬ env.SetupThrows ∧ ∃ reason code, endState (mainWith program stdHash env w) =
        endState (env.exit (ascii "quarantined") reason code w)) := by
  unfold mainWith
  by_cases hsigaction : env.sigaction = false
  · rw [if_pos hsigaction]
    refine Or.inr ⟨fun h => ?_, _, _, rfl⟩
    exact absurd (hsigaction.symm.trans h.1) (by simp)
  rw [if_neg hsigaction]
  by_cases hlock : env.lockOpens = false
  · rw [if_pos hlock]
    refine Or.inr ⟨fun h => ?_, _, _, rfl⟩
    exact absurd (hlock.symm.trans h.2.1) (by simp)
  rw [if_neg hlock]
  by_cases hflock : env.flock = false
  · rw [if_pos hflock]
    refine Or.inr ⟨fun h => ?_, _, _, rfl⟩
    exact absurd (hflock.symm.trans h.2.2.1) (by simp)
  rw [if_neg hflock]
  rw [Bool.not_eq_false] at hsigaction hlock hflock
  cases hsetup : env.setup with
  | error f => exact Or.inl ⟨⟨hsigaction, hlock, hflock, f, hsetup⟩, rfl⟩
  | ok u =>
    -- every test in front is passed, so the loop is not entered
    have hstopped : env.running = false := by
      by_contra hrunning
      rw [Bool.not_eq_false] at hrunning
      exact hreached ⟨hsigaction, hlock, hflock, hsetup, hrunning⟩
    rw [if_pos hstopped]
    refine Or.inr ⟨?_, _, _, rfl⟩
    rintro ⟨-, -, -, f, hthrows⟩
    rw [hsetup] at hthrows
    exact absurd hthrows (by simp)

/-- A run that gets to its cycle is the cycle and what main writes behind it. -/
theorem mainWith_of_reached (hreached : env.ReachesCycle) :
    mainWith program stdHash env w = runCycleWith program stdHash env w := by
  obtain ⟨hsigaction, hlock, hflock, hsetup, hrunning⟩ := hreached
  unfold mainWith
  rw [hsigaction, hlock, hflock, hsetup, hrunning]
  rfl

/-- The same of a mutation that leaves the files alone. -/
theorem main_of_reached (hreached : env.ReachesCycle) :
    main stdHash env w = runCycle stdHash env w :=
  mainWith_of_reached hreached

/-- A run that does not get there writes `quarantined`, if anything. -/
theorem main_of_not_reached (hreached : ¬ env.ReachesCycle) :
    endState (main stdHash env w) = w ∨
      ∃ reason code, endState (main stdHash env w) =
        endState (env.exit (ascii "quarantined") reason code w) := by
  rcases mainWith_of_not_reached hreached with ⟨-, hend⟩ | ⟨-, hend⟩
  · exact Or.inl hend
  · exact Or.inr hend

end Ends

/-- **When `status.json` tells the truth.** For every program that the forged code may be and every
environment, the outcome that a run of main leaves is right if and only if they meet
`StatusAgrees`. -/
theorem statusTruthful_iff (program : Program) (stdHash : StdHash) (env : DaemonEnv) (w : World) :
    StatusTruthful (endState (mainWith program stdHash env w.start)) ↔
      StatusAgrees program stdHash env := by
  by_cases hreached : env.ReachesCycle
  · rw [mainWith_of_reached hreached, StatusAgrees, forall_prop_of_true hreached,
      and_iff_right fun hnot => absurd hreached hnot]
    -- up to what the gate says, only the program has written to the file
    obtain ⟨w', hexecuted, hcycle⟩ :=
      orchestrateEvolutionWith_meets program stdHash env.cycle w.start
    have hunpublished : w'.published = false := hexecuted.2.1
    cases hgate : cycleGate stdHash env.cycle with
    | fault f =>
      rw [hgate] at hcycle
      rw [statusTruthful_of_fault hcycle, hunpublished, statusTruthful_of_executed hexecuted]
    | stop =>
      rw [hgate] at hcycle
      obtain ⟨_, ⟨reason, rfl⟩, hrun⟩ := hcycle
      rw [statusTruthful_of_status hrun (by rw [hunpublished]; rfl), hunpublished,
        statusTruthful_of_executed hexecuted]
    | pass =>
      rw [hgate] at hcycle
      obtain ⟨_, ⟨evolvedCode, rfl⟩, hrun⟩ := hcycle
      obtain ⟨w₁, -, hpublished, hfile, hassimilate⟩ :=
        assimilate_meets stdHash env.cycle evolvedCode w'
      rw [← hrun] at hassimilate
      have hleft : StatusTruthful w₁ ↔ WritesPublished program stdHash env.cycle := by
        rw [statusTruthful_of_published hpublished, lastOutcome, hfile]
        exact outcome_of_executed hexecuted
      cases hbehind : firstObstacle (assimilateGates env.cycle) with
      | fault f =>
        rw [hbehind] at hassimilate
        rw [statusTruthful_of_fault hassimilate, hpublished, hleft]
      | stop =>
        rw [hbehind] at hassimilate
        exact hassimilate.elim
      | pass =>
        rw [hbehind] at hassimilate
        rw [statusTruthful_of_status hassimilate (by rw [hpublished]; rfl), hpublished, hleft]
  · rw [StatusAgrees, forall_prop_of_true hreached, and_iff_left fun h => absurd h hreached]
    have htrue : StatusTruthful w.start :=
      (statusTruthful_of_unpublished rfl).mpr fun hfile => absurd rfl hfile
    have hend : (env.SetupThrows ∧ endState (mainWith program stdHash env w.start) = w.start) ∨
        (¬ env.SetupThrows ∧ ∃ reason code, endState (mainWith program stdHash env w.start) =
          endState (env.exit (ascii "quarantined") reason code w.start)) :=
      mainWith_of_not_reached hreached
    rcases hend with ⟨hthrows, hend⟩ | ⟨hreturns, reason, code, hend⟩
    · rw [hend]
      exact iff_of_true htrue (Or.inl hthrows)
    · rw [hend, endState_exit, or_iff_right hreturns, ← iff_of_true htrue trivial]
      exact statusTruthful_leave_right rfl env.status.write reason

/-- A run in which nothing fails, with this code from the forge. -/
def DaemonEnv.working (evolvedCode : Text) : DaemonEnv where
  sigaction := true
  lockOpens := true
  flock := true
  setup := .ok ()
  running := true
  status := ⟨.lands, none⟩
  cycle :=
    { createVault := .ok true
      forge := .ok evolvedCode
      analyzer := .ok ()
      telemetry := .ok ()
      targetOpens := .ok true
      targetBytes := none
      runner := .working ⟨false, true, []⟩
      rationale := .ok true
      git := ⟨.ok true, .ok true, .ok true, .ok true, .ok true, .ok true, .ok true, .ok true⟩
      hive := some .clean
      status := ⟨.lands, none⟩ }

/-- What the forge makes of the base algorithm of main, which has no exception handling. -/
def forgedCode : Text :=
  ascii "#include <fstream>\n#include <filesystem>\n#include <system_error>\nint main() \x7b" ++
  ascii "\n    // [SWAYAM-SYNTH] Neural Polymorphic Shift Initiated\n" ++
  ascii "    // [SWAYAM-SENTIENCE] Target Alpha: OS Memory Footprint Scan\n" ++
  ascii "    [[maybe_unused]] long _recon_stat_2A = 0;\n" ++
  ascii "    std::ifstream _swayam_proc(\"/proc/self/statm\");\n" ++
  ascii "    if(_swayam_proc.is_open()) \x7b _swayam_proc >> _recon_stat_2A;" ++
  ascii " _swayam_proc.close(); \x7d\n" ++
  ascii "\n    // [SWAYAM_BASE_GENOME]\n    return 0;\n\x7d\n// [EVO-GENOME-ID: 0x42]\n"

example : StatusTruthful
    (endState (main (fun _ => 7) (.working acceptedSource) (World.fresh none).start)) := by
  decide

/-- **A rejected mutation is reported as published**: the analyzer rejects the code, the
cycle writes `quarantined` and returns, and main writes `published`. -/
theorem statusTruthful_fails_on_rejection :
    ¬ ∀ (program : Program) (stdHash : StdHash) (env : DaemonEnv) (w : World),
        StatusTruthful (endState (mainWith program stdHash env w.start)) := by
  intro h
  exact absurd (h .harmless (fun _ => 7) (.working forgedCode) (World.fresh none))
    (by decide +kernel)

end Swayam.Pipeline
