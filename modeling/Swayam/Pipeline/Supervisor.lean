import Swayam.Pipeline.StatusFile

/-!
# SWAYAM — `Supervisor`, `GitCortex`

One cycle: `orchestrate_evolution`, from the forge to the push, with the status
it writes at each of its exits. A cycle either stops at one of the stages of
`cycleGate` and writes `quarantined`, or passes them all — then, and only then,
`publish_evolution` has returned true, and it goes on to `assimilate`.

Taken as given:

* every call answers what the environment of the cycle says; the mutation that it
  executes is any `Program` in `orchestrateEvolutionWith`, and one that leaves the
  files alone in `orchestrateEvolution`;
* the git commands are put on record, and their effect on the branches is that of
  `GitCortex.lean`. Their effect on the files is left out: behind a published cycle
  `generated` still holds the candidate, which `git checkout main` takes out of the
  working tree.

* `orchestrateEvolution_meets` — the cycle does what its gate says, and has
  written no status before.
-/

namespace Swayam.Pipeline

open Stages

/-! ## The environment of a cycle -/

/-- The exit status 0 of each git command that a cycle may run, in the order of the code,
unless the call throws. -/
structure GitEnv where
  checkout     : Except Fault Bool
  add          : Except Fault Bool
  commit       : Except Fault Bool
  push         : Except Fault Bool
  checkoutMain : Except Fault Bool
  syncAdd      : Except Fault Bool
  syncCommit   : Except Fault Bool
  syncPush     : Except Fault Bool

structure CycleEnv where
  createVault : Except Fault Bool       -- `create_directories` of `src/generated`
  forge       : Except Fault Text       -- the code of `evolve_codebase`
  analyzer    : Except Fault Unit       -- `evaluate_mutation` returns
  telemetry   : Except Fault Unit       -- `transmit_telemetry` returns
  targetOpens : Except Fault Bool
  targetBytes : Option Nat              -- what of the code reaches the file (`none`: all)
  runner      : RunnerEnv
  rationale   : Except Fault Bool       -- `rationale.md` opens
  git         : GitEnv
  hive        : Option LedgerWriteIO    -- of `register_mutation_hash`, unless it terminates
  status      : StatusCall              -- the one `write_status` of the cycle

/-! ## Status and rationale -/

/-- A write of `meta/status.json`, and what it throws. -/
def writeStatusFile (status : StatusCall) (outcome reason : Text) : M Unit := do
  change (status.write.leave ⟨outcome, reason⟩)
  call (status.throws.elim (.ok ()) .error)

/-- The world behind it, whether or not it throws. -/
theorem endState_writeStatusFile (status : StatusCall) (outcome reason : Text) (w : World) :
    endState (writeStatusFile status outcome reason w) =
      status.write.leave ⟨outcome, reason⟩ w := by
  unfold writeStatusFile
  cases status.throws <;> rfl

/-- `Supervisor::write_status` -/
def CycleEnv.writeStatus (env : CycleEnv) (outcome reason : Text) : M Unit :=
  writeStatusFile env.status outcome reason

/-- What `write_rationale` writes. -/
def rationaleText (mutationId : Text) : Text :=
  ascii "# Mutation Rationale\n\n" ++
  ascii "**Mutation ID:** " ++ mutationId ++ ascii "\n\n" ++
  ascii "Mutation passed all security phases " ++
  ascii "and sandbox execution.\n" ++
  ascii "Approved for autonomous assimilation.\n"

/-- `Supervisor::write_rationale` -/
def writeRationale (env : CycleEnv) (mutationId : Text) : M Unit := do
  let opens ← call env.rationale
  if opens then change fun w => { w with rationale := some (rationaleText mutationId) }
  else pure ()

/-! ## `GitCortex` -/

def workspace : Text := ascii "/home/swayam_agent/workspace"

/-- The arguments that git gets. -/
def gitArgs (args : List Text) : List Text := [ascii "git", ascii "-C", workspace] ++ args

/-- `GitCortex::execute_git_command` -/
def executeGitCommand (answer : Except Fault Bool) (args : List Text) : M Bool := do
  let success ← call answer
  change fun w => { w with git := w.git ++ [gitArgs args] }
  pure success

def stagingBranch : Text := ascii "evolution-staging"

/-- `GitCortex::publish_evolution` -/
def publishEvolution (env : GitEnv) (mutationId filePath : Text) : M Bool := do
  if ← executeGitCommand env.checkout [ascii "checkout", ascii "-B", stagingBranch] then
    if ← executeGitCommand env.add [ascii "add", filePath] then
      if ← executeGitCommand env.commit [ascii "commit", ascii "-m",
          ascii "[SWAYAM-AGI] Autonomous Phase Shift | ID: " ++ mutationId] then
        if ← executeGitCommand env.push [ascii "push", ascii "-u", ascii "origin",
            stagingBranch] then
          -- pushed: whether main is checked out again is not looked at
          let _ ← executeGitCommand env.checkoutMain [ascii "checkout", ascii "main"]
          pure true
        else pure false
      else pure false
    else pure false
  else pure false

/-- `GitCortex::sync_ledgers` -/
def syncLedgers (env : GitEnv) : M Unit := do
  let _ ← executeGitCommand env.syncAdd
    [ascii "add", ascii ".swayam_quarantine.ledger", ascii ".swayam_hive.ledger"]
  let _ ← executeGitCommand env.syncCommit
    [ascii "commit", ascii "-m", ascii "[SWAYAM-AGI] Ledger Sync: Core Memory Updated"]
  let _ ← executeGitCommand env.syncPush [ascii "push", ascii "origin", ascii "main"]
  pure ()

/-- A `noexcept` function: it returns or terminates. -/
def CycleEnv.hiveCall (env : CycleEnv) : Except Fault LedgerWriteIO :=
  env.hive.elim (.error .terminate) .ok

/-- Whether `sync_ledgers` returns: its commands may fail, but not throw. -/
def GitEnv.syncCall (env : GitEnv) : Except Fault Unit := do
  let _ ← env.syncAdd
  let _ ← env.syncCommit
  let _ ← env.syncPush
  pure ()

/-- `HiveMind::register_mutation_hash` -/
def registerMutationHash (env : CycleEnv) (hashStr : Text) : M Unit := do
  let io ← call env.hiveCall
  change fun w => { w with hive := appendToLedger io (hashStr ++ [newline]) w.hive }

/-! ## `orchestrate_evolution` -/

/-- `"EVO_" + std::to_string(std::hash<std::string>{}(evolved_code))` -/
def mutationIdOf (stdHash : StdHash) (evolvedCode : Text) : Text :=
  ascii "EVO_" ++ decimal (stdHash evolvedCode).toNat

/-- `vault_path + "/mut_" + mutation_id + ".cpp"` -/
def targetFile (mutationId : Text) : Text :=
  workspace ++ ascii "/src/generated/" ++ sourceName mutationId

/-- What follows when `publish_evolution` has returned true. -/
def assimilate (stdHash : StdHash) (env : CycleEnv) (evolvedCode : Text) : M Unit := do
  -- the record of the run, not an effect of the program
  change fun w => { w with published := true }
  registerMutationHash env (decimal (stdHash evolvedCode).toNat)
  call env.telemetry
  syncLedgers env.git
  env.writeStatus (ascii "published") []

/-- What follows the runner. -/
def concludeEvolution (stdHash : StdHash) (env : CycleEnv) (evolvedCode : Text)
    (success : Bool) : M Unit :=
  let mutationId := mutationIdOf stdHash evolvedCode
  if success then do
    writeRationale env mutationId
    if ← publishEvolution env.git mutationId (targetFile mutationId) then
      assimilate stdHash env evolvedCode
    else env.writeStatus (ascii "quarantined") (ascii "git upload failed")
  else env.writeStatus (ascii "quarantined") (ascii "sandbox execution failed")

/-- The cycle from its analysis on. -/
def evaluateEvolutionWith (program : Program) (stdHash : StdHash) (env : CycleEnv)
    (evolvedCode : Text) : M Unit := do
  let mutationId := mutationIdOf stdHash evolvedCode
  call env.analyzer
  let analysis := evaluateMutation evolvedCode
  if analysis.isSafe = false then do
    -- the rejection is reported before the status is written
    call env.telemetry
    env.writeStatus (ascii "quarantined") analysis.threatSignature
  else do
    let opens ← call env.targetOpens
    if opens = false then env.writeStatus (ascii "quarantined") (ascii "vault write failure")
    else do
      -- the stream is not looked at behind its opening
      let written := env.targetBytes.elim evolvedCode evolvedCode.take
      change fun w =>
        { w with generated := Function.update w.generated (targetFile mutationId) (some written) }
      let success ← evaluateAndExecuteWith program stdHash env.runner evolvedCode mutationId
      concludeEvolution stdHash env evolvedCode success

/-- `Supervisor::orchestrate_evolution`, when this is the program that the evolved code is
compiled to. -/
def orchestrateEvolutionWith (program : Program) (stdHash : StdHash) (env : CycleEnv) :
    M Unit := do
  let created ← call env.createVault
  if created = false then
    env.writeStatus (ascii "quarantined") (ascii "vault creation failed")
  else do
    let evolvedCode ← call env.forge
    evaluateEvolutionWith program stdHash env evolvedCode

/-- The cycle of a mutation that leaves the files alone. -/
def evaluateEvolution (stdHash : StdHash) (env : CycleEnv) (evolvedCode : Text) : M Unit :=
  evaluateEvolutionWith .harmless stdHash env evolvedCode

def orchestrateEvolution (stdHash : StdHash) (env : CycleEnv) : M Unit :=
  orchestrateEvolutionWith .harmless stdHash env

/-- The evaluation of a code, written out, when its program leaves the files alone. -/
theorem evaluateEvolution_eq (stdHash : StdHash) (env : CycleEnv) (evolvedCode : Text) :
    evaluateEvolution stdHash env evolvedCode = (do
      let mutationId := mutationIdOf stdHash evolvedCode
      call env.analyzer
      let analysis := evaluateMutation evolvedCode
      if analysis.isSafe = false then do
        call env.telemetry
        env.writeStatus (ascii "quarantined") analysis.threatSignature
      else do
        let opens ← call env.targetOpens
        if opens = false then
          env.writeStatus (ascii "quarantined") (ascii "vault write failure")
        else do
          let written := env.targetBytes.elim evolvedCode evolvedCode.take
          change fun w => { w with
            generated := Function.update w.generated (targetFile mutationId) (some written) }
          if ← evaluateAndExecute stdHash env.runner evolvedCode mutationId then
            writeRationale env mutationId
            if ← publishEvolution env.git mutationId (targetFile mutationId) then
              assimilate stdHash env evolvedCode
            else env.writeStatus (ascii "quarantined") (ascii "git upload failed")
          else env.writeStatus (ascii "quarantined") (ascii "sandbox execution failed")) := rfl

/-- And the cycle around it. -/
theorem orchestrateEvolution_eq (stdHash : StdHash) (env : CycleEnv) :
    orchestrateEvolution stdHash env = (do
      let created ← call env.createVault
      if created = false then
        env.writeStatus (ascii "quarantined") (ascii "vault creation failed")
      else do
        let evolvedCode ← call env.forge
        evaluateEvolution stdHash env evolvedCode) := rfl

/-! ## Its gate -/

/-- The analysis, with the telemetry of a rejection. -/
def analysisGate (env : CycleEnv) (evolvedCode : Text) : Gate Fault :=
  if (evaluateMutation evolvedCode).isSafe then .pass else decides env.telemetry fun _ => .stop

def publishGates (env : GitEnv) : List (Gate Fault) :=
  [succeeds env.checkout, succeeds env.add, succeeds env.commit, succeeds env.push,
   returns env.checkoutMain]

/-- The stages from the analysis to the publication. -/
def evolutionGates (stdHash : StdHash) (env : CycleEnv) (evolvedCode : Text) :
    List (Gate Fault) :=
  [returns env.analyzer,
   analysisGate env evolvedCode,
   succeeds env.targetOpens,
   firstObstacle (runnerGates stdHash env.runner evolvedCode),
   returns env.rationale,
   firstObstacle (publishGates env.git)]

/-- What the environment makes of a cycle. It passes exactly when `publish_evolution`
returns true in it. -/
def cycleGate (stdHash : StdHash) (env : CycleEnv) : Gate Fault :=
  firstObstacle [succeeds env.createVault,
    decides env.forge fun evolvedCode => firstObstacle (evolutionGates stdHash env evolvedCode)]

/-- The stages behind a publication. -/
def assimilateGates (env : CycleEnv) : List (Gate Fault) :=
  [returns env.hiveCall, returns env.telemetry, returns env.git.syncCall]

/-! ## The cycle meets its gate -/

/-- The programs of a cycle that stops. -/
def Quarantines (env : CycleEnv) (x : M Unit) : Prop :=
  ∃ reason, x = env.writeStatus (ascii "quarantined") reason

/-- The programs of a cycle that publishes. -/
def Assimilates (stdHash : StdHash) (env : CycleEnv) (x : M Unit) : Prop :=
  ∃ evolvedCode, x = assimilate stdHash env evolvedCode

/-- An exit that writes `quarantined` is a stop. -/
theorem meets_quarantined {env : CycleEnv} {onPass : M Unit → Prop} (reason : Text) :
    Meets Silent onPass (Quarantines env) (env.writeStatus (ascii "quarantined") reason) .stop :=
  meets_stop silent_refl ⟨reason, rfl⟩

/-- A git command that has to succeed. -/
theorem executeGitCommand_answers (answer : Except Fault Bool) (args : List Text) :
    Answers Silent (executeGitCommand answer args) (succeeds answer) := by
  unfold executeGitCommand
  rw [← firstObstacle_singleton (succeeds answer)]
  refine meets_succeeds silent_refl ?_ ?_
  · exact meets_change silent_trans (fun _ => ⟨rfl, rfl, rfl⟩) answers_stop
  · exact meets_change silent_trans (fun _ => ⟨rfl, rfl, rfl⟩) (meets_pass silent_refl rfl)

/-- A git command whose result is not looked at. -/
theorem executeGitCommand_returns (answer : Except Fault Bool) (args : List Text) :
    Returns Silent (executeGitCommand answer args) answer := by
  unfold executeGitCommand
  exact returns_call silent_refl fun success w =>
    ⟨success, { w with git := w.git ++ [gitArgs args] }, ⟨rfl, rfl, rfl⟩, rfl⟩

/-- The rationale is written and leaves the status alone. -/
theorem writeRationale_returns (env : CycleEnv) (mutationId : Text) :
    Returns Silent (writeRationale env mutationId) env.rationale := by
  unfold writeRationale
  refine returns_call silent_refl fun opens w => ?_
  cases opens with
  | true => exact ⟨(), { w with rationale := some (rationaleText mutationId) }, ⟨rfl, rfl, rfl⟩, rfl⟩
  | false => exact ⟨(), w, silent_refl w, rfl⟩

/-- So does the registration of the hash. -/
theorem registerMutationHash_returns (env : CycleEnv) (hashStr : Text) :
    Returns Silent (registerMutationHash env hashStr) env.hiveCall := by
  unfold registerMutationHash
  exact returns_call silent_refl fun io w =>
    ⟨(), { w with hive := appendToLedger io (hashStr ++ [newline]) w.hive }, ⟨rfl, rfl, rfl⟩, rfl⟩

/-- **The publication succeeds exactly when its four commands do**, and the last one
returns. -/
theorem publishEvolution_answers (env : GitEnv) (mutationId filePath : Text) :
    Answers Silent (publishEvolution env mutationId filePath)
      (firstObstacle (publishGates env)) := by
  unfold publishEvolution publishGates
  -- checkout, add, commit, push: the first that fails stops
  refine meets_answers silent_trans (executeGitCommand_answers _ _) answers_stop ?_
  refine meets_answers silent_trans (executeGitCommand_answers _ _) answers_stop ?_
  refine meets_answers silent_trans (executeGitCommand_answers _ _) answers_stop ?_
  refine meets_answers silent_trans (executeGitCommand_answers _ _) answers_stop ?_
  exact meets_part silent_trans (executeGitCommand_returns _ _) fun _ => meets_pass silent_refl rfl

/-- What the analysis does with a code, in front of the rest of its cycle. -/
theorem meets_analysis {env : CycleEnv} {evolvedCode : Text} {x : M Unit}
    {onPass : M Unit → Prop} {gates : List (Gate Fault)}
    (h : Meets Silent onPass (Quarantines env) x (firstObstacle gates)) :
    Meets Silent onPass (Quarantines env)
      (if (evaluateMutation evolvedCode).isSafe = false then do
        call env.telemetry
        env.writeStatus (ascii "quarantined") (evaluateMutation evolvedCode).threatSignature
      else x)
      (firstObstacle (analysisGate env evolvedCode :: gates)) := by
  unfold analysisGate
  cases (evaluateMutation evolvedCode).isSafe with
  | true => exact h
  | false =>
    cases htelemetry : env.telemetry with
    | error f => exact meets_fault silent_refl f _
    | ok u => exact meets_quarantined (evaluateMutation evolvedCode).threatSignature

/-- **An evaluation** does what the gates of its stages say. -/
theorem evaluateEvolution_meets (stdHash : StdHash) (env : CycleEnv) (evolvedCode : Text) :
    Meets Silent (Assimilates stdHash env) (Quarantines env)
      (evaluateEvolution stdHash env evolvedCode)
      (firstObstacle (evolutionGates stdHash env evolvedCode)) := by
  rw [evaluateEvolution_eq]
  unfold evolutionGates
  refine meets_returns silent_refl fun _ _ => meets_analysis ?_
  refine meets_succeeds silent_refl (meets_quarantined _) ?_
  refine meets_change silent_trans (fun _ => ⟨rfl, rfl, rfl⟩) ?_
  -- the runner, the rationale, the publication
  refine meets_answers silent_trans
    (evaluateAndExecute_answers stdHash env.runner evolvedCode _) (meets_quarantined _) ?_
  refine meets_part silent_trans (writeRationale_returns env _) fun _ => ?_
  refine meets_answers silent_trans
    (publishEvolution_answers env.git _ _) (meets_quarantined _) ?_
  exact meets_pass silent_refl ⟨evolvedCode, rfl⟩

/-- **The cycle does what its gate says**, and has written no status before. -/
theorem orchestrateEvolution_meets (stdHash : StdHash) (env : CycleEnv) :
    Meets Silent (Assimilates stdHash env) (Quarantines env)
      (orchestrateEvolution stdHash env) (cycleGate stdHash env) := by
  rw [orchestrateEvolution_eq]
  unfold cycleGate
  refine meets_succeeds silent_refl (meets_quarantined _) ?_
  rw [firstObstacle_singleton]
  exact meets_decides silent_refl fun evolvedCode _ =>
    evaluateEvolution_meets stdHash env evolvedCode

/-- And the ledger sync. -/
theorem syncLedgers_returns (env : GitEnv) : Returns Silent (syncLedgers env) env.syncCall := by
  unfold syncLedgers GitEnv.syncCall
  refine returns_bind silent_trans (executeGitCommand_returns _ _) fun _ => ?_
  refine returns_bind silent_trans (executeGitCommand_returns _ _) fun _ => ?_
  refine returns_bind silent_trans (executeGitCommand_returns _ _) fun _ => ?_
  exact returns_pure silent_refl () ()

/-- **What follows a publication**, once it is on record: its status, unless something in
front of it throws. -/
theorem assimilate_meets (stdHash : StdHash) (env : CycleEnv) (evolvedCode : Text) (w : World) :
    ∃ w', w'.statuses = w.statuses ∧ w'.published = true ∧ w'.statusFile = w.statusFile ∧
      match firstObstacle (assimilateGates env) with
      | .pass => assimilate stdHash env evolvedCode w =
          env.writeStatus (ascii "published") [] w'
      | .stop => False
      | .fault f => assimilate stdHash env evolvedCode w = .error f w' := by
  -- part by part, against the gates in the same order
  have hmeets : Meets Silent (· = env.writeStatus (ascii "published") []) (fun _ => False) (do
      registerMutationHash env (decimal (stdHash evolvedCode).toNat)
      call env.telemetry
      syncLedgers env.git
      env.writeStatus (ascii "published") []) (firstObstacle (assimilateGates env)) := by
    unfold assimilateGates
    refine meets_part silent_trans (registerMutationHash_returns env _) fun _ => ?_
    refine meets_returns silent_refl fun _ _ => ?_
    refine meets_part silent_trans (syncLedgers_returns env.git) fun _ => ?_
    exact meets_pass silent_refl rfl
  obtain ⟨w', ⟨hstatuses, hpublished, hfile⟩, hrun⟩ := hmeets { w with published := true }
  refine ⟨w', hstatuses, hpublished, hfile, ?_⟩
  cases hgate : firstObstacle (assimilateGates env) with
  | pass =>
    rw [hgate] at hrun
    obtain ⟨_, rfl, hy⟩ := hrun
    exact hy
  | stop =>
    rw [hgate] at hrun
    obtain ⟨_, hfalse, -⟩ := hrun
    exact hfalse
  | fault f =>
    rw [hgate] at hrun
    exact hrun

/-! ## The executed program -/

/-- The cycle gets as far as executing the mutation. -/
structure CycleEnv.Executes (stdHash : StdHash) (env : CycleEnv) (evolvedCode : Text) : Prop where
  created  : env.createVault = .ok true
  forged   : env.forge = .ok evolvedCode
  analyzed : env.analyzer = .ok ()
  opened   : env.targetOpens = .ok true
  forked   : ForksMutation stdHash env.runner evolvedCode

/-- The record is left alone, and the status file is what the program, if it is executed, has
made of it. -/
def Executed (program : Program) (stdHash : StdHash) (env : CycleEnv) (w w' : World) : Prop :=
  w'.statuses = w.statuses ∧ w'.published = w.published ∧
    ((∃ evolvedCode, env.Executes stdHash evolvedCode) →
      w'.statusFile = program.status.or w.statusFile) ∧
    ((¬ ∃ evolvedCode, env.Executes stdHash evolvedCode) → w'.statusFile = w.statusFile)

section Execution

variable {stdHash : StdHash} {env : CycleEnv} {evolvedCode : Text}

/-- The stages that are left behind the execution. -/
def conclusionGates (env : CycleEnv) : List (Gate Fault) :=
  [firstObstacle [orBan env.runner (enforceTimeout env.runner.exec)],
   returns env.rationale,
   firstObstacle (publishGates env.git)]

/-- Behind the execution there are the last gates only. -/
theorem cycleGate_of_executes (h : env.Executes stdHash evolvedCode) :
    cycleGate stdHash env = firstObstacle (conclusionGates env) := by
  unfold cycleGate evolutionGates analysisGate
  rw [h.created, h.forged, h.analyzed, h.opened]
  dsimp only [decides]
  rw [h.forked.1.1.safe, runnerGates_of_forksMutation h.forked]
  exact firstObstacle_singleton _

/-- The candidate is in `src/generated`. -/
def candidateWritten (stdHash : StdHash) (env : CycleEnv) (evolvedCode : Text) (w : World) :
    World :=
  let target := targetFile (mutationIdOf stdHash evolvedCode)
  let written := env.targetBytes.elim evolvedCode evolvedCode.take
  { w with generated := Function.update w.generated target (some written) }

/-- Up to the runner an accepted code is written, and nothing else is done. -/
theorem orchestrateEvolutionWith_runner (program : Program) (hcreated : env.createVault = .ok true)
    (hforged : env.forge = .ok evolvedCode) (hanalyzed : env.analyzer = .ok ())
    (hsafe : (evaluateMutation evolvedCode).isSafe = true) (hopened : env.targetOpens = .ok true)
    (w : World) : orchestrateEvolutionWith program stdHash env w =
      (evaluateAndExecuteWith program stdHash env.runner evolvedCode
          (mutationIdOf stdHash evolvedCode) >>=
        concludeEvolution stdHash env evolvedCode) (candidateWritten stdHash env evolvedCode w) := by
  unfold orchestrateEvolutionWith evaluateEvolutionWith
  rw [hcreated, hforged, hanalyzed, hopened]
  show (if (evaluateMutation evolvedCode).isSafe = false then _ else _ : M Unit) _ = _
  rw [if_neg (by rw [hsafe]; simp)]
  rfl

/-- **A cycle that executes its mutation** goes on behind what the program leaves. -/
theorem orchestrateEvolutionWith_run (program : Program) (h : env.Executes stdHash evolvedCode)
    (w : World) : ∃ w₁, Silent (program.effect w) w₁ ∧
      orchestrateEvolutionWith program stdHash env w =
        (afterProgram stdHash env.runner evolvedCode (mutationIdOf stdHash evolvedCode) >>=
          concludeEvolution stdHash env evolvedCode) w₁ := by
  obtain ⟨vault, forks, hrun⟩ := run_of_forksMutation program (mutationIdOf stdHash evolvedCode)
    h.forked (candidateWritten stdHash env evolvedCode w)
  refine ⟨program.effect
    { candidateWritten stdHash env evolvedCode w with vault := vault, forks := forks },
    ⟨rfl, rfl, rfl⟩, ?_⟩
  rw [orchestrateEvolutionWith_runner program h.created h.forged h.analyzed h.forked.1.1.safe
    h.opened, bind_run, hrun, ← bind_run]

/-- Only the runner gets to see the program. -/
theorem evaluateEvolutionWith_of_not_forks (program : Program)
    (h : env.analyzer = .ok () → env.targetOpens = .ok true →
      ¬ ForksMutation stdHash env.runner evolvedCode) :
    evaluateEvolutionWith program stdHash env evolvedCode =
      evaluateEvolution stdHash env evolvedCode := by
  show _ = evaluateEvolutionWith .harmless stdHash env evolvedCode
  unfold evaluateEvolutionWith
  funext w
  cases hanalyzed : env.analyzer with
  | error f => simp only [bind_run, call]
  | ok u =>
    cases hopened : env.targetOpens with
    | error f =>
      simp only [bind_run, call]
      split <;> simp only [bind_run, call]
    | ok opens =>
      cases opens with
      | false =>
        simp only [bind_run, call]
        split <;> simp only [bind_run, call, if_true]
      | true =>
        have hforked := h hanalyzed hopened
        simp only [run_of_not_forksMutation program _ hforked,
          run_of_not_forksMutation .harmless _ hforked]

/-- **One that does not** is the cycle of a mutation that leaves the files alone. -/
theorem orchestrateEvolutionWith_of_not_executes (program : Program)
    (h : ¬ ∃ evolvedCode, env.Executes stdHash evolvedCode) :
    orchestrateEvolutionWith program stdHash env = orchestrateEvolution stdHash env := by
  show _ = orchestrateEvolutionWith .harmless stdHash env
  unfold orchestrateEvolutionWith
  funext w
  cases hcreated : env.createVault with
  | error f => simp only [bind_run, call]
  | ok created =>
    cases created with
    | false => simp only [bind_run, call, if_true]
    | true =>
      cases hforged : env.forge with
      | error f => simp only [bind_run, call, Bool.true_eq_false, if_false]
      | ok evolvedCode =>
        have hevolved : evaluateEvolutionWith program stdHash env evolvedCode =
            evaluateEvolutionWith .harmless stdHash env evolvedCode :=
          evaluateEvolutionWith_of_not_forks program fun hanalyzed hopened hforked =>
            h ⟨evolvedCode, hcreated, hforged, hanalyzed, hopened, hforked⟩
        simp only [bind_run, call, Bool.true_eq_false, if_false, hevolved]

/-- **What comes behind the execution** does what they say. -/
theorem concludeEvolution_meets (stdHash : StdHash) (env : CycleEnv) (evolvedCode : Text) :
    Meets Silent (Assimilates stdHash env) (Quarantines env)
      (afterProgram stdHash env.runner evolvedCode (mutationIdOf stdHash evolvedCode) >>=
        concludeEvolution stdHash env evolvedCode)
      (firstObstacle (conclusionGates env)) := by
  unfold conclusionGates
  refine meets_answers silent_trans (afterProgram_answers _ _ _ _) (meets_quarantined _) ?_
  show Meets Silent _ _ (writeRationale env _ >>= _) _
  refine meets_part silent_trans (writeRationale_returns env _) fun _ => ?_
  refine meets_answers silent_trans
    (publishEvolution_answers env.git _ _) (meets_quarantined _) ?_
  exact meets_pass silent_refl ⟨evolvedCode, rfl⟩

/-- **The cycle does what its gate says whatever its program does**, and in front of its status
the file is what the program has left. -/
theorem orchestrateEvolutionWith_meets (program : Program) (stdHash : StdHash) (env : CycleEnv) :
    Meets (Executed program stdHash env) (Assimilates stdHash env) (Quarantines env)
      (orchestrateEvolutionWith program stdHash env) (cycleGate stdHash env) := by
  intro w
  by_cases hexecutes : ∃ evolvedCode, env.Executes stdHash evolvedCode
  · obtain ⟨evolvedCode, h⟩ := hexecutes
    obtain ⟨w₁, hleft, hrun⟩ := orchestrateEvolutionWith_run program h w
    obtain ⟨w', hsilent, hmeets⟩ := concludeEvolution_meets stdHash env evolvedCode w₁
    obtain ⟨hstatuses, hpublished, hfile⟩ := silent_trans _ _ _ hleft hsilent
    rw [cycleGate_of_executes h, hrun]
    exact ⟨w', ⟨hstatuses, hpublished, fun _ => hfile, fun hnot => absurd ⟨_, h⟩ hnot⟩, hmeets⟩
  · rw [orchestrateEvolutionWith_of_not_executes program hexecutes]
    obtain ⟨w', ⟨hstatuses, hpublished, hfile⟩, hmeets⟩ := orchestrateEvolution_meets stdHash env w
    exact ⟨w', ⟨hstatuses, hpublished, fun h => absurd h hexecutes, fun _ => hfile⟩, hmeets⟩

end Execution

/-! ## What every part keeps -/

/-- A relation that the statuses, the rationale, the hive's ledger and git do not matter to. -/
structure IgnoresRecord (R : World → World → Prop) : Prop where
  same  : ∀ w w' : World, w'.generated = w.generated → w'.vault = w.vault →
    w'.ledger = w.ledger → w'.forks = w.forks → R w w'
  trans : ∀ a b c, R a b → R b c → R a c

section Record

variable {R : World → World → Prop} (hR : IgnoresRecord R)
include hR

theorem IgnoresRecord.refl (w : World) : R w w := hR.same w w rfl rfl rfl rfl

/-- A relation that ignores the record is kept by a status, -/
theorem within_writeStatus (env : CycleEnv) (outcome reason : Text) :
    Within R (env.writeStatus outcome reason) := by
  intro w
  rw [CycleEnv.writeStatus, endState_writeStatusFile]
  cases env.status.write <;> exact hR.same _ _ rfl rfl rfl rfl

/-- by the rationale, -/
theorem within_writeRationale (env : CycleEnv) (mutationId : Text) :
    Within R (writeRationale env mutationId) := by
  refine within_call hR.refl fun opens _ => ?_
  split
  · exact within_change fun w => hR.same _ _ rfl rfl rfl rfl
  · exact within_pure hR.refl ()

/-- A git command, and what follows it. -/
theorem within_gitCommand_bind {α : Type} (answer : Except Fault Bool) (args : List Text)
    {x : Bool → M α} (hx : ∀ success, Within R (x success)) :
    Within R (executeGitCommand answer args >>= x) := by
  have hcommand : Within R (executeGitCommand answer args) :=
    within_call hR.refl fun success _ =>
      within_bind hR.trans (within_change fun w => hR.same _ _ rfl rfl rfl rfl) fun _ =>
        within_pure hR.refl success
  exact within_bind hR.trans hcommand hx

/-- by the commands of a publication, -/
theorem within_publishEvolution (env : GitEnv) (mutationId filePath : Text) :
    Within R (publishEvolution env mutationId filePath) := by
  have hfalse : Within R (pure false : M Bool) := within_pure hR.refl false
  unfold publishEvolution
  -- each command that fails ends the publication
  refine within_gitCommand_bind hR _ _ fun checkout => ?_
  split
  · refine within_gitCommand_bind hR _ _ fun add => ?_
    split
    · refine within_gitCommand_bind hR _ _ fun commit => ?_
      split
      · refine within_gitCommand_bind hR _ _ fun push => ?_
        split
        · exact within_gitCommand_bind hR _ _ fun _ => within_pure hR.refl true
        · exact hfalse
      · exact hfalse
    · exact hfalse
  · exact hfalse

/-- by those of a ledger sync, -/
theorem within_syncLedgers (env : GitEnv) : Within R (syncLedgers env) := by
  unfold syncLedgers
  refine within_gitCommand_bind hR _ _ fun _ => ?_
  refine within_gitCommand_bind hR _ _ fun _ => ?_
  exact within_gitCommand_bind hR _ _ fun _ => within_pure hR.refl ()

/-- and so by everything behind the publication. -/
theorem within_assimilate (stdHash : StdHash) (env : CycleEnv) (evolvedCode : Text) :
    Within R (assimilate stdHash env evolvedCode) := by
  have hregister : Within R
      (registerMutationHash env (decimal (stdHash evolvedCode).toNat)) :=
    within_call hR.refl fun _ _ => within_change fun w => hR.same _ _ rfl rfl rfl rfl
  unfold assimilate
  refine within_bind hR.trans (within_change fun w => hR.same _ _ rfl rfl rfl rfl) fun _ => ?_
  refine within_bind hR.trans hregister fun _ => ?_
  refine within_call hR.refl fun _ _ => ?_
  exact within_bind hR.trans (within_syncLedgers hR env.git) fun _ => within_writeStatus hR env _ _

end Record

end Swayam.Pipeline
