import Mathlib.Logic.Function.Basic
import Swayam.Lib.Stages
import Swayam.Analyzer
import Swayam.Registry

/-!
# SWAYAM — `MutationRunner`

One call of `evaluate_and_execute`, over the files it touches and the children
it forks. Everything the call cannot decide itself is in its environment: the
results of its system calls, the ends of its children, and the exceptions that
leave the calls it makes (`Except.error`); an exception of a call stands for
any on the way to it, and `terminate` for one inside a `noexcept` function. The
file removals report through an `error_code`, which nobody reads.

What the executed mutation does to the files is a parameter (`Program`): any
function of each of them, in `evaluateAndExecuteWith`. `evaluateAndExecute` is the
call whose mutation leaves them alone. The compiler writes its binary and nothing
else, and a mutation whose wait has timed out writes nothing more.

* `noFork_of_refused` — a source that the analyzer rejects, or that the ban check
  reports, gets no child;
* `compiler_of_not_refused` — any other source gets a compiler, when nothing fails
  before it;
* `evaluateAndExecute_answers` — the call succeeds exactly when every stage of
  `runnerGates` passes, and writes no status.
-/

namespace Swayam.Pipeline

open Stages

/-! ## Effects -/

/-- How a call fails to return. -/
inductive Fault
  | exception (what : Text)      -- `std::exception`
  | unknown                      -- anything else that `catch (...)` catches
  | terminate                    -- `std::terminate`: the process is gone
  deriving DecidableEq, Repr

/-- The children that a mutation may get. -/
inductive Child
  | compiler
  | mutation
  deriving DecidableEq, Repr

/-- What `status.json` says. -/
structure Status where
  outcome : Text
  reason  : Text
  deriving DecidableEq, Repr

/-- What a run of the daemon touches. -/
structure World where
  statuses  : List Status          -- the statuses of this run that have landed in `status.json`
  statusFile : Option Text         -- what this run has left in it, if it has written there
  published : Bool                 -- `publish_evolution` has returned true in this run
  rationale : Option Text          -- `meta/rationale.md`
  generated : Text → Option Text   -- `src/generated`
  vault     : Text → Option Text   -- `.swayam_vault`
  ledger    : Option Text          -- `.swayam_quarantine.ledger`
  hive      : Option Text          -- `.swayam_hive.ledger`
  forks     : List Child           -- the compilers and mutations forked, in order
  git       : List (List Text)     -- the git commands run, in order

/-- A machine on which nothing has happened yet, with this ledger. -/
def World.fresh (ledger : Option Text) : World where
  statuses := []
  statusFile := none
  published := false
  rationale := none
  generated := fun _ => none
  vault := fun _ => none
  ledger := ledger
  hive := none
  forks := []
  git := []

/-- Code with effects on the world, which stay when it throws. -/
abbrev M := EStateM Fault World

/-! ## The environment of the runner -/

/-- How a child ends, as `waitpid` tells it to `enforce_timeout`. -/
inductive ChildEnd
  | exited (code : Nat)
  | signaled (signalNum : Nat)
  | timedOut
  | lost                            -- `waitpid` fails
  deriving DecidableEq, Repr

/-- `enforce_timeout`: only an exit with 0 in time is a success. -/
def enforceTimeout (child : ChildEnd) : Bool := child = .exited 0

structure RunnerEnv where
  analyzer    : Except Fault Unit       -- `evaluate_mutation` returns
  vault       : Except Fault Bool       -- `write_securely`
  vaultLeft   : Option Text             -- what a write that fails leaves under its name
  banCheck    : Except Fault LedgerIO   -- the system calls of `is_banned`
  compileFork : Bool
  compile     : ChildEnd
  binary      : Option Text             -- what the compiler leaves behind
  lease       : Bool                    -- the `MutationLease` is constructed
  execFork    : Bool
  exec        : ChildEnd
  ban         : Option LedgerWriteIO    -- of `ban_mutation`, unless it terminates

/-- Nothing fails, and the ban check sees this of the ledger. -/
def RunnerEnv.working (io : LedgerIO) : RunnerEnv where
  analyzer := .ok ()
  vault := .ok true
  vaultLeft := none
  banCheck := .ok io
  compileFork := true
  compile := .exited 0
  binary := some []
  lease := true
  execFork := true
  exec := .exited 0
  ban := some .clean

/-! ## The executed program -/

/-- What a mutation leaves behind when it is executed. The lockdown lets it open, write and remove
files, and it runs as the user of the daemon; what the daemon forks, runs and has published is out
of its reach. -/
structure Program where
  status    : Option Text                                  -- in `status.json`, if it writes there
  rationale : Option Text → Option Text
  generated : (Text → Option Text) → Text → Option Text
  vault     : (Text → Option Text) → Text → Option Text
  ledger    : Option Text → Option Text
  hive      : Option Text → Option Text

/-- A program that leaves the files alone. -/
def Program.harmless : Program := ⟨none, id, id, id, id, id⟩

/-- The files behind its execution. -/
def Program.effect (program : Program) (w : World) : World :=
  { w with
    statusFile := program.status.or w.statusFile
    rationale := program.rationale w.rationale
    generated := program.generated w.generated
    vault := program.vault w.vault
    ledger := program.ledger w.ledger
    hive := program.hive w.hive }

/-! ## `evaluate_and_execute` -/

/-- `"mut_" + mutation_id + ".cpp"` -/
def sourceName (mutationId : Text) : Text := ascii "mut_" ++ mutationId ++ ascii ".cpp"

/-- `"/bin_" + mutation_id` -/
def binaryName (mutationId : Text) : Text := ascii "bin_" ++ mutationId

def setVault (name : Text) (content : Option Text) : M Unit :=
  change fun w => { w with vault := Function.update w.vault name content }

def forkChild (child : Child) : M Unit := change fun w => { w with forks := w.forks ++ [child] }

/-- `QuarantineRegistry::ban_mutation` -/
def banSource (stdHash : StdHash) (env : RunnerEnv) (sourceCode : Text) (exitCode : Int) :
    M Unit := do
  let io ← call (env.ban.elim (.error .terminate) .ok)
  change fun w => { w with ledger := banMutationIO stdHash io sourceCode exitCode w.ledger }

/-- The `try` block: the lease, the fork, and the mutation's three seconds, in which the program
does what it does. What is thrown in it is caught, and ends it without success. -/
def executeMutationWith (program : Program) (stdHash : StdHash) (env : RunnerEnv)
    (sourceCode : Text) : M Bool :=
  if env.lease = false ∨ env.execFork = false then pure false
  else do
    forkChild .mutation
    change program.effect
    -- three seconds, under the lockdown
    if enforceTimeout env.exec then pure true
    else do
      banSource stdHash env sourceCode 1
      pure false

/-- `evaluate_and_execute` from the fork of the compiler on. -/
def compileAndExecuteWith (program : Program) (stdHash : StdHash) (env : RunnerEnv)
    (sourceCode mutationId : Text) : M Bool := do
  forkChild .compiler
  setVault (binaryName mutationId) env.binary
  -- sixty seconds
  if enforceTimeout env.compile = false then do
    banSource stdHash env sourceCode 255
    setVault (sourceName mutationId) none
    pure false
  else do
    let executionSuccess ← executeMutationWith program stdHash env sourceCode
    setVault (binaryName mutationId) none
    if executionSuccess then pure true
    else do
      setVault (sourceName mutationId) none
      pure false

/-- `MutationRunner::evaluate_and_execute`, when this is the program of the mutation. -/
def evaluateAndExecuteWith (program : Program) (stdHash : StdHash) (env : RunnerEnv)
    (sourceCode mutationId : Text) : M Bool := do
  -- `HeuristicAnalyzer::evaluate_mutation`, which may throw
  call env.analyzer
  if (evaluateMutation sourceCode).isSafe = false then do
    banSource stdHash env sourceCode 254
    pure false
  else do
    let written ← call env.vault
    if written = false then do
      setVault (sourceName mutationId) env.vaultLeft
      pure false
    else do
      setVault (sourceName mutationId) (some sourceCode)
      let io ← call env.banCheck
      -- the file is written before the ban check
      if isBanned stdHash io sourceCode then do
        setVault (sourceName mutationId) none
        pure false
      else if env.compileFork = false then pure false
      else compileAndExecuteWith program stdHash env sourceCode mutationId

/-! ## Programs that leave the files alone -/

/-- The `try` block with such a program. -/
def executeMutation (stdHash : StdHash) (env : RunnerEnv) (sourceCode : Text) : M Bool :=
  executeMutationWith .harmless stdHash env sourceCode

def compileAndExecute (stdHash : StdHash) (env : RunnerEnv) (sourceCode mutationId : Text) :
    M Bool :=
  compileAndExecuteWith .harmless stdHash env sourceCode mutationId

/-- `MutationRunner::evaluate_and_execute`, on a mutation that leaves the files alone. -/
def evaluateAndExecute (stdHash : StdHash) (env : RunnerEnv) (sourceCode mutationId : Text) :
    M Bool :=
  evaluateAndExecuteWith .harmless stdHash env sourceCode mutationId

/-- A program that leaves the files alone makes no difference. -/
theorem executeMutationWith_harmless (stdHash : StdHash) (env : RunnerEnv) (sourceCode : Text) :
    executeMutationWith .harmless stdHash env sourceCode =
      executeMutation stdHash env sourceCode := rfl

/-- Without an effect of the program the block is the lease, the fork, and the ban. -/
theorem executeMutation_eq (stdHash : StdHash) (env : RunnerEnv) (sourceCode : Text) :
    executeMutation stdHash env sourceCode =
      (if env.lease = false ∨ env.execFork = false then pure false
      else do
        forkChild .mutation
        if enforceTimeout env.exec then pure true
        else do
          banSource stdHash env sourceCode 1
          pure false) := rfl

/-! ## What every step keeps -/

section Steps

variable {R : World → World → Prop}

/-- A relation that the ban, the fork and the program keep, the `try` block keeps. -/
theorem within_executeMutationWith (hrefl : ∀ w, R w w)
    (htrans : ∀ a b c, R a b → R b c → R a c) {program : Program}
    (hprogram : ∀ w, R w (program.effect w)) {stdHash : StdHash} {env : RunnerEnv}
    {sourceCode : Text} (hban : ∀ exitCode, Within R (banSource stdHash env sourceCode exitCode))
    (hfork : ∀ child, Within R (forkChild child)) :
    Within R (executeMutationWith program stdHash env sourceCode) := by
  unfold executeMutationWith
  split
  · exact within_pure hrefl false
  · refine within_bind htrans (hfork .mutation) fun _ => ?_
    refine within_bind htrans (within_change hprogram) fun _ => ?_
    split
    · exact within_pure hrefl true
    · exact within_bind htrans (hban 1) fun _ => within_pure hrefl false

/-- **What every step keeps, the call keeps**, wherever it ends, if the program keeps it. -/
theorem within_evaluateAndExecuteWith (hrefl : ∀ w, R w w)
    (htrans : ∀ a b c, R a b → R b c → R a c) {program : Program}
    (hprogram : ∀ w, R w (program.effect w)) {stdHash : StdHash} {env : RunnerEnv}
    {sourceCode : Text} (hban : ∀ exitCode, Within R (banSource stdHash env sourceCode exitCode))
    (hset : ∀ name content, Within R (setVault name content))
    (hfork : ∀ child, Within R (forkChild child)) (mutationId : Text) :
    Within R (evaluateAndExecuteWith program stdHash env sourceCode mutationId) := by
  have hanswer : ∀ b, Within R (pure b : M Bool) := within_pure hrefl
  unfold evaluateAndExecuteWith compileAndExecuteWith
  refine within_call hrefl fun _ _ => ?_
  split
  · exact within_bind htrans (hban 254) fun _ => hanswer false
  · refine within_call hrefl fun written _ => ?_
    split
    · exact within_bind htrans (hset _ env.vaultLeft) fun _ => hanswer false
    · -- from the vault file on
      refine within_bind htrans (hset _ (some sourceCode)) fun _ => ?_
      refine within_call hrefl fun io _ => ?_
      split
      · exact within_bind htrans (hset _ none) fun _ => hanswer false
      · split
        · exact hanswer false
        · -- from the compiler on
          refine within_bind htrans (hfork .compiler) fun _ => ?_
          refine within_bind htrans (hset _ env.binary) fun _ => ?_
          split
          · refine within_bind htrans (hban 255) fun _ => ?_
            exact within_bind htrans (hset _ none) fun _ => hanswer false
          · refine within_bind htrans
              (within_executeMutationWith hrefl htrans hprogram hban hfork) fun success => ?_
            refine within_bind htrans (hset _ none) fun _ => ?_
            split
            · exact hanswer true
            · exact within_bind htrans (hset _ none) fun _ => hanswer false

/-- The call on a mutation with such a program. -/
theorem within_evaluateAndExecute (hrefl : ∀ w, R w w) (htrans : ∀ a b c, R a b → R b c → R a c)
    {stdHash : StdHash} {env : RunnerEnv} {sourceCode : Text}
    (hban : ∀ exitCode, Within R (banSource stdHash env sourceCode exitCode))
    (hset : ∀ name content, Within R (setVault name content))
    (hfork : ∀ child, Within R (forkChild child)) (mutationId : Text) :
    Within R (evaluateAndExecute stdHash env sourceCode mutationId) := by
  have hprogram : ∀ w, R w (Program.harmless.effect w) := hrefl
  exact within_evaluateAndExecuteWith hrefl htrans hprogram hban hset hfork mutationId

end Steps

/-! ## Refused sources -/

/-- No child is forked. -/
def NoFork (w w' : World) : Prop := w'.forks = w.forks

/-- To do nothing forks nothing. -/
theorem noFork_refl (w : World) : NoFork w w := rfl

theorem noFork_trans (a b c : World) (hab : NoFork a b) (hbc : NoFork b c) : NoFork a c :=
  hbc.trans hab

/-- A ban forks nothing. -/
theorem noFork_banSource (stdHash : StdHash) (env : RunnerEnv) (sourceCode : Text)
    (exitCode : Int) : Within NoFork (banSource stdHash env sourceCode exitCode) :=
  within_call noFork_refl fun _ _ => within_change fun _ => rfl

theorem noFork_setVault (name : Text) (content : Option Text) :
    Within NoFork (setVault name content) :=
  within_change fun _ => rfl

/-- **No child for a refused source**: one that the analyzer rejects, or that the ban
check reports, whatever its program would do. -/
theorem noFork_of_refused (program : Program) {stdHash : StdHash} {env : RunnerEnv}
    {sourceCode : Text} (mutationId : Text)
    (hrefused : (evaluateMutation sourceCode).isSafe = false ∨
      ∀ io, env.banCheck = .ok io → isBanned stdHash io sourceCode = true) :
    Within NoFork (evaluateAndExecuteWith program stdHash env sourceCode mutationId) := by
  have hfalse : Within NoFork (pure false : M Bool) := within_pure noFork_refl false
  unfold evaluateAndExecuteWith
  refine within_call noFork_refl fun _ _ => ?_
  split
  · -- rejected: banned, and nothing else
    exact within_bind noFork_trans (noFork_banSource stdHash env sourceCode 254) fun _ => hfalse
  · rename_i hsafe
    have hbanned := hrefused.resolve_left hsafe
    refine within_call noFork_refl fun written _ => ?_
    split
    · exact within_bind noFork_trans (noFork_setVault _ env.vaultLeft) fun _ => hfalse
    · refine within_bind noFork_trans (noFork_setVault _ (some sourceCode)) fun _ => ?_
      -- the ban check is the last stage in front of the compiler
      refine within_call noFork_refl fun io hio => ?_
      rw [if_pos (hbanned io hio)]
      exact within_bind noFork_trans (noFork_setVault _ none) fun _ => hfalse

/-- Children are forked, never taken back. -/
def KeepsForks (w w' : World) : Prop := w.forks ⊆ w'.forks

theorem keepsForks_refl (w : World) : KeepsForks w w := List.Subset.refl _

theorem keepsForks_trans (a b c : World) (hab : KeepsForks a b) (hbc : KeepsForks b c) :
    KeepsForks a c :=
  List.Subset.trans hab hbc

/-- Where nothing is forked, what was forked stays forked. -/
theorem keepsForks_of_noFork {α : Type} {x : M α} (h : Within NoFork x) :
    Within KeepsForks x := by
  intro w
  rw [KeepsForks, h w]
  exact List.Subset.refl _

theorem keepsForks_forkChild (child : Child) : Within KeepsForks (forkChild child) :=
  within_change fun w => List.subset_append_left w.forks [child]

/-- The children of an execution are added to those in front. -/
theorem keepsForks_executeMutationWith (program : Program) (stdHash : StdHash) (env : RunnerEnv)
    (sourceCode : Text) : Within KeepsForks (executeMutationWith program stdHash env sourceCode) :=
  within_executeMutationWith keepsForks_refl keepsForks_trans (fun w => List.Subset.refl w.forks)
    (fun exitCode => keepsForks_of_noFork (noFork_banSource stdHash env sourceCode exitCode))
    keepsForks_forkChild

/-- Once the compiler is forked, it stays so. -/
theorem compiler_mem_compileAndExecuteWith (program : Program) (stdHash : StdHash)
    (env : RunnerEnv) (sourceCode mutationId : Text) (w : World) :
    Child.compiler ∈
      (endState (compileAndExecuteWith program stdHash env sourceCode mutationId w)).forks := by
  have hset : ∀ name content {x : M Bool}, Within KeepsForks x →
      Within KeepsForks (setVault name content >>= fun _ => x) := fun name content _ hx =>
    within_bind keepsForks_trans (keepsForks_of_noFork (noFork_setVault name content)) fun _ => hx
  have hanswer : ∀ b, Within KeepsForks (pure b : M Bool) := within_pure keepsForks_refl
  have hforked : Child.compiler ∈ w.forks ++ [Child.compiler] :=
    List.mem_append_right _ (List.mem_singleton_self _)
  -- what comes behind the fork keeps it
  unfold compileAndExecuteWith
  refine (hset (binaryName mutationId) env.binary (x := ite _ _ _) ?_)
    { w with forks := w.forks ++ [Child.compiler] } hforked
  split
  · exact within_bind keepsForks_trans (keepsForks_of_noFork
      (noFork_banSource stdHash env sourceCode 255)) fun _ => hset _ none (hanswer false)
  · refine within_bind keepsForks_trans (keepsForks_executeMutationWith program stdHash env sourceCode)
      fun success => hset _ none ?_
    split
    · exact hanswer true
    · exact hset _ none (hanswer false)

/-- **A source that is accepted and not reported gets a compiler**, when its file is
written and the fork succeeds. -/
theorem compiler_of_not_refused (program : Program) {stdHash : StdHash} {env : RunnerEnv}
    {sourceCode : Text} (mutationId : Text) {io : LedgerIO}
    (hsafe : (evaluateMutation sourceCode).isSafe = true)
    (hban : isBanned stdHash io sourceCode = false) (hanalyzer : env.analyzer = .ok ())
    (hvault : env.vault = .ok true) (hcheck : env.banCheck = .ok io)
    (hfork : env.compileFork = true) (w : World) :
    Child.compiler ∈
      (endState (evaluateAndExecuteWith program stdHash env sourceCode mutationId w)).forks := by
  have hrun : ∃ w', evaluateAndExecuteWith program stdHash env sourceCode mutationId w =
      compileAndExecuteWith program stdHash env sourceCode mutationId w' := by
    unfold evaluateAndExecuteWith
    rw [hanalyzer, hvault, hcheck, hfork, hsafe]
    refine ⟨{ w with
      vault := Function.update w.vault (sourceName mutationId) (some sourceCode) }, ?_⟩
    -- every stage in front passes
    show (if isBanned stdHash io sourceCode = true then _ else _ : M Bool) _ = _
    rw [if_neg (by rw [hban]; simp)]
    rfl
  obtain ⟨w', hw'⟩ := hrun
  rw [hw']
  exact compiler_mem_compileAndExecuteWith program stdHash env sourceCode mutationId w'

/-! ## Stages -/

/-- The call leaves the record of the run, and the file it is in, alone. -/
def Silent (w w' : World) : Prop :=
  w'.statuses = w.statuses ∧ w'.published = w.published ∧ w'.statusFile = w.statusFile

theorem silent_refl (w : World) : Silent w w := ⟨rfl, rfl, rfl⟩

theorem silent_trans (a b c : World) (hab : Silent a b) (hbc : Silent b c) : Silent a c :=
  ⟨hbc.1.trans hab.1, hbc.2.1.trans hab.2.1, hbc.2.2.trans hab.2.2⟩

/-- A stage that ends in a ban. -/
def banGate (env : RunnerEnv) : Gate Fault :=
  match env.ban with
  | some _ => .stop
  | none => .fault .terminate

/-- A test that bans the source when it fails. -/
def orBan (env : RunnerEnv) (b : Bool) : Gate Fault := if b then .pass else banGate env

/-- The ban check. -/
def banCheckGate (stdHash : StdHash) (env : RunnerEnv) (sourceCode : Text) : Gate Fault :=
  match env.banCheck with
  | .ok io => holds (!isBanned stdHash io sourceCode)
  | .error f => .fault f

/-- The stages behind the ban check. -/
def executionGates (env : RunnerEnv) : List (Gate Fault) :=
  [orBan env (enforceTimeout env.compile),
   holds (env.lease && env.execFork),
   orBan env (enforceTimeout env.exec)]

/-- The stages of `evaluate_and_execute`, in their order. -/
def runnerGates (stdHash : StdHash) (env : RunnerEnv) (sourceCode : Text) : List (Gate Fault) :=
  [returns env.analyzer,
   orBan env (evaluateMutation sourceCode).isSafe,
   succeeds env.vault,
   banCheckGate stdHash env sourceCode,
   holds env.compileFork,
   firstObstacle (executionGates env)]

/-- A ban in front of a stop. -/
theorem answers_ban {stdHash : StdHash} {env : RunnerEnv} {sourceCode : Text} {exitCode : Int}
    {x : M Bool} (hx : Answers Silent x .stop) :
    Answers Silent (banSource stdHash env sourceCode exitCode >>= fun _ => x) (banGate env) := by
  unfold banGate
  cases hban : env.ban with
  | none =>
    intro w
    refine ⟨w, silent_refl w, bind_run_error ?_ _⟩
    rw [banSource, hban]
    rfl
  | some io =>
    intro w
    have hrun : banSource stdHash env sourceCode exitCode w = .ok () { w with
        ledger := banMutationIO stdHash io sourceCode exitCode w.ledger } := by
      rw [banSource, hban]
      rfl
    obtain ⟨w', hw', y, hy, hrest⟩ := hx { w with
      ledger := banMutationIO stdHash io sourceCode exitCode w.ledger }
    exact ⟨w', hw', y, hy, (bind_run_ok hrun _).trans hrest⟩

/-- A test that bans the source when it fails. -/
theorem answers_orBan {env : RunnerEnv} {b : Bool} {x : M Bool} {gates : List (Gate Fault)}
    (hpass : b = true → Answers Silent x (firstObstacle gates))
    (hban : b = false → Answers Silent x (banGate env)) :
    Answers Silent x (firstObstacle (orBan env b :: gates)) := by
  cases b with
  | true => exact hpass rfl
  | false =>
    have hgate : firstObstacle (banGate env :: gates) = banGate env := by
      unfold banGate
      cases env.ban <;> rfl
    show Answers Silent x (firstObstacle (banGate env :: gates))
    rw [hgate]
    exact hban rfl

/-- To return false is to stop. -/
theorem answers_stop : Answers Silent (pure false : M Bool) .stop := meets_stop silent_refl rfl

/-- A change of the vault says nothing about the answer. -/
theorem answers_setVault {name : Text} {content : Option Text} {x : M Bool} {gate : Gate Fault}
    (hx : Answers Silent x gate) :
    Answers Silent (setVault name content >>= fun _ => x) gate :=
  meets_change silent_trans (fun _ => ⟨rfl, rfl, rfl⟩) hx

/-- Nor does a fork. -/
theorem answers_forkChild {child : Child} {x : M Bool} {gate : Gate Fault}
    (hx : Answers Silent x gate) : Answers Silent (forkChild child >>= fun _ => x) gate :=
  meets_change silent_trans (fun _ => ⟨rfl, rfl, rfl⟩) hx

/-- The `try` block. -/
theorem executeMutation_answers (stdHash : StdHash) (env : RunnerEnv) (sourceCode : Text) :
    Answers Silent (executeMutation stdHash env sourceCode)
      (firstObstacle [holds (env.lease && env.execFork),
        orBan env (enforceTimeout env.exec)]) := by
  rw [executeMutation_eq]
  split
  · rename_i hcaught
    refine meets_holds (fun _ => answers_stop) fun hboth => ?_
    rw [Bool.and_eq_true] at hboth
    -- the exception of the lease, or of the fork
    rcases hcaught with hlease | hfork
    · rw [hboth.1] at hlease
      exact absurd hlease (by simp)
    · rw [hboth.2] at hfork
      exact absurd hfork (by simp)
  · rename_i hcaught
    have hboth : (env.lease && env.execFork) = true := by
      rw [not_or, Bool.not_eq_false, Bool.not_eq_false] at hcaught
      rw [hcaught.1, hcaught.2]
      rfl
    rw [hboth]
    -- the mutation runs, and its end decides
    refine answers_forkChild (answers_orBan (fun hexec => ?_) fun hexec => ?_)
    · rw [if_pos hexec]
      exact meets_pass silent_refl rfl
    · rw [if_neg (by rw [hexec]; simp)]
      exact answers_ban answers_stop

/-- **From the compiler on**, the call succeeds exactly when the gates of the execution pass. -/
theorem compileAndExecute_answers (stdHash : StdHash) (env : RunnerEnv)
    (sourceCode mutationId : Text) :
    Answers Silent (compileAndExecute stdHash env sourceCode mutationId)
      (firstObstacle (executionGates env)) := by
  unfold compileAndExecute compileAndExecuteWith executionGates
  refine answers_forkChild (answers_setVault (answers_orBan (fun hcompile => ?_) fun hcompile => ?_))
  · rw [if_neg (by rw [hcompile]; simp)]
    -- the `try` block decides, whatever is removed behind it
    rw [← firstObstacle_singleton (firstObstacle [_, _])]
    refine meets_answers silent_trans (executeMutation_answers stdHash env sourceCode) ?_ ?_
    · exact answers_setVault (answers_setVault answers_stop)
    · exact answers_setVault (meets_pass silent_refl rfl)
  · rw [if_pos hcompile]
    exact answers_ban (answers_setVault answers_stop)

/-- **The call succeeds exactly when every stage passes**, and writes no status, if its mutation
leaves the files alone. -/
theorem evaluateAndExecute_answers (stdHash : StdHash) (env : RunnerEnv)
    (sourceCode mutationId : Text) :
    Answers Silent (evaluateAndExecute stdHash env sourceCode mutationId)
      (firstObstacle (runnerGates stdHash env sourceCode)) := by
  unfold evaluateAndExecute evaluateAndExecuteWith runnerGates
  refine meets_returns silent_refl fun _ _ => ?_
  refine answers_orBan (fun hsafe => ?_) fun hunsafe => ?_
  · rw [if_neg (by rw [hsafe]; simp)]
    refine meets_succeeds silent_refl (answers_setVault answers_stop) (answers_setVault ?_)
    unfold banCheckGate
    cases hcheck : env.banCheck with
    | error f => exact meets_fault silent_refl f _
    | ok io =>
      show Answers Silent (if isBanned stdHash io sourceCode = true then _ else _) _
      -- the ban check, then the fork
      refine meets_holds (fun hbanned => ?_) fun hclear => ?_
      · rw [Bool.not_eq_false'] at hbanned
        rw [if_pos hbanned]
        exact answers_setVault answers_stop
      · rw [Bool.not_eq_true'] at hclear
        rw [if_neg (by rw [hclear]; simp)]
        refine meets_holds (fun hfailed => ?_) fun hforked => ?_
        · rw [if_pos hfailed]
          exact answers_stop
        · rw [if_neg (by rw [hforked]; simp), firstObstacle_singleton]
          exact compileAndExecute_answers stdHash env sourceCode mutationId
  · rw [if_pos hunsafe]
    exact answers_ban answers_stop

/-! ## Where the program is executed -/

/-- The call gets as far as the fork of the compiler. -/
structure ReachesCompiler (stdHash : StdHash) (env : RunnerEnv) (sourceCode : Text) : Prop where
  analyzed  : env.analyzer = .ok ()
  safe      : (evaluateMutation sourceCode).isSafe = true
  written   : env.vault = .ok true
  notBanned : ∃ io, env.banCheck = .ok io ∧ isBanned stdHash io sourceCode = false

/-- The compiler is forked in the call. -/
def ForksCompiler (stdHash : StdHash) (env : RunnerEnv) (sourceCode : Text) : Prop :=
  ReachesCompiler stdHash env sourceCode ∧ env.compileFork = true

/-- And the mutation behind it. -/
def ForksMutation (stdHash : StdHash) (env : RunnerEnv) (sourceCode : Text) : Prop :=
  ForksCompiler stdHash env sourceCode ∧ enforceTimeout env.compile = true ∧
    env.lease = true ∧ env.execFork = true

section Execution

variable {stdHash : StdHash} {env : RunnerEnv} {sourceCode : Text}

/-- Up to the fork of the compiler the source is written, and nothing else is done. -/
theorem evaluateAndExecuteWith_run (program : Program) (mutationId : Text)
    (h : ReachesCompiler stdHash env sourceCode) (w : World) :
    evaluateAndExecuteWith program stdHash env sourceCode mutationId w =
      (if env.compileFork = false then pure false
        else compileAndExecuteWith program stdHash env sourceCode mutationId) { w with
          vault := Function.update w.vault (sourceName mutationId) (some sourceCode) } := by
  obtain ⟨io, hcheck, hban⟩ := h.notBanned
  unfold evaluateAndExecuteWith
  rw [h.analyzed, h.written, hcheck, h.safe]
  show (if isBanned stdHash io sourceCode = true then _ else _ : M Bool) _ = _
  rw [if_neg (by rw [hban]; simp)]

/-- The removals behind the `try` block. -/
def clearVault (mutationId : Text) (executionSuccess : Bool) : M Bool := do
  setVault (binaryName mutationId) none
  if executionSuccess then pure true
  else do
    setVault (sourceName mutationId) none
    pure false

/-- What is left to do behind the execution. -/
def afterProgram (stdHash : StdHash) (env : RunnerEnv) (sourceCode mutationId : Text) :
    M Bool :=
  if enforceTimeout env.exec then clearVault mutationId true
  else do
    banSource stdHash env sourceCode 1
    clearVault mutationId false

/-- In front of it every stage has passed. -/
theorem runnerGates_of_forksMutation (h : ForksMutation stdHash env sourceCode) :
    firstObstacle (runnerGates stdHash env sourceCode) =
      firstObstacle [orBan env (enforceTimeout env.exec)] := by
  obtain ⟨⟨hreach, hfork⟩, hcompile, hlease, hexec⟩ := h
  obtain ⟨io, hcheck, hban⟩ := hreach.notBanned
  unfold runnerGates executionGates banCheckGate
  rw [hreach.analyzed, hreach.safe, hreach.written, hcheck, hfork, hcompile, hlease, hexec]
  dsimp only
  rw [hban]
  show firstObstacle [firstObstacle [orBan env (enforceTimeout env.exec)]] = _
  exact firstObstacle_singleton _

/-- The removal of the source has no say in it. -/
theorem clearVault_answers {mutationId : Text} {success : Bool} {gate : Gate Fault}
    (h : Answers Silent (pure success : M Bool) gate) :
    Answers Silent (clearVault mutationId success) gate := by
  cases success with
  | true => exact answers_setVault h
  | false => exact answers_setVault (answers_setVault h)

/-- Behind the execution its end decides. -/
theorem afterProgram_answers (stdHash : StdHash) (env : RunnerEnv)
    (sourceCode mutationId : Text) :
    Answers Silent (afterProgram stdHash env sourceCode mutationId)
      (firstObstacle [orBan env (enforceTimeout env.exec)]) := by
  unfold afterProgram
  refine answers_orBan (fun hexec => ?_) fun hexec => ?_
  · rw [if_pos hexec]
    exact clearVault_answers (meets_pass silent_refl rfl)
  · rw [if_neg (by rw [hexec]; simp)]
    exact answers_ban (clearVault_answers answers_stop)

/-- **A mutation that is executed** does so once, on files that only the vault of the call has
changed in. -/
theorem run_of_forksMutation (program : Program) (mutationId : Text)
    (h : ForksMutation stdHash env sourceCode) (w : World) :
    ∃ vault forks, evaluateAndExecuteWith program stdHash env sourceCode mutationId w =
      afterProgram stdHash env sourceCode mutationId
        (program.effect { w with vault := vault, forks := forks }) := by
  obtain ⟨⟨hreach, hfork⟩, hcompile, hlease, hexec⟩ := h
  refine ⟨Function.update (Function.update w.vault (sourceName mutationId) (some sourceCode))
    (binaryName mutationId) env.binary, w.forks ++ [.compiler] ++ [.mutation], ?_⟩
  rw [evaluateAndExecuteWith_run program mutationId hreach, if_neg (by rw [hfork]; simp)]
  unfold compileAndExecuteWith
  rw [bind_run_ok (x := forkChild .compiler) rfl, bind_run_ok (x := setVault _ _) rfl,
    if_neg (by rw [hcompile]; simp)]
  -- the block, with nothing thrown in it
  unfold executeMutationWith afterProgram
  rw [if_neg (by rw [hlease, hexec]; simp)]
  cases enforceTimeout env.exec with
  | true => rfl
  | false =>
    -- the ban returns, or ends the process
    cases hban : env.ban with
    | none =>
      simp only [banSource, hban]
      rfl
    | some io =>
      simp only [banSource, hban]
      rfl

/-- **One that is not executed** does nothing. -/
theorem run_of_not_forksMutation (program : Program) (mutationId : Text)
    (h : ¬ ForksMutation stdHash env sourceCode) :
    evaluateAndExecuteWith program stdHash env sourceCode mutationId =
      evaluateAndExecute stdHash env sourceCode mutationId := by
  funext w
  by_cases hreach : ReachesCompiler stdHash env sourceCode
  · show _ = evaluateAndExecuteWith .harmless stdHash env sourceCode mutationId w
    rw [evaluateAndExecuteWith_run program mutationId hreach,
      evaluateAndExecuteWith_run .harmless mutationId hreach]
    by_cases hfork : env.compileFork = false
    · rw [if_pos hfork, if_pos hfork]
    rw [if_neg hfork, if_neg hfork]
    rw [Bool.not_eq_false] at hfork
    unfold compileAndExecuteWith
    by_cases hcompile : enforceTimeout env.compile = false
    · simp only [if_pos hcompile]
    -- the lease or the fork throws in front of the program
    have hcaught : env.lease = false ∨ env.execFork = false := by
      by_contra hnone
      rw [not_or, Bool.not_eq_false, Bool.not_eq_false] at hnone
      rw [Bool.not_eq_false] at hcompile
      exact h ⟨⟨hreach, hfork⟩, hcompile, hnone⟩
    simp only [executeMutationWith, if_pos hcaught]
  · unfold evaluateAndExecute evaluateAndExecuteWith
    cases hanalyzer : env.analyzer with
    | error f => rfl
    | ok u =>
      by_cases hsafe : (evaluateMutation sourceCode).isSafe = false
      · simp only [if_pos hsafe]
      · cases hvault : env.vault with
        | error f => simp only [if_neg hsafe, bind_run, call]
        | ok written =>
          cases written with
          | false => simp only [if_neg hsafe, bind_run, call, if_true]
          | true =>
            cases hcheck : env.banCheck with
            | error f => simp only [if_neg hsafe, bind_run, call, Bool.true_eq_false, if_false]
            | ok io =>
              have hbanned : isBanned stdHash io sourceCode = true := by
                by_contra hclear
                rw [Bool.not_eq_true] at hclear
                exact hreach ⟨hanalyzer, by simpa using hsafe, hvault, io, hcheck, hclear⟩
              simp only [if_neg hsafe, bind_run, call, Bool.true_eq_false, if_false, hbanned,
                if_true]

end Execution

end Swayam.Pipeline
