import Swayam.Pipeline.Leftovers

/-!
# SWAYAM — bans and the children behind them

What `enforce_timeout` learns of a child is an end, and what led to it is lost.
A child of the runner has a way to go before its program runs: the mutation
goes through `lockdown_process`, each step of which leaves with 127 when it
fails, and both go through an `exec` that leaves with 127 when it comes back.
The runner bans on any end but 0.

* `callsBan_iff` — when `ban_mutation` is called;
* `ownFault_iff` — the ban has the mutation's own fault behind it exactly when
  every child that is forked gets as far as its program, and is not lost.
-/

namespace Swayam.Pipeline

open Stages

/-! ## The sandbox -/

inductive Resource
  | cpu
  | addressSpace
  | openFiles
  | core
  deriving DecidableEq, Repr

/-- `EPERM` -/
def eperm : Nat := 1

/-- The system calls of `lockdown_process`. -/
structure LockdownIO where
  unshare    : Option Nat               -- the `errno` of a failure
  setrlimit  : Resource → Nat → Bool
  noNewPrivs : Bool
  seccomp    : Bool

def LockdownIO.clean : LockdownIO := ⟨none, fun _ _ => true, true, true⟩

/-- `lockdown_process`: it returns, or leaves with this status. -/
def lockdownProcess (io : LockdownIO) (maxCpuSeconds maxMemoryMb : Nat) : Except Nat Unit :=
  -- without the privilege the namespaces stay shared
  if io.unshare ≠ none ∧ io.unshare ≠ some eperm then .error 127
  else if io.setrlimit .cpu maxCpuSeconds = false then .error 127
  else if io.setrlimit .addressSpace (maxMemoryMb * 1024 * 1024) = false then .error 127
  else if io.setrlimit .openFiles 64 = false then .error 127
  else if io.setrlimit .core 0 = false then .error 127
  else if io.noNewPrivs = false then .error 127
  else if io.seccomp = false then .error 127
  else .ok ()

/-- **A step that fails leaves with 127**, whichever it is. -/
theorem lockdownProcess_error {io : LockdownIO} {maxCpuSeconds maxMemoryMb status : Nat}
    (h : lockdownProcess io maxCpuSeconds maxMemoryMb = .error status) : status = 127 := by
  unfold lockdownProcess at h
  repeat' split at h
  all_goals first | exact (Except.error.inj h).symm | exact absurd h (by simp)

/-! ## The children -/

/-- How a program ends that has been started. -/
inductive ProgramEnd
  | exited (code : Nat)
  | signaled (signalNum : Nat)
  | outOfTime
  deriving DecidableEq, Repr

/-- How far a child gets, behind its set-up. -/
inductive Start
  | execFails                        -- `exec` comes back, and `_exit(127)` follows
  | dies (signalNum : Nat)           -- a signal, in front of its program
  | stalls                           -- it is out of time in front of its program
  | runs (program : ProgramEnd)
  deriving DecidableEq, Repr

/-- A child, and whether `waitpid` fails on it. -/
structure ChildRun where
  start     : Start
  waitFails : Bool
  deriving DecidableEq, Repr

def ProgramEnd.childEnd : ProgramEnd → ChildEnd
  | .exited code => .exited code
  | .signaled signalNum => .signaled signalNum
  | .outOfTime => .timedOut

def Start.childEnd : Start → ChildEnd
  | .execFails => .exited 127
  | .dies signalNum => .signaled signalNum
  | .stalls => .timedOut
  | .runs program => program.childEnd

/-- The compiler's child: `execvp` of `c++`. -/
def compilerChild (run : ChildRun) : ChildEnd :=
  if run.waitFails then .lost else run.start.childEnd

/-- The mutation's child: `lockdown_process(2, 128)`, and `execv` of the binary. -/
def mutationChild (lock : LockdownIO) (run : ChildRun) : ChildEnd :=
  if run.waitFails then .lost
  else match lockdownProcess lock 2 128 with
    | .error status => .exited status
    | .ok () => run.start.childEnd

/-- The runner's environment, with these children in it. -/
def RunnerEnv.withChildren (env : RunnerEnv) (compiler : ChildRun) (lock : LockdownIO)
    (mutation : ChildRun) : RunnerEnv :=
  { env with compile := compilerChild compiler, exec := mutationChild lock mutation }

/-! ## Whose fault it is -/

/-- The program ran, and then failed or ran out of time. -/
def ChildRun.FailsItself (run : ChildRun) : Prop :=
  ∃ program, run.start = .runs program ∧ program ≠ .exited 0

/-- The program is started, and its success is not lost. -/
def ChildRun.Seen (run : ChildRun) : Prop :=
  ∃ program, run.start = .runs program ∧ (run.waitFails = true → program ≠ .exited 0)

/-- The mutation's own faults: the analyzer's verdict, what the compiler made of it, or what its
binary did, when there is one. -/
inductive OwnFault (sourceCode : Text) (compiler : ChildRun) (lock : LockdownIO)
    (mutation : ChildRun) : Prop
  | rejected (h : (evaluateMutation sourceCode).isSafe = false)
  | compiler (h : compiler.FailsItself)
  | mutation (hcompiled : enforceTimeout (compilerChild compiler) = true)
      (hlock : lockdownProcess lock 2 128 = .ok ()) (h : mutation.FailsItself)

/-- `ban_mutation` is called in the run: the ledger changes, when nothing fails in the ban. -/
def CallsBan (stdHash : StdHash) (env : RunnerEnv) (sourceCode mutationId : Text) (w : World) :
    Prop :=
  (endState (evaluateAndExecute stdHash { env with ban := some .clean } sourceCode mutationId
    w)).ledger ≠ w.ledger

theorem ChildRun.failsItself_of_seen {run : ChildRun} (hseen : run.Seen)
    (hend : enforceTimeout (compilerChild run) = false) : run.FailsItself := by
  obtain ⟨program, hstart, hlost⟩ := hseen
  refine ⟨program, hstart, ?_⟩
  rintro rfl
  -- an exit with 0 that is seen is a success
  have hfound : run.waitFails = false := by
    by_contra hfails
    rw [Bool.not_eq_false] at hfails
    exact hlost hfails rfl
  rw [compilerChild, hfound, hstart] at hend
  exact absurd hend (by decide)

theorem ChildRun.seen_of_failsItself {run : ChildRun} (h : run.FailsItself) : run.Seen := by
  obtain ⟨program, hstart, hprogram⟩ := h
  exact ⟨program, hstart, fun _ => hprogram⟩

/-- What fails itself is not taken for a success. -/
theorem enforceTimeout_of_failsItself {run : ChildRun} (h : run.FailsItself) :
    enforceTimeout (compilerChild run) = false := by
  obtain ⟨program, hstart, hprogram⟩ := h
  unfold compilerChild
  split
  · rfl
  · rw [hstart]
    cases program with
    | exited code =>
      have hcode : code ≠ 0 := fun hzero => hprogram (by rw [hzero])
      simpa [Start.childEnd, ProgramEnd.childEnd, enforceTimeout] using hcode
    | signaled signalNum => rfl
    | outOfTime => rfl

/-- A success is an exit with 0 of the program itself. -/
theorem seen_of_success {run : ChildRun} (h : enforceTimeout (compilerChild run) = true) :
    run.Seen := by
  unfold compilerChild at h
  split at h
  · exact absurd h (by decide)
  · rename_i hfound
    cases hstart : run.start with
    | execFails =>
      rw [hstart] at h
      exact absurd h (by decide)
    | dies signalNum =>
      rw [hstart] at h
      exact absurd h (by simp [Start.childEnd, enforceTimeout])
    | stalls =>
      rw [hstart] at h
      exact absurd h (by decide)
    | runs program => exact ⟨program, hstart, fun hfails => absurd hfails hfound⟩

/-- And comes out of a sandbox that was set up. -/
theorem lockdown_of_success {lock : LockdownIO} {run : ChildRun}
    (h : enforceTimeout (mutationChild lock run) = true) :
    lockdownProcess lock 2 128 = .ok () := by
  unfold mutationChild at h
  cases hlock : lockdownProcess lock 2 128 with
  | ok u => rfl
  | error status =>
    have hfailed : enforceTimeout (.exited 127) = false := by decide
    rw [hlock, lockdownProcess_error hlock] at h
    split at h
    · exact absurd h (by decide)
    · rw [hfailed] at h
      exact absurd h (by simp)

/-! ## When the ban is called -/

section Bans

variable {stdHash : StdHash} {env : RunnerEnv} {sourceCode mutationId : Text}

theorem banMutationIO_clean_ne (stdHash : StdHash) (sourceCode : Text) (exitCode : Int)
    (ledger : Option Text) : banMutationIO stdHash .clean sourceCode exitCode ledger ≠ ledger := by
  intro heq
  have hlen := congrArg (fun file : Option Text => (file.getD []).length) heq
  unfold banMutationIO at hlen
  simp [appendToLedger, LedgerWriteIO.clean, banEntry] at hlen

variable (stdHash sourceCode) in
/-- The `try` block changes the ledger when the mutation is forked and fails. -/
theorem executeMutation_ledger (hban : env.ban = some .clean) (w : World) :
    ∃ success w', executeMutation stdHash env sourceCode w = .ok success w' ∧
      (w'.ledger ≠ w.ledger ↔
        env.lease = true ∧ env.execFork = true ∧ enforceTimeout env.exec = false) := by
  rw [executeMutation_eq]
  by_cases hcaught : env.lease = false ∨ env.execFork = false
  · rw [if_pos hcaught]
    refine ⟨false, w, rfl, iff_of_false (fun h => h rfl) ?_⟩
    rintro ⟨hlease, hfork, -⟩
    rcases hcaught with h | h
    · rw [h] at hlease
      exact absurd hlease (by simp)
    · rw [h] at hfork
      exact absurd hfork (by simp)
  · rw [if_neg hcaught, bind_run_ok (x := forkChild .mutation) rfl]
    rw [not_or, Bool.not_eq_false, Bool.not_eq_false] at hcaught
    by_cases hexec : enforceTimeout env.exec = true
    · rw [if_pos hexec]
      refine ⟨true, _, rfl, iff_of_false (fun h => h rfl) ?_⟩
      rintro ⟨-, -, hfails⟩
      rw [hexec] at hfails
      exact absurd hfails (by simp)
    · rw [if_neg hexec, bind_run_ok (banSource_run .clean hban 1 _)]
      refine ⟨false, _, rfl, iff_of_true ?_ ⟨hcaught.1, hcaught.2, by simpa using hexec⟩⟩
      exact banMutationIO_clean_ne stdHash sourceCode 1 w.ledger

/-- From the fork of the compiler on, the ledger changes when a forked child fails. -/
theorem compileAndExecute_ledger (hban : env.ban = some .clean) (w : World) :
    (endState (compileAndExecute stdHash env sourceCode mutationId w)).ledger ≠ w.ledger ↔
      (enforceTimeout env.compile = false ∨ enforceTimeout env.compile = true ∧
        env.lease = true ∧ env.execFork = true ∧ enforceTimeout env.exec = false) := by
  unfold compileAndExecute compileAndExecuteWith
  rw [bind_run_ok (x := forkChild .compiler) rfl, bind_run_ok (x := setVault _ _) rfl]
  by_cases hcompile : enforceTimeout env.compile = false
  · rw [if_pos hcompile, bind_run_ok (banSource_run .clean hban 255 _)]
    refine iff_of_true ?_ (Or.inl hcompile)
    exact banMutationIO_clean_ne stdHash sourceCode 255 w.ledger
  · rw [if_neg hcompile]
    rw [Bool.not_eq_false] at hcompile
    obtain ⟨success, w', hrun, hledger⟩ := executeMutation_ledger stdHash sourceCode
      hban { w with
        forks := w.forks ++ [Child.compiler]
        vault := Function.update w.vault (binaryName mutationId) env.binary }
    rw [executeMutationWith_harmless, bind_run_ok hrun]
    -- the removals behind it leave the ledger alone
    have hend : (endState ((setVault (binaryName mutationId) none >>= fun _ =>
        if success = true then pure true
        else setVault (sourceName mutationId) none >>= fun _ => pure false : M Bool) w')).ledger =
        w'.ledger := by
      cases success <;> rfl
    rw [hcompile]
    refine Iff.trans (Iff.of_eq (congrArg (· ≠ w.ledger) hend)) (hledger.trans ?_)
    simp

/-- In front of it, only for a rejection. -/
theorem evaluateAndExecute_ledger (hban : env.ban = some .clean)
    (hreach : ¬ ReachesCompiler stdHash env sourceCode) (w : World) :
    (endState (evaluateAndExecute stdHash env sourceCode mutationId w)).ledger ≠ w.ledger ↔
      (env.analyzer = .ok () ∧ (evaluateMutation sourceCode).isSafe = false) := by
  unfold evaluateAndExecute evaluateAndExecuteWith
  cases hanalyzer : env.analyzer with
  | error f =>
    rw [bind_run_error (x := call _) rfl]
    exact iff_of_false (fun h => h rfl) (by simp)
  | ok u =>
    rw [bind_run_ok (x := call _) rfl]
    by_cases hsafe : (evaluateMutation sourceCode).isSafe = false
    · -- rejected: the ban is all that is written
      rw [if_pos hsafe, bind_run_ok (banSource_run .clean hban 254 _)]
      exact iff_of_true (banMutationIO_clean_ne stdHash sourceCode 254 w.ledger) ⟨rfl, hsafe⟩
    · rw [if_neg hsafe]
      refine iff_of_false (fun hchanged => hchanged ?_) (fun h => hsafe h.2)
      rw [Bool.not_eq_false] at hsafe
      cases hwritten : env.vault with
      | error f => rfl
      | ok written =>
        cases written with
        | false => rfl
        | true =>
          rw [bind_run_ok (x := call _) rfl, if_neg (by simp), bind_run_ok (x := setVault _ _) rfl]
          cases hcheck : env.banCheck with
          | error f => rfl
          | ok io =>
            -- it does not reach the compiler, so the check has stopped it
            have hbanned : isBanned stdHash io sourceCode = true := by
              by_contra hclear
              rw [Bool.not_eq_true] at hclear
              exact hreach ⟨hanalyzer, hsafe, hwritten, io, hcheck, hclear⟩
            rw [bind_run_ok (x := call _) rfl, if_pos hbanned]
            rfl

/-- **When the ban is called**: for a rejection by the analyzer, and for every end but 0 of a
child that was forked. -/
theorem callsBan_iff (stdHash : StdHash) (env : RunnerEnv) (sourceCode mutationId : Text)
    (w : World) : CallsBan stdHash env sourceCode mutationId w ↔
      (env.analyzer = .ok () ∧ (evaluateMutation sourceCode).isSafe = false) ∨
      (ForksCompiler stdHash env sourceCode ∧ enforceTimeout env.compile = false) ∨
      (ForksMutation stdHash env sourceCode ∧ enforceTimeout env.exec = false) := by
  have hreach : ReachesCompiler stdHash { env with ban := some .clean } sourceCode ↔
      ReachesCompiler stdHash env sourceCode :=
    ⟨fun h => ⟨h.analyzed, h.safe, h.written, h.notBanned⟩,
      fun h => ⟨h.analyzed, h.safe, h.written, h.notBanned⟩⟩
  unfold CallsBan ForksMutation ForksCompiler
  by_cases h : ReachesCompiler stdHash env sourceCode
  · have hrun := evaluateAndExecute_run mutationId (hreach.mpr h) w
    rw [hrun]
    have hsafe : ¬ (env.analyzer = .ok () ∧ (evaluateMutation sourceCode).isSafe = false) := by
      rintro ⟨-, hunsafe⟩
      rw [h.safe] at hunsafe
      exact absurd hunsafe (by simp)
    cases hfork : env.compileFork with
    | false =>
      refine iff_of_false (fun hchanged => hchanged rfl) ?_
      simpa using hsafe
    | true =>
      have hban : ({ env with ban := some .clean } : RunnerEnv).ban = some .clean := rfl
      refine Iff.trans (compileAndExecute_ledger hban _) ?_
      simp only [h, hsafe, true_and, and_true, false_or, and_assoc]
  · have hban : ({ env with ban := some .clean } : RunnerEnv).ban = some .clean := rfl
    rw [evaluateAndExecute_ledger hban (fun hr => h (hreach.mp hr))]
    simp only [h, false_and, or_false]

end Bans

/-- **Only a mutation's own fault bans it, when it does.** For every call and every outcome of its
environment and its children: `ban_mutation` is called only for the mutation's own fault if and
only if a compiler that is forked gets as far as `c++`, a mutation that is forked gets through
`lockdown_process` and as far as its binary, and `waitpid` does not lose an exit with 0 of
either. -/
theorem ownFault_iff (stdHash : StdHash) (env : RunnerEnv) (compiler : ChildRun)
    (lock : LockdownIO) (mutation : ChildRun) (sourceCode mutationId : Text) (w : World) :
    (CallsBan stdHash (env.withChildren compiler lock mutation) sourceCode mutationId w →
      OwnFault sourceCode compiler lock mutation) ↔
    ((ForksCompiler stdHash (env.withChildren compiler lock mutation) sourceCode →
        compiler.Seen) ∧
      (ForksMutation stdHash (env.withChildren compiler lock mutation) sourceCode →
        lockdownProcess lock 2 128 = .ok () ∧ mutation.Seen)) := by
  -- behind a lockdown the child is a compiler's child
  have hmutation : lockdownProcess lock 2 128 = .ok () →
      mutationChild lock mutation = compilerChild mutation := by
    intro hlock
    rw [mutationChild, compilerChild, hlock]
  rw [callsBan_iff]
  constructor
  · intro hfault
    refine ⟨fun hforks => ?_, fun hforks => ?_⟩
    · by_cases hend : enforceTimeout (compilerChild compiler) = false
      · -- banned for the compiler's end: it is to blame, or nobody
        rcases hfault (Or.inr (Or.inl ⟨hforks, hend⟩)) with hrejected | hfails | ⟨hcompiled, -, -⟩
        · rw [hforks.1.safe] at hrejected
          exact absurd hrejected (by simp)
        · exact ChildRun.seen_of_failsItself hfails
        · rw [hend] at hcompiled
          exact absurd hcompiled (by simp)
      · exact seen_of_success (by simpa using hend)
    · obtain ⟨hcompiler, hcompiled, -⟩ := id hforks
      by_cases hend : enforceTimeout (mutationChild lock mutation) = false
      · rcases hfault (Or.inr (Or.inr ⟨hforks, hend⟩)) with hrejected | hfails | ⟨-, hlock, hfails⟩
        · rw [hcompiler.1.safe] at hrejected
          exact absurd hrejected (by simp)
        · -- a compiler that failed was followed by no mutation
          have hfailed : enforceTimeout (compilerChild compiler) = false :=
            enforceTimeout_of_failsItself hfails
          have hsucceeded : enforceTimeout (compilerChild compiler) = true := hcompiled
          rw [hfailed] at hsucceeded
          exact absurd hsucceeded (by simp)
        · exact ⟨hlock, ChildRun.seen_of_failsItself hfails⟩
      · have hsuccess : enforceTimeout (mutationChild lock mutation) = true := by simpa using hend
        have hlock := lockdown_of_success hsuccess
        rw [hmutation hlock] at hsuccess
        exact ⟨hlock, seen_of_success hsuccess⟩
  · rintro ⟨hcompiler, hmutationSeen⟩ (⟨-, hrejected⟩ | ⟨hforks, hend⟩ | ⟨hforks, hend⟩)
    · exact .rejected hrejected
    · exact .compiler (ChildRun.failsItself_of_seen (hcompiler hforks) hend)
    · obtain ⟨hlock, hseen⟩ := hmutationSeen hforks
      have hend' : enforceTimeout (mutationChild lock mutation) = false := hend
      rw [hmutation hlock] at hend'
      exact .mutation hforks.2.1 hlock (ChildRun.failsItself_of_seen hseen hend')

/-- The run in which `c++` cannot be started. -/
def noCompiler : ChildRun := ⟨.execFails, false⟩

/-- **A mutation is banned for want of a compiler.** -/
theorem ownFault_fails_without_compiler :
    ¬ ∀ (stdHash : StdHash) (env : RunnerEnv) (compiler : ChildRun) (lock : LockdownIO)
        (mutation : ChildRun) (sourceCode mutationId : Text) (w : World),
        CallsBan stdHash (env.withChildren compiler lock mutation) sourceCode mutationId w →
        OwnFault sourceCode compiler lock mutation := by
  intro h
  have hban : CallsBan (fun _ => 7) ((RunnerEnv.working ⟨false, true, []⟩).withChildren noCompiler
      .clean ⟨.runs (.exited 0), false⟩) acceptedSource (ascii "1") (.fresh none) := by
    rw [callsBan_iff]
    exact Or.inr (Or.inl ⟨⟨⟨rfl, by decide, rfl, _, rfl, by decide⟩, rfl⟩, by decide⟩)
  rcases h _ _ _ _ _ _ _ _ hban with hrejected | ⟨program, hstart, -⟩ | ⟨hcompiled, -, -⟩
  · exact absurd hrejected (by decide)
  · exact absurd hstart (by simp [noCompiler])
  · exact absurd hcompiled (by decide)

end Swayam.Pipeline
