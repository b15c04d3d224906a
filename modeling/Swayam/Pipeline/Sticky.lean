import Swayam.Pipeline.Remembered

/-!
# SWAYAM — failures that stay

A history of `evaluate_and_execute` calls on one workspace. Calls of different
mutations share the ledger, and a later call sees what the earlier ones have
banned. So does a mutation that is executed: `lockdown_process` leaves `open`,
`write` and `unlink` to it, and it is of the user who owns the ledger. What each
mutation does to the ledger is any function of it; a mutation that its wait has
ended does nothing more, and the compiler writes its binary only.

* `holds_of_failed` — a call whose child ends badly leaves the source's hash in
  the ledger, whatever its program has done to it;
* `keepsRecords_run` — a call keeps the records of the ledger, if the mutation
  that it executes does;
* `sticky_of_bansKept` — as long as every call does, no later call forks a child
  for a source with the hash of a failed one;
* `retried_of_erased` — and once a record is erased, its source runs again.
-/

namespace Swayam.Pipeline

open Stages

/-! ## Histories -/

/-- One call of the runner, and the program that its source is compiled to. -/
structure RunnerCall where
  env        : RunnerEnv
  program    : Program
  sourceCode : Text
  mutationId : Text

variable {stdHash : StdHash}

/-- The world that a call leaves; its `forks` are the children of this call. -/
def RunnerCall.run (stdHash : StdHash) (c : RunnerCall) (w : World) : World :=
  endState (evaluateAndExecuteWith c.program stdHash c.env c.sourceCode c.mutationId w.childless)

/-- The world after a history of calls. -/
def runHistory (stdHash : StdHash) (calls : List RunnerCall) (w : World) : World :=
  calls.foldl (fun w c => c.run stdHash w) w

/-- Every call of the history meets `P`, in the world it starts from. -/
def Throughout (stdHash : StdHash) (P : RunnerCall → World → Prop) :
    World → List RunnerCall → Prop
  | _, [] => True
  | w, c :: calls => P c w ∧ Throughout stdHash P (c.run stdHash w) calls

/-- The call can open, lock, read and write the ledger. -/
def RunnerCall.LedgerWorks (c : RunnerCall) (w : World) : Prop :=
  c.env.ban = some .clean ∧ ∀ io, c.env.banCheck = .ok io → io.Clean w.ledger

/-- A child that the call has started ends in anything but exit status 0 in time. -/
def RunnerCall.Failed (stdHash : StdHash) (c : RunnerCall) (w : World) : Prop :=
  ∃ child ∈ (c.run stdHash w).forks, enforceTimeout (c.env.childEnd child) = false

/-- If the mutation of the call is executed, it leaves every record of the ledger in it. -/
def RunnerCall.KeepsBans (stdHash : StdHash) (c : RunnerCall) (w : World) : Prop :=
  ForksMutation stdHash c.env c.sourceCode → ∀ hash,
    searchTarget hash <:+: w.ledger.getD [] →
      searchTarget hash <:+: (c.program.ledger w.ledger).getD []

/-- Once a child of a call has failed, no later call forks a child for a source with the same
hash. -/
def Sticky (stdHash : StdHash) (w : World) (calls : List RunnerCall) : Prop :=
  ∀ before c between d later, calls = before ++ c :: (between ++ d :: later) →
    c.Failed stdHash (runHistory stdHash before w) →
    stdHash d.sourceCode = stdHash c.sourceCode →
    (d.run stdHash (runHistory stdHash (before ++ c :: between) w)).forks = []

/-- A history in two parts. -/
theorem runHistory_append (calls later : List RunnerCall) (w : World) :
    runHistory stdHash (calls ++ later) w =
      runHistory stdHash later (runHistory stdHash calls w) :=
  List.foldl_append

/-- The first call of a history, and the rest. -/
theorem runHistory_cons (c : RunnerCall) (calls : List RunnerCall) (w : World) :
    runHistory stdHash (c :: calls) w = runHistory stdHash calls (c.run stdHash w) := rfl

/-- The calls of a later part meet `P` from the world that the earlier part leaves. -/
theorem throughout_append {P : RunnerCall → World → Prop} {calls later : List RunnerCall}
    {w : World} : Throughout stdHash P w (calls ++ later) ↔
      Throughout stdHash P w calls ∧
        Throughout stdHash P (runHistory stdHash calls w) later := by
  induction calls generalizing w with
  | nil => exact (and_iff_right trivial).symm
  | cons c calls ih =>
    rw [List.cons_append, Throughout, ih, ← and_assoc]
    rfl

/-! ## The ledger grows -/

/-- The ledger keeps what it holds. -/
def GrowsLedger (w w' : World) : Prop := w.ledger.getD [] <+: w'.ledger.getD []

theorem growsLedger_refl (w : World) : GrowsLedger w w := List.prefix_refl _

theorem growsLedger_trans (a b c : World) (hab : GrowsLedger a b) (hbc : GrowsLedger b c) :
    GrowsLedger a c :=
  List.IsPrefix.trans hab hbc

/-- A ban appends. -/
theorem growsLedger_banSource (env : RunnerEnv) (sourceCode : Text) (exitCode : Int) :
    Within GrowsLedger (banSource stdHash env sourceCode exitCode) :=
  within_call growsLedger_refl fun io _ =>
    within_change fun w => prefix_appendToLedger io _ w.ledger

/-- The vault is not the ledger. -/
theorem growsLedger_setVault (name : Text) (content : Option Text) :
    Within GrowsLedger (setVault name content) :=
  within_change fun w => growsLedger_refl w

/-- **The runner itself takes nothing out of the ledger.** -/
theorem growsLedger_evaluateAndExecute (env : RunnerEnv) (sourceCode mutationId : Text) :
    Within GrowsLedger (evaluateAndExecute stdHash env sourceCode mutationId) :=
  within_evaluateAndExecute growsLedger_refl growsLedger_trans
    (growsLedger_banSource env sourceCode) growsLedger_setVault
    (fun _ => within_change fun w => growsLedger_refl w) mutationId

/-- Nor does what it does behind the execution. -/
theorem growsLedger_afterProgram (env : RunnerEnv) (sourceCode mutationId : Text) :
    Within GrowsLedger (afterProgram stdHash env sourceCode mutationId) := by
  have hclear : ∀ success, Within GrowsLedger (clearVault mutationId success) := by
    intro success
    refine within_bind growsLedger_trans (growsLedger_setVault _ none) fun _ => ?_
    split
    · exact within_pure growsLedger_refl true
    · exact within_bind growsLedger_trans (growsLedger_setVault _ none) fun _ =>
        within_pure growsLedger_refl false
  unfold afterProgram
  split
  · exact hclear true
  · exact within_bind growsLedger_trans (growsLedger_banSource env sourceCode 1) fun _ =>
      hclear false

/-! ## Records in the ledger -/

/-- A ledger that grows goes on to hold a hash. -/
theorem Holds.grows {code : Text} {w w' : World} (h : Holds stdHash code w)
    (hgrows : GrowsLedger w w') : Holds stdHash code w' :=
  List.IsInfix.trans h hgrows.isInfix

/-- **A call keeps the records of the ledger**, if the mutation that it executes does. -/
theorem keepsRecords_run {c : RunnerCall} {w : World} (hkeeps : c.KeepsBans stdHash w)
    {code : Text} (hholds : Holds stdHash code w) : Holds stdHash code (c.run stdHash w) := by
  by_cases hexecuted : ForksMutation stdHash c.env c.sourceCode
  · obtain ⟨vault, forks, hrun⟩ := run_of_forksMutation c.program c.mutationId hexecuted w.childless
    rw [RunnerCall.run, hrun]
    -- behind the program only a ban can follow
    have hleft : Holds stdHash code
        (c.program.effect { w.childless with vault := vault, forks := forks }) :=
      hkeeps hexecuted _ hholds
    exact hleft.grows (growsLedger_afterProgram c.env c.sourceCode c.mutationId _)
  · rw [RunnerCall.run, run_of_not_forksMutation c.program c.mutationId hexecuted]
    exact Holds.grows (w := w.childless) hholds
      (growsLedger_evaluateAndExecute c.env c.sourceCode c.mutationId w.childless)

/-- **A history keeps a record** when each of its calls does. -/
theorem keepsRecords_history {calls : List RunnerCall} {w : World} {code : Text}
    (hkept : Throughout stdHash (RunnerCall.KeepsBans stdHash) w calls)
    (hholds : Holds stdHash code w) : Holds stdHash code (runHistory stdHash calls w) := by
  induction calls generalizing w with
  | nil => exact hholds
  | cons c calls ih =>
    obtain ⟨hfirst, hrest⟩ := hkept
    rw [runHistory_cons]
    exact ih hrest (keepsRecords_run hfirst hholds)

/-! ## Failures -/

/-- A mutation that ends badly is banned behind whatever its program has done. -/
theorem holds_afterProgram {env : RunnerEnv} {sourceCode mutationId : Text}
    (hban : env.ban = some .clean) (hexec : enforceTimeout env.exec = false) (w : World) :
    Holds stdHash sourceCode (endState (afterProgram stdHash env sourceCode mutationId w)) := by
  obtain ⟨w', hw', hholds⟩ : ∃ w', banSource stdHash env sourceCode 1 w = .ok () w' ∧
      Holds stdHash sourceCode w' := holds_banSource hban 1 w
  unfold afterProgram
  rw [if_neg (by rw [hexec]; simp), bind_run_ok hw']
  exact hholds

/-- **A child that ends badly puts the source into the ledger.** -/
theorem holds_of_failed {c : RunnerCall} {w : World} (hworks : c.LedgerWorks w)
    (hfailed : c.Failed stdHash w) : Holds stdHash c.sourceCode (c.run stdHash w) := by
  obtain ⟨child, hmem, hend⟩ := hfailed
  by_cases hexecuted : ForksMutation stdHash c.env c.sourceCode
  · -- the compiler has ended with 0, so it is the mutation that has not
    have hexec : enforceTimeout c.env.exec = false := by
      cases child with
      | compiler =>
        rw [RunnerEnv.childEnd, hexecuted.2.1] at hend
        exact absurd hend (by simp)
      | mutation => exact hend
    obtain ⟨vault, forks, hrun⟩ := run_of_forksMutation c.program c.mutationId hexecuted w.childless
    rw [RunnerCall.run, hrun]
    exact holds_afterProgram hworks.1 hexec _
  · -- the seal holds of no children at the start, and the call keeps it
    have hseal : Sealed stdHash c.sourceCode c.env (c.run stdHash w) := by
      rw [RunnerCall.run, run_of_not_forksMutation c.program c.mutationId hexecuted]
      exact keepsSeal_evaluateAndExecute hworks.1 c.mutationId w.childless fun _ hnone =>
        absurd hnone List.not_mem_nil
    exact hseal child hmem hend

/-- **A hash in the ledger keeps its sources from running.** -/
theorem noFork_of_holds {c : RunnerCall} {w : World} (hworks : c.LedgerWorks w)
    (hholds : Holds stdHash c.sourceCode w) : (c.run stdHash w).forks = [] := by
  -- a check that throws ends the call as well
  have hbanned : ∀ io, c.env.banCheck = .ok io → isBanned stdHash io c.sourceCode = true :=
    fun io hio => (isBanned_clean (hworks.2 io hio) c.sourceCode).mpr hholds
  exact noFork_of_refused c.program c.mutationId (Or.inr hbanned) w.childless

/-- Only a source that the analyzer accepts can fail. -/
theorem safe_of_failed {c : RunnerCall} {w : World} (hfailed : c.Failed stdHash w) :
    (evaluateMutation c.sourceCode).isSafe = true := by
  obtain ⟨child, hmem, -⟩ := hfailed
  by_contra hunsafe
  rw [Bool.not_eq_true] at hunsafe
  have hnone : (c.run stdHash w).forks = [] :=
    noFork_of_refused c.program c.mutationId (Or.inl hunsafe) w.childless
  rw [hnone] at hmem
  exact List.not_mem_nil hmem

/-! ## Erased records -/

/-- A call in which nothing fails. -/
def RunnerCall.retry (io : LedgerIO) (sourceCode : Text) : RunnerCall :=
  ⟨.working io, .harmless, sourceCode, []⟩

/-- **A source whose record is erased runs again**: when the mutation of a later call takes the
record of a failed source out of the ledger, and ends well, some call that works forks the
compiler for that source. -/
theorem retried_of_erased {w : World} {f c : RunnerCall} (hfirst : f.LedgerWorks w)
    (hfailed : f.Failed stdHash w) (hsecond : c.LedgerWorks (f.run stdHash w))
    (hexecuted : ForksMutation stdHash c.env c.sourceCode)
    (hended : enforceTimeout c.env.exec = true)
    (herased : ¬ searchTarget (stdHash f.sourceCode) <:+:
      (c.program.ledger (f.run stdHash w).ledger).getD []) :
    ∃ d, Throughout stdHash RunnerCall.LedgerWorks w [f, c, d] ∧ ¬ Sticky stdHash w [f, c, d] := by
  have hledger : (c.run stdHash (f.run stdHash w)).ledger =
      c.program.ledger (f.run stdHash w).ledger := by
    obtain ⟨vault, forks, hrun⟩ :=
      run_of_forksMutation c.program c.mutationId hexecuted (f.run stdHash w).childless
    rw [RunnerCall.run, hrun, afterProgram, hended]
    rfl
  obtain ⟨io, hio⟩ := exists_clean (c.program.ledger (f.run stdHash w).ledger)
  have hclear : isBanned stdHash io f.sourceCode = false := by
    rw [← Bool.not_eq_true, isBanned_clean hio]
    exact herased
  have hthird : (RunnerCall.retry io f.sourceCode).LedgerWorks (c.run stdHash (f.run stdHash w)) := by
    refine ⟨rfl, fun io' hio' => ?_⟩
    rw [← Except.ok.inj hio', hledger]
    exact hio
  refine ⟨.retry io f.sourceCode, ⟨hfirst, hsecond, hthird, trivial⟩, fun hsticky => ?_⟩
  have hnone := hsticky [] f [c] (.retry io f.sourceCode) [] rfl hfailed rfl
  have hcompiler : Child.compiler ∈ ((RunnerCall.retry io f.sourceCode).run stdHash
      (runHistory stdHash ([] ++ f :: [c]) w)).forks :=
    compiler_of_not_refused .harmless [] (safe_of_failed hfailed) hclear rfl rfl rfl rfl _
  rw [hnone] at hcompiler
  exact absurd hcompiler List.not_mem_nil

/-! ## Failure is sticky -/

/-- **Failure is sticky as long as the executed mutations leave the records in the ledger.** In
every history of calls whose ledger works, and whose executed mutations keep the records of the
ledger, once a child of a call has ended in anything but exit status 0 in time, no later call
forks a child for a source with the same hash. A mutation that erases the record of a failed
source and ends well undoes that: some history that goes on behind it is not sticky. -/
theorem sticky_of_bansKept (stdHash : StdHash) :
    (∀ w calls, Throughout stdHash RunnerCall.LedgerWorks w calls →
      Throughout stdHash (RunnerCall.KeepsBans stdHash) w calls → Sticky stdHash w calls) ∧
    ∀ w f c, f.LedgerWorks w → f.Failed stdHash w → c.LedgerWorks (f.run stdHash w) →
      ForksMutation stdHash c.env c.sourceCode → enforceTimeout c.env.exec = true →
      ¬ searchTarget (stdHash f.sourceCode) <:+:
        (c.program.ledger (f.run stdHash w).ledger).getD [] →
      ∃ d, Throughout stdHash RunnerCall.LedgerWorks w [f, c, d] ∧
        ¬ Sticky stdHash w [f, c, d] := by
  refine ⟨?_, fun w f c => retried_of_erased⟩
  rintro w calls hworks hkept before c between d later rfl hfailed hhash
  obtain ⟨-, hfirst, hrest⟩ := throughout_append.mp hworks
  obtain ⟨-, hlast, -⟩ := throughout_append.mp hrest
  obtain ⟨-, -, hkeptRest⟩ := throughout_append.mp hkept
  obtain ⟨hkeptBetween, -⟩ := throughout_append.mp hkeptRest
  rw [runHistory_append, runHistory_cons]
  refine noFork_of_holds hlast ?_
  -- banned behind the failure, and kept through the calls in between
  have hbanned : Holds stdHash c.sourceCode (runHistory stdHash between
      (c.run stdHash (runHistory stdHash before w))) :=
    keepsRecords_history hkeptBetween (holds_of_failed hfirst hfailed)
  rw [Holds, hhash]
  exact hbanned

/-! ### A failed source and another one -/

/-- Another accepted source. -/
def otherSource : Text := acceptedSource ++ [newline]

/-- A `std::hash` that tells the two apart. -/
def sourceHash : StdHash := fun t => if t = acceptedSource then 7 else 8

/-- The ledger behind a failed compilation of the first. -/
def failedLedger : Text := ascii "7 | EXIT_CODE: 255\n"

/-- A call in which the compiler fails on the first. -/
def failingCall : RunnerCall :=
  ⟨{ RunnerEnv.working ⟨false, true, []⟩ with compile := .exited 1 }, .harmless, acceptedSource,
    ascii "1"⟩

/-- A call in which nothing fails on the other, whose program does this to the ledger. -/
def executedCall (ledger : Option Text → Option Text) : RunnerCall :=
  ⟨.working ⟨true, true, [some failedLedger, some []]⟩, { Program.harmless with ledger := ledger },
    otherSource, ascii "2"⟩

/-- A retry of the first. -/
def retriedCall (content : Text) : RunnerCall :=
  ⟨.working ⟨true, true, [some content, some []]⟩, .harmless, acceptedSource, ascii "3"⟩

/-- A ledger of one chunk, read in one call. -/
theorem clean_oneChunk {content : Text} (hne : content ≠ []) (hlen : content.length ≤ 4096) :
    LedgerIO.Clean ⟨true, true, [some content, some []]⟩ (some content) := by
  refine ⟨rfl, rfl, ?_⟩
  rintro _ ⟨⟩
  rw [← List.append_nil content]
  simpa using ReadsOf.chunk content [] [some []] hne hlen (.eof [])

/-- The first call can use the ledger, -/
theorem failingCall_works : failingCall.LedgerWorks (.fresh none) := by
  refine ⟨rfl, fun io hio => ?_⟩
  rw [← Except.ok.inj hio]
  exact ⟨rfl, rfl, fun content h => absurd h (by simp [World.fresh])⟩

/-- fails to compile, -/
theorem failingCall_failed : failingCall.Failed sourceHash (.fresh none) :=
  ⟨.compiler, by decide, rfl⟩

/-- and leaves its record there. -/
theorem failingCall_ledger :
    (failingCall.run sourceHash (.fresh none)).ledger = some failedLedger := by
  decide

/-- The second call can use it as well, -/
theorem executedCall_works (ledger : Option Text → Option Text) :
    (executedCall ledger).LedgerWorks (failingCall.run sourceHash (.fresh none)) := by
  refine ⟨rfl, fun io hio => ?_⟩
  rw [← Except.ok.inj hio, failingCall_ledger]
  exact clean_oneChunk (by decide) (by decide)

/-- and executes its mutation. -/
theorem executedCall_executes (ledger : Option Text → Option Text) :
    ForksMutation sourceHash (executedCall ledger).env (executedCall ledger).sourceCode := by
  have hsafe : (evaluateMutation otherSource).isSafe = true := by decide
  have hclear : isBanned sourceHash ⟨true, true, [some failedLedger, some []]⟩ otherSource =
      false := by decide
  exact ⟨⟨⟨rfl, hsafe, rfl, _, rfl, hclear⟩, rfl⟩, rfl, rfl, rfl⟩

/-- A program that writes a line to the ledger. -/
def writeLine (ledger : Option Text) : Option Text := some (ledger.getD [] ++ ascii "8\n")

theorem sticky_of_bansKept_writtenTo :
    Sticky sourceHash (.fresh none)
      [failingCall, executedCall writeLine, retriedCall (failedLedger ++ ascii "8\n")] := by
  refine (sticky_of_bansKept sourceHash).1 _ _
    ⟨failingCall_works, executedCall_works writeLine, ⟨rfl, fun io hio => ?_⟩, trivial⟩
    ⟨fun h => ?_, fun _ hash h => ?_, fun _ hash h => h, trivial⟩
  · have hledger : ((executedCall writeLine).run sourceHash
        (failingCall.run sourceHash (.fresh none))).ledger =
        some (failedLedger ++ ascii "8\n") := by decide
    rw [← Except.ok.inj hio, hledger]
    exact clean_oneChunk (by decide) (by decide)
  · -- its compiler fails
    exact absurd h.2.1 (by decide)
  · exact List.IsInfix.trans h (List.prefix_append ..).isInfix

/-- **A failed source runs again**: the mutation of another call truncates the ledger, and ends
well. -/
theorem sticky_fails_on_erasure :
    ¬ ∀ stdHash w calls, Throughout stdHash RunnerCall.LedgerWorks w calls →
      Sticky stdHash w calls := by
  intro h
  have herased : ¬ searchTarget (sourceHash failingCall.sourceCode) <:+:
      ((executedCall fun _ => some []).program.ledger
        (failingCall.run sourceHash (.fresh none)).ledger).getD [] := by
    simp [executedCall, searchTarget, decimal_ne_nil]
  obtain ⟨d, hworks, hfails⟩ := retried_of_erased failingCall_works failingCall_failed
    (executedCall_works _) (executedCall_executes _) rfl herased
  exact hfails (h sourceHash _ _ hworks)

end Swayam.Pipeline
