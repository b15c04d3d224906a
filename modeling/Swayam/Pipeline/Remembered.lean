import Swayam.Pipeline.Daemon

/-!
# SWAYAM — rejected mutations in the ledger

A cycle rejects its code in three places: the supervisor's own analysis, the
end of the compiler, and the end of the mutation. The last two are followed by
a ban; the first returns in front of the runner, whose ban for the same
analysis (254) is never reached.

The ledger is what the calls of one cycle make of it: its mutation leaves it alone
(`Sticky.lean` has the histories in which mutations write to it), and so does every
other process in the meantime.

* `sealed_cycle` — whatever child a cycle has forked, if it ended badly the ledger
  holds the code's hash at the end;
* `remembered_iff` — so a rejected code is remembered exactly when the analyzer
  accepts it, or the ledger has reported it before.
-/

namespace Swayam.Pipeline

open Stages

/-! ## Rejections -/

/-- How the cycle's children end. -/
def RunnerEnv.childEnd (env : RunnerEnv) : Child → ChildEnd
  | .compiler => env.compile
  | .mutation => env.exec

/-- A world in which the cycle has forked no child yet. -/
def World.childless (w : World) : World := { w with forks := [] }

/-- The files and the record that a cycle leaves, fault or not. -/
def cycleEnd (stdHash : StdHash) (env : CycleEnv) (w : World) : World :=
  endState (orchestrateEvolution stdHash env w.childless)

/-- The analyzer rejects the evolved code. -/
def RejectedByAnalyzer (env : CycleEnv) (evolvedCode : Text) : Prop :=
  env.createVault = .ok true ∧ env.analyzer = .ok () ∧
    (evaluateMutation evolvedCode).isSafe = false

/-- A child of the cycle ends in anything but exit status 0 in time. -/
def RejectedByChild (stdHash : StdHash) (env : CycleEnv) (w : World) : Prop :=
  ∃ child ∈ (cycleEnd stdHash env w).forks, enforceTimeout (env.runner.childEnd child) = false

/-- `is_banned` of the code is true, whenever its system calls succeed. -/
def Remembered (stdHash : StdHash) (ledger : Option Text) (code : Text) : Prop :=
  ∀ io : LedgerIO, io.Clean ledger → isBanned stdHash io code = true

/-! ## What the ledger keeps -/

section Ledger

variable (stdHash : StdHash) (code : Text)

/-- The ledger holds the hash of the code, as the ban check looks for it. -/
def Holds (w : World) : Prop := searchTarget (stdHash code) <:+: w.ledger.getD []

/-- Every child that ended badly has put the code into the ledger. -/
def Sealed (env : RunnerEnv) (w : World) : Prop :=
  ∀ child ∈ w.forks, enforceTimeout (env.childEnd child) = false → Holds stdHash code w

/-- Nothing about children and ledger changes. -/
def Aside (w w' : World) : Prop := w'.forks = w.forks ∧ w'.ledger = w.ledger

/-- To do nothing is aside of the ledger and the children. -/
theorem aside_refl (w : World) : Aside w w := ⟨rfl, rfl⟩

theorem aside_trans (a b c : World) (hab : Aside a b) (hbc : Aside b c) : Aside a c :=
  ⟨hbc.1.trans hab.1, hbc.2.trans hab.2⟩

/-- A part of the program keeps the seal. -/
def KeepsSeal (env : RunnerEnv) (w w' : World) : Prop :=
  Sealed stdHash code env w → Sealed stdHash code env w'

variable {stdHash code}

theorem keepsSeal_refl {env : RunnerEnv} (w : World) : KeepsSeal stdHash code env w w := id

/-- What keeps the seal, one behind the other. -/
theorem keepsSeal_trans {env : RunnerEnv} (a b c : World) (hab : KeepsSeal stdHash code env a b)
    (hbc : KeepsSeal stdHash code env b c) : KeepsSeal stdHash code env a c :=
  hbc ∘ hab

/-- What leaves the ledger and the children alone keeps the seal. -/
theorem keepsSeal_of_aside {env : RunnerEnv} {α : Type} {x : M α} (h : Within Aside x) :
    Within (KeepsSeal stdHash code env) x := by
  intro w hsealed child hmem hend
  obtain ⟨hforks, hledger⟩ := h w
  rw [hforks] at hmem
  rw [Holds, hledger]
  exact hsealed child hmem hend

/-- The vault is aside. -/
theorem aside_setVault (name : Text) (content : Option Text) :
    Within Aside (setVault name content) :=
  within_change fun _ => ⟨rfl, rfl⟩

/-- A fork is sealed as long as the child ends with 0. -/
theorem keepsSeal_forkChild {env : RunnerEnv} {child : Child}
    (hend : enforceTimeout (env.childEnd child) = true) :
    Within (KeepsSeal stdHash code env) (forkChild child) := by
  intro w hsealed child' hmem hbad
  rcases List.mem_append.mp hmem with hold | hnew
  · exact hsealed child' hold hbad
  · rw [List.mem_singleton.mp hnew, hend] at hbad
    exact absurd hbad (by simp)

/-- **A ban on a writable ledger** puts the code into it. -/
theorem holds_banSource {env : RunnerEnv} (hban : env.ban = some .clean) (exitCode : Int)
    (w : World) : ∃ w', banSource stdHash env code exitCode w = .ok () w' ∧
      Holds stdHash code w' := by
  refine ⟨{ w with ledger := banMutation stdHash code exitCode w.ledger }, ?_, ?_⟩
  · rw [banSource, hban]
    rfl
  · -- the entry starts with what the check searches for
    have hentry := searchTarget_prefix_banEntry (stdHash code) exitCode
    exact List.IsInfix.trans hentry.isInfix (List.suffix_append ..).isInfix

end Ledger

/-! ## The runner -/

section Runner

variable {stdHash : StdHash} {code : Text} {env : RunnerEnv}

/-- A ban seals whatever children there are, and what follows it keeps the seal. -/
theorem sealed_ban (hban : env.ban = some .clean) {exitCode : Int} {x : M Bool}
    (hx : Within (KeepsSeal stdHash code env) x) (w : World) :
    Sealed stdHash code env
      (endState ((banSource stdHash env code exitCode >>= fun _ => x) w)) := by
  obtain ⟨w', hw', hholds⟩ : ∃ w', banSource stdHash env code exitCode w = .ok () w' ∧
      Holds stdHash code w' := holds_banSource hban exitCode w
  rw [bind_run_ok hw']
  exact hx w' fun _ _ _ => hholds

theorem keepsSeal_pure {α : Type} (a : α) :
    Within (KeepsSeal stdHash code env) (pure a : M α) :=
  within_pure keepsSeal_refl a

/-- The `try` block: the mutation ends with 0, or is banned. -/
theorem keepsSeal_executeMutation (hban : env.ban = some .clean) :
    Within (KeepsSeal stdHash code env) (executeMutation stdHash env code) := by
  rw [executeMutation_eq]
  split
  · exact keepsSeal_pure false
  · cases hexec : enforceTimeout env.exec with
    | true =>
      exact within_bind keepsSeal_trans (keepsSeal_forkChild hexec) fun _ => keepsSeal_pure true
    | false =>
      intro w _
      exact sealed_ban hban (keepsSeal_pure false) { w with forks := w.forks ++ [.mutation] }

/-- **From the compiler on**, every child ends with 0 or is followed by a ban. -/
theorem keepsSeal_compileAndExecute (hban : env.ban = some .clean) (mutationId : Text) :
    Within (KeepsSeal stdHash code env) (compileAndExecute stdHash env code mutationId) := by
  have hset : ∀ name content {x : M Bool}, Within (KeepsSeal stdHash code env) x →
      Within (KeepsSeal stdHash code env) (setVault name content >>= fun _ => x) :=
    fun name content _ hx =>
      within_bind keepsSeal_trans (keepsSeal_of_aside (aside_setVault name content)) fun _ => hx
  unfold compileAndExecute compileAndExecuteWith
  cases hcompile : enforceTimeout env.compile with
  | false =>
    intro w _
    -- the compiler has failed: the ban seals it, and the source is removed
    exact sealed_ban hban (hset _ none (keepsSeal_pure false))
      { w with forks := w.forks ++ [.compiler],
               vault := Function.update w.vault (binaryName mutationId) env.binary }
  | true =>
    refine within_bind keepsSeal_trans (keepsSeal_forkChild hcompile) fun _ => hset _ _ ?_
    refine within_bind keepsSeal_trans (keepsSeal_executeMutation hban) fun success => ?_
    refine hset _ none ?_
    split
    · exact keepsSeal_pure true
    · exact hset _ none (keepsSeal_pure false)

/-- **The runner seals**: a child that ends badly is followed by its ban. -/
theorem keepsSeal_evaluateAndExecute (hban : env.ban = some .clean) (mutationId : Text) :
    Within (KeepsSeal stdHash code env) (evaluateAndExecute stdHash env code mutationId) := by
  have hset : ∀ name content {x : M Bool}, Within (KeepsSeal stdHash code env) x →
      Within (KeepsSeal stdHash code env) (setVault name content >>= fun _ => x) :=
    fun name content _ hx =>
      within_bind keepsSeal_trans (keepsSeal_of_aside (aside_setVault name content)) fun _ => hx
  unfold evaluateAndExecute evaluateAndExecuteWith
  refine within_call keepsSeal_refl fun _ _ => ?_
  split
  · exact fun w _ => sealed_ban hban (keepsSeal_pure false) w
  · refine within_call keepsSeal_refl fun written _ => ?_
    split
    · exact hset _ _ (keepsSeal_pure false)
    · refine hset _ _ (within_call keepsSeal_refl fun io _ => ?_)
      split
      · exact hset _ none (keepsSeal_pure false)
      · split
        · exact keepsSeal_pure false
        · exact keepsSeal_compileAndExecute hban mutationId

end Runner

/-! ## The rest of the cycle -/

/-- What a cycle puts on record is aside as well. -/
theorem ignoresRecord_aside : IgnoresRecord Aside where
  same _ _ _ _ hledger hforks := ⟨hforks, hledger⟩
  trans := aside_trans

section Cycle

variable {stdHash : StdHash} {env : CycleEnv} {evolvedCode : Text}

/-- **A code that the analyzer rejects** gets no child and no ban. -/
theorem aside_of_rejected (hforge : env.forge = .ok evolvedCode)
    (hrejected : (evaluateMutation evolvedCode).isSafe = false) :
    Within Aside (orchestrateEvolution stdHash env) := by
  rw [orchestrateEvolution_eq]
  refine within_call aside_refl fun created _ => ?_
  split
  · exact within_writeStatus ignoresRecord_aside env _ _
  · rw [hforge]
    show Within Aside (evaluateEvolution stdHash env evolvedCode)
    rw [evaluateEvolution_eq]
    refine within_call aside_refl fun _ _ => ?_
    dsimp only
    rw [if_pos hrejected]
    exact within_call aside_refl fun _ _ => within_writeStatus ignoresRecord_aside env _ _

/-- **Every cycle keeps the seal**, from its creation of the vault to its last status. -/
theorem keepsSeal_cycle (hforge : env.forge = .ok evolvedCode)
    (hban : env.runner.ban = some .clean) :
    Within (KeepsSeal stdHash evolvedCode env.runner) (orchestrateEvolution stdHash env) := by
  have hstatus : ∀ outcome reason,
      Within (KeepsSeal stdHash evolvedCode env.runner) (env.writeStatus outcome reason) :=
    fun outcome reason =>
      keepsSeal_of_aside (within_writeStatus ignoresRecord_aside env outcome reason)
  rw [orchestrateEvolution_eq]
  refine within_call keepsSeal_refl fun created _ => ?_
  split
  · exact hstatus _ _
  · rw [hforge]
    show Within _ (evaluateEvolution stdHash env evolvedCode)
    rw [evaluateEvolution_eq]
    refine within_call keepsSeal_refl fun _ _ => ?_
    dsimp only
    split
    · exact within_call keepsSeal_refl fun _ _ => hstatus _ _
    · refine within_call keepsSeal_refl fun opens _ => ?_
      split
      · exact hstatus _ _
      · -- only the runner forks
        refine within_bind keepsSeal_trans
          (keepsSeal_of_aside (within_change fun _ => ⟨rfl, rfl⟩)) fun _ => ?_
        refine within_bind keepsSeal_trans (keepsSeal_evaluateAndExecute hban _) fun success => ?_
        split
        · refine within_bind keepsSeal_trans
            (keepsSeal_of_aside (within_writeRationale ignoresRecord_aside env _)) fun _ => ?_
          refine within_bind keepsSeal_trans
            (keepsSeal_of_aside (within_publishEvolution ignoresRecord_aside env.git _ _))
            fun published => ?_
          split
          · exact keepsSeal_of_aside (within_assimilate ignoresRecord_aside stdHash env evolvedCode)
          · exact hstatus _ _
        · exact hstatus _ _

end Cycle

/-! ## Whole cycles -/

/-- What the ledger holds, the ban check reports. -/
theorem remembered_of_holds {stdHash : StdHash} {code : Text} {w : World}
    (h : Holds stdHash code w) : Remembered stdHash w.ledger code :=
  fun _ hio => (isBanned_clean hio code).mpr h

/-- **A child that ended badly is remembered.** -/
theorem sealed_cycle {stdHash : StdHash} {env : CycleEnv} {evolvedCode : Text} (w : World)
    (hforge : env.forge = .ok evolvedCode) (hban : env.runner.ban = some .clean) :
    Sealed stdHash evolvedCode env.runner (cycleEnd stdHash env w) :=
  keepsSeal_cycle hforge hban w.childless fun _ hmem => absurd hmem List.not_mem_nil

/-- **Rejected mutations are remembered, when the analyzer is not what rejects them.** For every
cycle whose code is rejected, by the analyzer or by the end of a child, and whose ban can be
written: the ban check reports the code afterwards if and only if the analyzer accepts the
code, or the check has reported it before the cycle. -/
theorem remembered_iff (stdHash : StdHash) (env : CycleEnv) (w : World) (evolvedCode : Text)
    (hforge : env.forge = .ok evolvedCode) (hban : env.runner.ban = some .clean)
    (hrejected : RejectedByAnalyzer env evolvedCode ∨ RejectedByChild stdHash env w) :
    Remembered stdHash (cycleEnd stdHash env w).ledger evolvedCode ↔
      ((evaluateMutation evolvedCode).isSafe = true ∨
        Remembered stdHash w.ledger evolvedCode) := by
  cases hsafe : (evaluateMutation evolvedCode).isSafe with
  | false =>
    -- the ledger is what it was
    have haside : Within Aside (orchestrateEvolution stdHash env) := aside_of_rejected hforge hsafe
    obtain ⟨-, hledger⟩ := haside w.childless
    rw [cycleEnd, hledger]
    simp [World.childless]
  | true =>
    refine iff_of_true ?_ (Or.inl rfl)
    rcases hrejected with ⟨-, -, hunsafe⟩ | ⟨child, hmem, hend⟩
    · rw [hsafe] at hunsafe
      exact absurd hunsafe (by simp)
    · exact remembered_of_holds (sealed_cycle w hforge hban child hmem hend)

/-- A cycle in which nothing fails but this. -/
def compileFails : CycleEnv :=
  { (DaemonEnv.working acceptedSource).cycle with
    runner := { RunnerEnv.working ⟨false, true, []⟩ with compile := .exited 1 } }

theorem remembered_iff_compileFails :
    Remembered (fun _ => 7) (cycleEnd (fun _ => 7) compileFails (.fresh none)).ledger
        acceptedSource ↔
      ((evaluateMutation acceptedSource).isSafe = true ∨
        Remembered (fun _ => 7) (World.fresh none).ledger acceptedSource) :=
  remembered_iff (fun _ => 7) compileFails (.fresh none) acceptedSource rfl rfl
    (Or.inr ⟨.compiler, by decide, rfl⟩)

/-- The code that `main` forges has no exception handling. -/
theorem forgedCode_rejected : (evaluateMutation forgedCode).isSafe = false := by decide +kernel

/-- **A rejected mutation is forgotten**: the analyzer rejects what the forge has made of the
base algorithm, and the ledger stays empty. -/
theorem remembered_fails_on_analysis :
    ¬ ∀ (stdHash : StdHash) (env : CycleEnv) (w : World) (evolvedCode : Text),
        env.forge = .ok evolvedCode → env.runner.ban = some .clean →
        RejectedByAnalyzer env evolvedCode ∨ RejectedByChild stdHash env w →
        Remembered stdHash (cycleEnd stdHash env w).ledger evolvedCode := by
  intro h
  have hremembered := h (fun _ => 7) (DaemonEnv.working forgedCode).cycle (.fresh none) forgedCode
    rfl rfl (Or.inl ⟨rfl, rfl, forgedCode_rejected⟩)
  -- the cycle has not touched the ledger, which does not exist
  have haside :
      Within Aside (orchestrateEvolution (fun _ => 7) (DaemonEnv.working forgedCode).cycle) :=
    aside_of_rejected rfl forgedCode_rejected
  obtain ⟨-, hledger⟩ := haside (World.fresh none).childless
  rw [cycleEnd, hledger] at hremembered
  have hclean : LedgerIO.Clean ⟨false, true, []⟩ none := ⟨rfl, rfl, by simp⟩
  exact absurd (hremembered ⟨false, true, []⟩ hclean) (by decide)

end Swayam.Pipeline
