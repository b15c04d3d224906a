import Swayam.Pipeline.Remembered

/-!
# SWAYAM — what a failure leaves behind

The runner puts the source into the vault before it knows that the source will
run, and the cycle writes it into `src/generated` before the runner has seen
it. Each exit behind such a write would have to undo it.

What is left here is what the runner, the compiler and the cycle leave: the mutation
itself, when it is executed, leaves the vault and `src/generated` alone. A cycle that
publishes is out of question, so that no git command changes `src/generated`.

* `vault_kept_iff` — an evaluation that fails leaves the vault as it was exactly
  when the compiler's fork succeeds, a compiler that fails leaves what stood
  under the binary's name, and nothing stood there when the execution fails;
* `generated_kept_iff` — a cycle that does not publish leaves `src/generated` as
  it was exactly when it does not write the file, or writes what was in it.
-/

namespace Swayam.Pipeline

open Stages

/-! ## The vault -/

/-- The two files of a mutation have different names. -/
theorem sourceName_ne_binaryName (mutationId : Text) :
    sourceName mutationId ≠ binaryName mutationId := by
  intro heq
  have hhead := congrArg List.head? heq
  simp [sourceName, binaryName, ascii, asciiByte] at hhead

/-- `write_securely` is all or nothing: what it refuses leaves what was there, and it only
writes under a name that is free. -/
structure WriteAllOrNothing (env : RunnerEnv) (mutationId : Text) (w : World) : Prop where
  refused : env.vault = .ok false → env.vaultLeft = w.vault (sourceName mutationId)
  written : env.vault = .ok true → w.vault (sourceName mutationId) = none

/-- The compiler fails, and the ban returns. -/
def CompilerFails (env : RunnerEnv) : Prop :=
  enforceTimeout env.compile = false ∧ env.ban.isSome = true

/-- The compiler succeeds and the execution does not, with its ban returning. -/
def ExecutionFails (env : RunnerEnv) : Prop :=
  enforceTimeout env.compile = true ∧
    (env.lease = false ∨ env.execFork = false ∨
      enforceTimeout env.exec = false ∧ env.ban.isSome = true)

/-- The exits behind the fork of the compiler undo what was done. -/
structure Undoes (env : RunnerEnv) (mutationId : Text) (w : World) : Prop where
  forked   : env.compileFork = true
  compiled : CompilerFails env → env.binary = w.vault (binaryName mutationId)
  executed : ExecutionFails env → w.vault (binaryName mutationId) = none

section Vault

variable {stdHash : StdHash} {env : RunnerEnv} {sourceCode mutationId : Text}

theorem banSource_run (io : LedgerWriteIO) (hban : env.ban = some io) (exitCode : Int)
    (w : World) : banSource stdHash env sourceCode exitCode w =
      .ok () { w with ledger := banMutationIO stdHash io sourceCode exitCode w.ledger } := by
  rw [banSource, hban]
  rfl

/-- A ban that returns touches the ledger only. -/
theorem banSource_bind_ok {k : Unit → M Bool} {exitCode : Int} {b : Bool} {w w' : World}
    (h : (banSource stdHash env sourceCode exitCode >>= k) w = .ok b w') :
    env.ban.isSome = true ∧ ∃ w₁, w₁.vault = w.vault ∧ k () w₁ = .ok b w' := by
  cases hban : env.ban with
  | none =>
    have hrun : banSource stdHash env sourceCode exitCode w = .error .terminate w := by
      rw [banSource, hban]
      rfl
    rw [bind_run_error hrun] at h
    exact absurd h (by simp)
  | some io =>
    rw [bind_run_ok (banSource_run io hban exitCode w)] at h
    exact ⟨rfl, { w with ledger := banMutationIO stdHash io sourceCode exitCode w.ledger }, rfl, h⟩

/-- **The `try` block** leaves the vault alone, and fails by the lease, by the fork, or by the
end of the mutation. -/
theorem executeMutation_ok {b : Bool} {w w' : World}
    (h : executeMutation stdHash env sourceCode w = .ok b w') :
    w'.vault = w.vault ∧ (b = false → env.lease = false ∨ env.execFork = false ∨
      enforceTimeout env.exec = false ∧ env.ban.isSome = true) := by
  rw [executeMutation_eq] at h
  split at h
  · rename_i hcaught
    cases h
    refine ⟨rfl, fun _ => ?_⟩
    rcases hcaught with hlease | hfork
    · exact Or.inl hlease
    · exact Or.inr (Or.inl hfork)
  · rw [bind_run_ok (x := forkChild .mutation) rfl] at h
    split at h
    · cases h
      exact ⟨rfl, fun hb => absurd hb (by simp)⟩
    · rename_i hexec
      rw [Bool.not_eq_true] at hexec
      obtain ⟨hban, w₁, hvault, hrest⟩ := banSource_bind_ok h
      cases hrest
      exact ⟨hvault, fun _ => Or.inr (Or.inr ⟨hexec, hban⟩)⟩

variable (stdHash sourceCode) in
/-- And then it fails. -/
theorem executeMutation_fails (hfails : env.lease = false ∨ env.execFork = false ∨
      enforceTimeout env.exec = false ∧ env.ban.isSome = true) (w : World) :
    ∃ w', executeMutation stdHash env sourceCode w = .ok false w' := by
  rw [executeMutation_eq]
  by_cases hcaught : env.lease = false ∨ env.execFork = false
  · rw [if_pos hcaught]
    exact ⟨w, rfl⟩
  · rw [if_neg hcaught, bind_run_ok (x := forkChild .mutation) rfl]
    obtain ⟨hexec, hban⟩ : enforceTimeout env.exec = false ∧ env.ban.isSome = true := by
      tauto
    obtain ⟨io, hio⟩ := Option.isSome_iff_exists.mp hban
    rw [if_neg (by rw [hexec]; simp), bind_run_ok (banSource_run io hio 1 _)]
    exact ⟨_, rfl⟩

/-- **What a failed call leaves of its two files**, from the fork of the compiler on: the source is
removed, and the binary only when the compiler succeeded. -/
theorem compileAndExecute_ok_false {w w' : World}
    (h : compileAndExecute stdHash env sourceCode mutationId w = .ok false w') :
    CompilerFails env ∧ w'.vault = Function.update (Function.update w.vault
        (binaryName mutationId) env.binary) (sourceName mutationId) none ∨
    ExecutionFails env ∧ w'.vault = Function.update (Function.update w.vault
        (binaryName mutationId) none) (sourceName mutationId) none := by
  unfold compileAndExecute compileAndExecuteWith at h
  rw [bind_run_ok (x := forkChild .compiler) rfl, bind_run_ok (x := setVault _ _) rfl] at h
  by_cases hcompile : enforceTimeout env.compile = false
  · rw [if_pos hcompile] at h
    -- the compiler failed: the source is removed, what it left stays
    obtain ⟨hban, w₁, hvault, hrest⟩ := banSource_bind_ok h
    cases hrest
    left
    refine ⟨⟨hcompile, hban⟩, ?_⟩
    show Function.update w₁.vault _ _ = _
    rw [hvault]
  · rw [if_neg hcompile, bind_run] at h
    rw [Bool.not_eq_false] at hcompile
    rw [executeMutationWith_harmless] at h
    -- it succeeded, so the execution did not: both files are removed
    cases hexec : executeMutation stdHash env sourceCode
        { w with
          forks := w.forks ++ [Child.compiler]
          vault := Function.update w.vault (binaryName mutationId) env.binary } with
    | error f w₁ =>
      rw [hexec] at h
      exact absurd h (by simp)
    | ok success w₁ =>
      rw [hexec] at h
      obtain ⟨hvault, hfails⟩ := executeMutation_ok hexec
      cases success with
      | true => exact absurd h (by simp [bind_run, setVault, change, pure, EStateM.pure])
      | false =>
        cases h
        right
        refine ⟨⟨hcompile, hfails rfl⟩, ?_⟩
        show Function.update (Function.update w₁.vault _ _) _ _ = _
        rw [hvault, Function.update_idem]

variable (stdHash sourceCode mutationId) in
theorem compileAndExecute_fails (hfails : CompilerFails env ∨ ExecutionFails env) (w : World) :
    ∃ w', compileAndExecute stdHash env sourceCode mutationId w = .ok false w' := by
  unfold compileAndExecute compileAndExecuteWith
  rw [bind_run_ok (x := forkChild .compiler) rfl, bind_run_ok (x := setVault _ _) rfl]
  rcases hfails with ⟨hcompile, hban⟩ | ⟨hcompile, hexec⟩
  · obtain ⟨io, hio⟩ := Option.isSome_iff_exists.mp hban
    rw [if_pos hcompile, bind_run_ok (banSource_run io hio 255 _)]
    exact ⟨_, rfl⟩
  · obtain ⟨w', hw'⟩ := executeMutation_fails stdHash sourceCode
      hexec { w with
        forks := w.forks ++ [Child.compiler]
        vault := Function.update w.vault (binaryName mutationId) env.binary }
    rw [if_neg (by rw [hcompile]; simp), executeMutationWith_harmless, bind_run_ok hw']
    exact ⟨_, rfl⟩

variable (mutationId) in
/-- The call up to the fork of the compiler, on a program that leaves the files alone. -/
theorem evaluateAndExecute_run (h : ReachesCompiler stdHash env sourceCode) (w : World) :
    evaluateAndExecute stdHash env sourceCode mutationId w =
      (if env.compileFork = false then pure false
        else compileAndExecute stdHash env sourceCode mutationId) { w with
          vault := Function.update w.vault (sourceName mutationId) (some sourceCode) } :=
  evaluateAndExecuteWith_run .harmless mutationId h w

/-- The exits in front of it undo what they did. -/
theorem vault_kept_of_not_reaches {w w' : World} (hwrite : WriteAllOrNothing env mutationId w)
    (hreach : ¬ ReachesCompiler stdHash env sourceCode)
    (h : evaluateAndExecute stdHash env sourceCode mutationId w = .ok false w') :
    w'.vault = w.vault := by
  unfold evaluateAndExecute evaluateAndExecuteWith at h
  cases hanalyzer : env.analyzer with
  | error f =>
    rw [hanalyzer] at h
    exact absurd h (by simp [bind_run, call])
  | ok u =>
    rw [hanalyzer, bind_run_ok (x := call _) rfl] at h
    by_cases hsafe : (evaluateMutation sourceCode).isSafe = false
    · rw [if_pos hsafe] at h
      obtain ⟨-, w₁, hvault, hrest⟩ := banSource_bind_ok h
      cases hrest
      exact hvault
    · rw [if_neg hsafe] at h
      rw [Bool.not_eq_false] at hsafe
      cases hwritten : env.vault with
      | error f =>
        rw [hwritten] at h
        exact absurd h (by simp [bind_run, call])
      | ok written =>
        rw [hwritten, bind_run_ok (x := call _) rfl] at h
        cases written with
        | false =>
          -- refused: what was there is still there
          cases h
          show Function.update w.vault _ _ = _
          rw [hwrite.refused hwritten, Function.update_eq_self]
        | true =>
          rw [if_neg (by simp), bind_run_ok (x := setVault _ _) rfl] at h
          cases hcheck : env.banCheck with
          | error f =>
            rw [hcheck] at h
            exact absurd h (by simp [bind_run, call])
          | ok io =>
            rw [hcheck, bind_run_ok (x := call _) rfl] at h
            have hbanned : isBanned stdHash io sourceCode = true := by
              by_contra hclear
              rw [Bool.not_eq_true] at hclear
              exact hreach ⟨hanalyzer, hsafe, hwritten, io, hcheck, hclear⟩
            rw [if_pos hbanned] at h
            cases h
            -- banned: the source is removed from a name that was free
            show Function.update (Function.update w.vault _ _) _ _ = _
            rw [Function.update_idem, ← hwrite.written hwritten, Function.update_eq_self]

/-- **A failed evaluation leaves no artifact, when it does.** For every source, mutation id, vault
and outcome of every call, with `write_securely` all or nothing: whenever the call returns
false the vault is as it was if and only if, in a call that gets as far as the compiler's fork,
the fork succeeds, a compiler that fails leaves under the binary's name what stood there, and
nothing stood there when the execution fails. -/
theorem vault_kept_iff (stdHash : StdHash) (env : RunnerEnv) (sourceCode mutationId : Text)
    (w : World) (hwrite : WriteAllOrNothing env mutationId w) :
    (∀ w', evaluateAndExecute stdHash env sourceCode mutationId w = .ok false w' →
      w'.vault = w.vault) ↔
    (ReachesCompiler stdHash env sourceCode → Undoes env mutationId w) := by
  have hnames := sourceName_ne_binaryName mutationId
  constructor
  · intro hkept hreach
    have hrun := evaluateAndExecute_run mutationId hreach w
    have hfree := hwrite.written hreach.written
    have hforked : env.compileFork = true := by
      by_contra hfork
      rw [Bool.not_eq_true] at hfork
      rw [if_pos hfork] at hrun
      -- the source is still there
      have hsource := congrFun (hkept _ hrun) (sourceName mutationId)
      rw [hfree] at hsource
      exact absurd hsource (by simp)
    rw [if_neg (by rw [hforked]; simp)] at hrun
    -- what the call leaves under the binary's name is what stood there
    have hbinary : ∀ w', evaluateAndExecute stdHash env sourceCode mutationId w = .ok false w' →
        w'.vault (binaryName mutationId) = w.vault (binaryName mutationId) :=
      fun w' hw' => congrFun (hkept w' hw') _
    refine ⟨hforked, fun hfails => ?_, fun hfails => ?_⟩
    · obtain ⟨w', hw'⟩ := compileAndExecute_fails stdHash sourceCode mutationId
        (Or.inl hfails) { w with
          vault := Function.update w.vault (sourceName mutationId) (some sourceCode) }
      have hleft := hbinary w' (hrun.trans hw')
      rcases compileAndExecute_ok_false hw' with ⟨-, hvault⟩ | ⟨⟨hcompile, -⟩, -⟩
      · rw [hvault, Function.update_of_ne hnames.symm, Function.update_self] at hleft
        exact hleft
      · rw [hfails.1] at hcompile
        exact absurd hcompile (by simp)
    · obtain ⟨w', hw'⟩ := compileAndExecute_fails stdHash sourceCode mutationId
        (Or.inr hfails) { w with
          vault := Function.update w.vault (sourceName mutationId) (some sourceCode) }
      have hleft := hbinary w' (hrun.trans hw')
      rcases compileAndExecute_ok_false hw' with ⟨⟨hcompile, -⟩, -⟩ | ⟨-, hvault⟩
      · rw [hfails.1] at hcompile
        exact absurd hcompile (by simp)
      · rw [hvault, Function.update_of_ne hnames.symm, Function.update_self] at hleft
        exact hleft.symm
  · intro hundoes w' hw'
    by_cases hreach : ReachesCompiler stdHash env sourceCode
    · obtain ⟨hforked, hcompiled, hexecuted⟩ := hundoes hreach
      have hrun := evaluateAndExecute_run mutationId hreach w
      rw [hw', if_neg (by rw [hforked]; simp)] at hrun
      -- the binary's name is as it was, and the source's name is free again
      have hback : ∀ content, content = w.vault (binaryName mutationId) →
          Function.update (Function.update (Function.update w.vault (sourceName mutationId)
            (some sourceCode)) (binaryName mutationId) content) (sourceName mutationId) none =
            w.vault := by
        rintro content rfl
        rw [Function.update_comm hnames.symm, Function.update_idem,
          ← hwrite.written hreach.written, Function.update_eq_self, Function.update_eq_self]
      rcases compileAndExecute_ok_false hrun.symm with ⟨hfails, hvault⟩ | ⟨hfails, hvault⟩
      · rw [hvault]
        exact hback _ (hcompiled hfails)
      · rw [hvault]
        exact hback _ (hexecuted hfails).symm
    · exact vault_kept_of_not_reaches hwrite hreach hw'

end Vault

/-- The compiler fails, and leaves an output. -/
theorem vault_kept_iff_compileFails :
    (∀ w', evaluateAndExecute (fun _ => 7) compileFails.runner acceptedSource (ascii "1")
        (.fresh none) = .ok false w' → w'.vault = (World.fresh none).vault) ↔
    (ReachesCompiler (fun _ => 7) compileFails.runner acceptedSource →
      Undoes compileFails.runner (ascii "1") (.fresh none)) := by
  have hwrite : WriteAllOrNothing compileFails.runner (ascii "1") (.fresh none) :=
    ⟨fun h => absurd h (by simp [compileFails, RunnerEnv.working]), fun _ => rfl⟩
  exact vault_kept_iff (fun _ => 7) compileFails.runner acceptedSource (ascii "1") _ hwrite

/-- A run in which the fork of the compiler fails, and nothing else. -/
def forkFails : RunnerEnv := { RunnerEnv.working ⟨false, true, []⟩ with compileFork := false }

/-- **The source stays in the vault** when the compiler cannot be forked. -/
theorem vault_kept_fails_on_fork :
    ¬ ∀ (stdHash : StdHash) (env : RunnerEnv) (sourceCode mutationId : Text) (w : World),
        WriteAllOrNothing env mutationId w →
        ∀ w', evaluateAndExecute stdHash env sourceCode mutationId w = .ok false w' →
          w'.vault = w.vault := by
  intro h
  have hwrite : WriteAllOrNothing forkFails (ascii "1") (World.fresh none) :=
    ⟨fun h => absurd h (by simp [forkFails, RunnerEnv.working]), fun _ => rfl⟩
  have hreach : ReachesCompiler (fun _ => 7) forkFails acceptedSource :=
    ⟨rfl, by decide, rfl, _, rfl, by decide⟩
  have hrun := evaluateAndExecute_run (ascii "1") hreach (World.fresh none)
  have hkept := h (fun _ => 7) forkFails acceptedSource (ascii "1") _ hwrite _ hrun
  -- what is left under the source's name is the source
  have hsource := congrFun hkept (sourceName (ascii "1"))
  exact absurd hsource (by simp [World.fresh])

/-! ## The generated sources -/

/-- The cycle gets as far as the write into `src/generated`. -/
structure OpensTarget (env : CycleEnv) (evolvedCode : Text) : Prop where
  created  : env.createVault = .ok true
  forged   : env.forge = .ok evolvedCode
  analyzed : env.analyzer = .ok ()
  safe     : (evaluateMutation evolvedCode).isSafe = true
  opens    : env.targetOpens = .ok true

/-- What of the code reaches the file. -/
def CycleEnv.written (env : CycleEnv) (evolvedCode : Text) : Text :=
  env.targetBytes.elim evolvedCode evolvedCode.take

/-- The record of the run starts without a publication. -/
def World.unpublished (w : World) : World := { w with published := false }

section Generated

variable {stdHash : StdHash} {env : CycleEnv} {evolvedCode : Text}

/-- The sources are left alone. -/
def KeepsGenerated (w w' : World) : Prop := w'.generated = w.generated

theorem ignoresRecord_keepsGenerated : IgnoresRecord KeepsGenerated where
  same _ _ hgenerated _ _ _ := hgenerated
  trans _ _ _ hab hbc := Eq.trans hbc hab

theorem keepsGenerated_evaluateAndExecute (env : RunnerEnv) (sourceCode mutationId : Text) :
    Within KeepsGenerated (evaluateAndExecute stdHash env sourceCode mutationId) :=
  within_evaluateAndExecute ignoresRecord_keepsGenerated.refl ignoresRecord_keepsGenerated.trans
    (fun _ => within_call ignoresRecord_keepsGenerated.refl fun _ _ => within_change fun _ => rfl)
    (fun _ _ => within_change fun _ => rfl) (fun _ => within_change fun _ => rfl) mutationId

/-- A cycle that does not get as far as the write leaves the sources alone. -/
theorem keepsGenerated_of_not_opens (hclosed : ∀ evolvedCode, ¬ OpensTarget env evolvedCode) :
    Within KeepsGenerated (orchestrateEvolution stdHash env) := by
  have hstatus := within_writeStatus ignoresRecord_keepsGenerated env
  rw [orchestrateEvolution_eq]
  refine within_call ignoresRecord_keepsGenerated.refl fun created hcreated => ?_
  split
  · exact hstatus _ _
  · rename_i hcreated'
    rw [Bool.not_eq_false] at hcreated'
    refine within_call ignoresRecord_keepsGenerated.refl fun evolvedCode hforged => ?_
    rw [evaluateEvolution_eq]
    refine within_call ignoresRecord_keepsGenerated.refl fun _ hanalyzed => ?_
    dsimp only
    split
    · exact within_call ignoresRecord_keepsGenerated.refl fun _ _ => hstatus _ _
    · rename_i hsafe
      rw [Bool.not_eq_false] at hsafe
      refine within_call ignoresRecord_keepsGenerated.refl fun opens hopens => ?_
      cases opens with
      | false => exact hstatus _ _
      | true =>
        rw [hcreated'] at hcreated
        exact absurd ⟨hcreated, hforged, hanalyzed, hsafe, hopens⟩ (hclosed evolvedCode)

/-- **What is behind the write keeps it**: the file is what it was opened for, however the cycle
ends. -/
theorem generated_of_opens (h : OpensTarget env evolvedCode) (w : World) :
    (endState (orchestrateEvolution stdHash env w)).generated =
      Function.update w.generated (targetFile (mutationIdOf stdHash evolvedCode))
        (some (env.written evolvedCode)) := by
  have hstatus := within_writeStatus ignoresRecord_keepsGenerated env
  -- nothing behind the write touches the directory
  have hrest : Within KeepsGenerated (do
      if ← evaluateAndExecute stdHash env.runner evolvedCode (mutationIdOf stdHash evolvedCode) then
        writeRationale env (mutationIdOf stdHash evolvedCode)
        if ← publishEvolution env.git (mutationIdOf stdHash evolvedCode)
            (targetFile (mutationIdOf stdHash evolvedCode)) then
          assimilate stdHash env evolvedCode
        else env.writeStatus (ascii "quarantined") (ascii "git upload failed")
      else env.writeStatus (ascii "quarantined") (ascii "sandbox execution failed")) := by
    have htrans := ignoresRecord_keepsGenerated.trans
    refine within_bind htrans (keepsGenerated_evaluateAndExecute _ _ _) fun success => ?_
    split
    · refine within_bind htrans (within_writeRationale ignoresRecord_keepsGenerated env _)
        fun _ => ?_
      refine within_bind htrans
        (within_publishEvolution ignoresRecord_keepsGenerated env.git _ _) fun published => ?_
      split
      · exact within_assimilate ignoresRecord_keepsGenerated stdHash env evolvedCode
      · exact hstatus _ _
    · exact hstatus _ _
  rw [orchestrateEvolution_eq]
  simp only [evaluateEvolution_eq]
  rw [h.created, h.forged, h.analyzed, h.opens]
  show (endState
    ((if (evaluateMutation evolvedCode).isSafe = false then _ else _ : M Unit) w)).generated = _
  rw [if_neg (by rw [h.safe]; simp)]
  exact hrest { w with
    generated := Function.update w.generated (targetFile (mutationIdOf stdHash evolvedCode))
      (some (env.written evolvedCode)) }

/-- A status does not touch the rest of the record. -/
theorem published_writeStatus (env : CycleEnv) (outcome reason : Text) :
    Within (fun w w' => w'.published = w.published) (env.writeStatus outcome reason) := by
  intro w
  rw [CycleEnv.writeStatus, endState_writeStatusFile]
  cases env.status.write <;> rfl

/-- **The run publishes exactly when every stage passes.** -/
theorem published_iff (stdHash : StdHash) (env : CycleEnv) (w : World) :
    (endState (orchestrateEvolution stdHash env w.unpublished)).published = true ↔
      cycleGate stdHash env = .pass := by
  obtain ⟨w', ⟨-, hpublished, -⟩, hrun⟩ := orchestrateEvolution_meets stdHash env w.unpublished
  have hunpublished : w'.published = false := hpublished
  cases hgate : cycleGate stdHash env with
  | pass =>
    rw [hgate] at hrun
    obtain ⟨_, ⟨evolvedCode, rfl⟩, hrun⟩ := hrun
    rw [hrun]
    refine iff_of_true ?_ rfl
    -- on record from here on
    obtain ⟨w₁, -, hon, -, hrest⟩ := assimilate_meets stdHash env evolvedCode w'
    cases hgates : firstObstacle (assimilateGates env) with
    | pass =>
      rw [hgates] at hrest
      rw [hrest, published_writeStatus env (ascii "published") [] w₁, hon]
    | stop =>
      rw [hgates] at hrest
      exact hrest.elim
    | fault f =>
      rw [hgates] at hrest
      rw [hrest]
      exact hon
  | stop =>
    rw [hgate] at hrun
    obtain ⟨_, ⟨reason, rfl⟩, hrun⟩ := hrun
    rw [hrun, published_writeStatus env (ascii "quarantined") reason w', hunpublished]
    simp
  | fault f =>
    rw [hgate] at hrun
    rw [hrun]
    show w'.published = true ↔ _
    rw [hunpublished]
    simp

end Generated

/-- **An unpublished run leaves nothing to publish, when it does.** For every run, whatever the
analyzer, the runner and git do: unless `publish_evolution` has returned true, `src/generated`
is what it was before the run, if and only if the run publishes, or it does not get as far as
the write of the candidate, or the file held just what the write puts there. -/
theorem generated_kept_iff (stdHash : StdHash) (env : CycleEnv) (w : World) :
    ((endState (orchestrateEvolution stdHash env w.unpublished)).published = false →
      (endState (orchestrateEvolution stdHash env w.unpublished)).generated = w.generated) ↔
    (cycleGate stdHash env = .pass ∨ ∀ evolvedCode, OpensTarget env evolvedCode →
      w.generated (targetFile (mutationIdOf stdHash evolvedCode)) =
        some (env.written evolvedCode)) := by
  constructor
  · intro hkept
    by_cases hgate : cycleGate stdHash env = .pass
    · exact Or.inl hgate
    · right
      intro evolvedCode hopens
      rw [← published_iff stdHash env w, Bool.not_eq_true] at hgate
      have hsame := hkept hgate
      rw [generated_of_opens hopens] at hsame
      have htarget := congrFun hsame (targetFile (mutationIdOf stdHash evolvedCode))
      rw [Function.update_self] at htarget
      exact htarget.symm
  · rintro (hgate | hheld) hunpublished
    · rw [(published_iff stdHash env w).mpr hgate] at hunpublished
      exact absurd hunpublished (by simp)
    · by_cases hclosed : ∀ evolvedCode, ¬ OpensTarget env evolvedCode
      · exact keepsGenerated_of_not_opens hclosed w.unpublished
      · obtain ⟨evolvedCode, hopens⟩ : ∃ evolvedCode, OpensTarget env evolvedCode := by
          by_contra hnone
          exact hclosed fun evolvedCode hopens => hnone ⟨evolvedCode, hopens⟩
        rw [generated_of_opens hopens, ← hheld evolvedCode hopens]
        exact Function.update_eq_self _ _

/-- **A rejected candidate stays**: its compiler fails, and the file is still in
`src/generated`. -/
theorem generated_kept_fails :
    ¬ ∀ (stdHash : StdHash) (env : CycleEnv) (w : World),
        (endState (orchestrateEvolution stdHash env w.unpublished)).published = false →
        (endState (orchestrateEvolution stdHash env w.unpublished)).generated = w.generated := by
  intro h
  have hopens : OpensTarget compileFails acceptedSource := ⟨rfl, rfl, rfl, by decide, rfl⟩
  have hkept := h (fun _ => 7) compileFails (World.fresh none) (by decide)
  rw [generated_of_opens hopens] at hkept
  have htarget := congrFun hkept (targetFile (mutationIdOf (fun _ => 7) acceptedSource))
  exact absurd htarget (by simp [World.fresh])

end Swayam.Pipeline
