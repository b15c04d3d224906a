import Swayam.Lib.Script
import Swayam.Pipeline.GitCortex
import Swayam.Pipeline.Leftovers

/-!
# SWAYAM — what the branches get

A run of the daemon makes one cycle, and leaves the repository where the last git
command of that did: on the staging branch when a command of `publish_evolution`
failed or threw, or when the daemon was killed in between. The next run starts from
there. Others write to the working tree all the time, the mutation that is executed
among them, so every command finds one of its own. That the repository itself is moved
by nothing but these commands is taken as given.

* `cycle_git` — the git commands of a cycle are those of its script;
* `main_kept` — whatever is cut short, main never gets anything but the ledgers;
* `pushed_vetted` — and what the remote branches get apart from the ledgers is code
  that was accepted, compiled and executed.
-/

namespace Swayam.Pipeline

open GitRepo Stages Script

/-! ## The script of a cycle -/

abbrev GitStep := Script.Command (List Text) Fault

/-- The commands of `publish_evolution`. -/
def publishScript (env : GitEnv) (mutationId filePath : Text) : List GitStep :=
  [⟨[ascii "checkout", ascii "-B", stagingBranch], env.checkout, true⟩,
   ⟨[ascii "add", filePath], env.add, true⟩,
   ⟨[ascii "commit", ascii "-m", commitMessage mutationId], env.commit, true⟩,
   ⟨[ascii "push", ascii "-u", ascii "origin", stagingBranch], env.push, true⟩,
   ⟨[ascii "checkout", gitMain], env.checkoutMain, false⟩]

def ledgers : List Text := [ascii ".swayam_quarantine.ledger", ascii ".swayam_hive.ledger"]

/-- The commands of `sync_ledgers`. -/
def syncScript (env : GitEnv) : List GitStep :=
  [⟨ascii "add" :: ledgers, env.syncAdd, false⟩,
   ⟨[ascii "commit", ascii "-m", syncMessage], env.syncCommit, false⟩,
   ⟨[ascii "push", ascii "origin", gitMain], env.syncPush, false⟩]

/-- The stages in front of the publication. -/
def vettingGates (stdHash : StdHash) (env : CycleEnv) (evolvedCode : Text) : List (Gate Fault) :=
  [returns env.analyzer,
   analysisGate env evolvedCode,
   succeeds env.targetOpens,
   firstObstacle (runnerGates stdHash env.runner evolvedCode),
   returns env.rationale]

/-- The code that a cycle calls `publish_evolution` for. -/
def publishedCode (stdHash : StdHash) (env : CycleEnv) : Option Text :=
  match env.createVault, env.forge with
  | .ok true, .ok evolvedCode =>
    if firstObstacle (vettingGates stdHash env evolvedCode) = .pass then some evolvedCode else none
  | _, _ => none

/-- The stages between the publication and `sync_ledgers`. -/
def syncGates (env : CycleEnv) : List (Gate Fault) := [returns env.hiveCall, returns env.telemetry]

/-- The git commands of a publication and of what follows it. -/
def evolutionScript (stdHash : StdHash) (env : CycleEnv) (evolvedCode : Text) : List GitStep :=
  publishScript env.git (mutationIdOf stdHash evolvedCode)
      (targetFile (mutationIdOf stdHash evolvedCode)) ++
    if firstObstacle (syncGates env) = .pass then syncScript env.git else []

/-- The git commands of a cycle. -/
def cycleScript (stdHash : StdHash) (env : CycleEnv) : List GitStep :=
  (publishedCode stdHash env).elim [] (evolutionScript stdHash env)

/-! ## The record of a cycle -/

/-- No git command runs. -/
def SameGit (w w' : World) : Prop := w'.git = w.git

theorem sameGit_refl (w : World) : SameGit w w := rfl

theorem sameGit_trans (a b c : World) (hab : SameGit a b) (hbc : SameGit b c) : SameGit a c :=
  hbc.trans hab

section Record

variable {stdHash : StdHash} {env : CycleEnv} {evolvedCode : Text}

/-- What a script adds to the record. -/
def World.ranGit (w : World) (steps : List GitStep) : World :=
  { w with git := w.git ++ (Script.ran steps).map fun f => gitArgs f.1 }

theorem sameGit_writeStatus (env : CycleEnv) (outcome reason : Text) :
    Within SameGit (env.writeStatus outcome reason) := by
  intro w
  rw [CycleEnv.writeStatus, endState_writeStatusFile]
  cases env.status.write <;> rfl

/-- The runner runs no git command. -/
theorem sameGit_evaluateAndExecute (env : RunnerEnv) (sourceCode mutationId : Text) :
    Within SameGit (evaluateAndExecute stdHash env sourceCode mutationId) :=
  within_evaluateAndExecute sameGit_refl sameGit_trans
    (fun _ => within_call sameGit_refl fun _ _ => within_change fun _ => rfl)
    (fun _ _ => within_change fun _ => rfl) (fun _ => within_change fun _ => rfl) mutationId

/-- A program that answers, and keeps a relation wherever it ends, answers within it. -/
theorem answers_within {R R' : World → World → Prop} {x : M Bool} {gate : Gate Fault}
    (h : Answers R x gate) (hwithin : Within R' x) : Answers R' x gate := by
  intro w
  obtain ⟨w', -, hx⟩ := h w
  have hkeeps := hwithin w
  cases gate with
  | pass =>
    obtain ⟨_, rfl, hrun⟩ := hx
    rw [hrun] at hkeeps
    exact ⟨w', hkeeps, _, rfl, hrun⟩
  | stop =>
    obtain ⟨_, rfl, hrun⟩ := hx
    rw [hrun] at hkeeps
    exact ⟨w', hkeeps, _, rfl, hrun⟩
  | fault e =>
    rw [hx] at hkeeps
    exact ⟨w', hkeeps, hx⟩

theorem writeRationale_sameGit (env : CycleEnv) (mutationId : Text) :
    Returns SameGit (writeRationale env mutationId) env.rationale := by
  unfold writeRationale
  refine returns_call sameGit_refl fun opens w => ?_
  cases opens with
  | true => exact ⟨(), { w with rationale := some (rationaleText mutationId) }, rfl, rfl⟩
  | false => exact ⟨(), w, sameGit_refl w, rfl⟩

/-- What a cycle does with a code that has come through. -/
def publishing (stdHash : StdHash) (env : CycleEnv) (evolvedCode : Text) : M Unit := do
  if ← publishEvolution env.git (mutationIdOf stdHash evolvedCode)
      (targetFile (mutationIdOf stdHash evolvedCode)) then
    assimilate stdHash env evolvedCode
  else env.writeStatus (ascii "quarantined") (ascii "git upload failed")

/-- **No git command in front of the publication.** -/
theorem evaluateEvolution_vets (stdHash : StdHash) (env : CycleEnv) (evolvedCode : Text) :
    Meets SameGit (· = publishing stdHash env evolvedCode)
      (fun x => Within SameGit x) (evaluateEvolution stdHash env evolvedCode)
      (firstObstacle (vettingGates stdHash env evolvedCode)) := by
  have hstatus := sameGit_writeStatus env (ascii "quarantined")
  have hstops : ∀ reason, Meets SameGit (· = publishing stdHash env evolvedCode)
      (fun x => Within SameGit x) (env.writeStatus (ascii "quarantined") reason) .stop :=
    fun reason => meets_stop sameGit_refl (hstatus reason)
  rw [evaluateEvolution_eq]
  unfold vettingGates
  refine meets_returns sameGit_refl fun _ _ => ?_
  unfold analysisGate
  by_cases hsafe : (evaluateMutation evolvedCode).isSafe = true
  · rw [if_pos hsafe]
    simp only [hsafe, Bool.true_eq_false, if_false]
    refine meets_succeeds sameGit_refl (hstops _) ?_
    refine meets_change sameGit_trans (fun _ => rfl) ?_
    refine meets_answers sameGit_trans (answers_within
      (evaluateAndExecute_answers stdHash env.runner evolvedCode _)
      (sameGit_evaluateAndExecute _ _ _)) (hstops _) ?_
    refine meets_part sameGit_trans (writeRationale_sameGit env _) fun _ => ?_
    exact meets_pass sameGit_refl rfl
  · rw [if_neg hsafe]
    rw [Bool.not_eq_true] at hsafe
    simp only [hsafe, if_true]
    cases htelemetry : env.telemetry with
    | error f => exact meets_fault sameGit_refl f _
    | ok u => exact meets_stop sameGit_refl (hstatus _)

/-- The program runs the script, and comes to a good end when the script completes. -/
def Scripted {α : Type} (x : M α) (steps : List GitStep) (good : α → Prop) : Prop :=
  ∀ w, endState (x w) = w.ranGit steps ∧
    (completes steps = true → ∃ a, good a ∧ x w = .ok a (w.ranGit steps)) ∧
    (completes steps = false → ∀ a w', x w = .ok a w' → ¬ good a)

section Scripted

variable {α : Type} {good : α → Prop} {answer : Except Fault Bool} {args : List Text}
  {steps : List GitStep} {k : Bool → M α}

theorem scripted_pure {a : α} (h : good a) : Scripted (pure a : M α) [] good := by
  intro w
  have hnone : w = w.ranGit [] := by simp [World.ranGit, Script.ran]
  exact ⟨hnone, fun _ => ⟨a, h, congrArg (EStateM.Result.ok a) hnone⟩,
    fun hfalse => absurd hfalse (by simp [completes])⟩

/-- Behind a command. -/
theorem scripted_bind {must : Bool}
    (hstop : ∀ ok, (must && !ok) = true → ∃ a, ¬ good a ∧ k ok = pure a)
    (h : ∀ ok, (must && !ok) = false → Scripted (k ok) steps good) :
    Scripted (executeGitCommand answer args >>= k) (⟨args, answer, must⟩ :: steps) good := by
  intro w
  cases answer with
  | error f =>
    refine ⟨?_, fun hdone => absurd hdone (by simp [completes]), fun _ a w' hrun => ?_⟩
    · show w = w.ranGit _
      simp [World.ranGit, Script.ran]
    · have hfault : EStateM.Result.error f w = .ok a w' := hrun
      exact absurd hfault (by simp)
  | ok ok =>
    let w₁ : World := { w with git := w.git ++ [gitArgs args] }
    have hrun : (executeGitCommand (.ok ok) args >>= k) w = k ok w₁ := rfl
    rw [hrun]
    cases hmust : must && !ok with
    | true =>
      -- a command that must succeed and did not ends the script
      obtain ⟨a, hbad, hk⟩ := hstop ok hmust
      rw [hk]
      refine ⟨?_, fun hdone => absurd hdone (by simp [completes, hmust]), fun _ b w' hb => ?_⟩
      · show w₁ = _
        simp [w₁, World.ranGit, Script.ran, hmust]
      · obtain ⟨rfl, -⟩ := EStateM.Result.ok.inj hb
        exact hbad
    | false =>
      -- otherwise the script goes on behind it
      have hstep : w.ranGit (⟨args, .ok ok, must⟩ :: steps) = w₁.ranGit steps := by
        simp [w₁, World.ranGit, Script.ran, hmust]
      have hcompletes : completes ((⟨args, .ok ok, must⟩ : GitStep) :: steps) =
          completes steps := by
        simp [completes, hmust]
      rw [hstep, hcompletes]
      exact h ok hmust w₁

/-- The commands of a publication are those of its script. -/
theorem publishEvolution_scripted (env : GitEnv) (mutationId filePath : Text) :
    Scripted (publishEvolution env mutationId filePath) (publishScript env mutationId filePath)
      (· = true) := by
  have hstop : ∀ (x : M Bool) (ok : Bool), (true && !ok) = true →
      ∃ a : Bool, ¬ a = true ∧ (if ok = true then x else pure false) = pure a := by
    intro x ok hok
    obtain rfl : ok = false := by simpa using hok
    exact ⟨false, by simp, rfl⟩
  -- the first four have to succeed
  refine scripted_bind (hstop _) fun ok hok => ?_
  obtain rfl : ok = true := by simpa using hok
  refine scripted_bind (hstop _) fun ok hok => ?_
  obtain rfl : ok = true := by simpa using hok
  refine scripted_bind (hstop _) fun ok hok => ?_
  obtain rfl : ok = true := by simpa using hok
  refine scripted_bind (hstop _) fun ok hok => ?_
  obtain rfl : ok = true := by simpa using hok
  exact scripted_bind (fun ok hfalse => absurd hfalse (by simp)) fun ok _ => scripted_pure rfl

/-- And those of a ledger sync. -/
theorem syncLedgers_scripted (env : GitEnv) :
    Scripted (syncLedgers env) (syncScript env) fun _ => True := by
  have hnever : ∀ (k : Bool → M Unit) (ok : Bool), (false && !ok) = true →
      ∃ a : Unit, ¬ True ∧ k ok = pure a := fun _ ok hfalse => absurd hfalse (by simp)
  refine scripted_bind (hnever _) fun _ _ => ?_
  refine scripted_bind (hnever _) fun _ _ => ?_
  exact scripted_bind (hnever _) fun _ _ => scripted_pure trivial

end Scripted

/-- **What follows a publication** runs the commands of `sync_ledgers`, or none. -/
theorem assimilate_git (stdHash : StdHash) (env : CycleEnv) (evolvedCode : Text) (w : World) :
    (endState (assimilate stdHash env evolvedCode w)).git =
      (w.ranGit (if firstObstacle (syncGates env) = .pass then syncScript env.git else [])).git := by
  have hnone : w.git = (w.ranGit []).git := by simp [World.ranGit, Script.ran]
  have hstatus := sameGit_writeStatus env (ascii "published") []
  unfold assimilate registerMutationHash syncGates
  cases hhive : env.hiveCall with
  | error f => exact hnone
  | ok io =>
    cases htelemetry : env.telemetry with
    | error f => exact hnone
    | ok u =>
      let w₁ : World := { w with
        published := true
        hive := appendToLedger io (decimal (stdHash evolvedCode).toNat ++ [newline]) w.hive }
      obtain ⟨hend, -, -⟩ := syncLedgers_scripted env.git w₁
      show (endState ((syncLedgers env.git >>= fun _ =>
        env.writeStatus (ascii "published") []) w₁)).git = (w.ranGit (syncScript env.git)).git
      have hgit : (endState (syncLedgers env.git w₁)).git = (w.ranGit (syncScript env.git)).git :=
        (congrArg World.git hend).trans rfl
      rw [bind_run]
      cases hrun : syncLedgers env.git w₁ with
      | ok v w' =>
        rw [hrun] at hgit
        exact (hstatus w').trans hgit
      | error f w' =>
        rw [hrun] at hgit
        exact hgit

/-- From the analyzer on, a cycle runs the commands of its script and no other. -/
theorem publishing_git (stdHash : StdHash) (env : CycleEnv) (evolvedCode : Text) (w : World) :
    (endState (publishing stdHash env evolvedCode w)).git =
      (w.ranGit (evolutionScript stdHash env evolvedCode)).git := by
  have hstatus := sameGit_writeStatus env (ascii "quarantined") (ascii "git upload failed")
  obtain ⟨hend, hdone, hstopped⟩ := publishEvolution_scripted env.git
    (mutationIdOf stdHash evolvedCode) (targetFile (mutationIdOf stdHash evolvedCode)) w
  unfold publishing evolutionScript World.ranGit
  rw [ran_append]
  cases hcompletes : completes (publishScript env.git (mutationIdOf stdHash evolvedCode)
      (targetFile (mutationIdOf stdHash evolvedCode))) with
  | true =>
    -- published: the sync follows
    obtain ⟨_, rfl, hrun⟩ := hdone hcompletes
    rw [bind_run_ok hrun, if_pos rfl, if_pos rfl, List.map_append, ← List.append_assoc]
    refine (assimilate_git stdHash env evolvedCode _).trans ?_
    show _ ++ List.map _ (Script.ran _) = _
    split <;> rfl
  | false =>
    -- stopped: a status follows, or nothing
    have hgit := congrArg World.git hend
    rw [if_neg (by simp), List.append_nil, bind_run]
    cases hrun : publishEvolution env.git (mutationIdOf stdHash evolvedCode)
        (targetFile (mutationIdOf stdHash evolvedCode)) w with
    | error f w' =>
      rw [hrun] at hgit
      exact hgit
    | ok published w' =>
      rw [hrun] at hgit
      have hfailed := hstopped hcompletes published w' hrun
      dsimp only
      rw [if_neg hfailed]
      exact (hstatus w').trans hgit

/-- **The git commands of a cycle** are those of its script, as far as they run. -/
theorem cycle_git (stdHash : StdHash) (env : CycleEnv) (w : World) :
    (endState (orchestrateEvolution stdHash env w)).git =
      (w.ranGit (cycleScript stdHash env)).git := by
  have hnone : w.git = (w.ranGit []).git := by simp [World.ranGit, Script.ran]
  rw [orchestrateEvolution_eq]
  unfold cycleScript publishedCode
  cases env.createVault with
  | error f => exact hnone
  | ok created =>
    cases created with
    | false => exact (sameGit_writeStatus env _ _ w).trans hnone
    | true =>
      cases env.forge with
      | error f => exact hnone
      | ok evolvedCode =>
        show (endState (evaluateEvolution stdHash env evolvedCode w)).git = (w.ranGit
          ((if firstObstacle (vettingGates stdHash env evolvedCode) = .pass then some evolvedCode
            else none).elim [] (evolutionScript stdHash env))).git
        -- the vetting runs no git command, and what follows is the script or a status
        obtain ⟨w', hsame, hrun⟩ := evaluateEvolution_vets stdHash env evolvedCode w
        cases hgate : firstObstacle (vettingGates stdHash env evolvedCode) with
        | pass =>
          rw [hgate] at hrun
          obtain ⟨_, rfl, hrun⟩ := hrun
          rw [hrun, if_pos rfl, publishing_git]
          exact congrArg (· ++ _) hsame
        | stop =>
          rw [hgate] at hrun
          obtain ⟨y, hy, hrun⟩ := hrun
          rw [hrun, if_neg (by simp)]
          exact ((hy w').trans hsame).trans hnone
        | fault f =>
          rw [hgate] at hrun
          rw [hrun, if_neg (by simp)]
          exact Eq.trans hsame hnone

end Record

/-! ## On the repository -/

abbrev Worktree := Text → Option Text

/-- A command that has run, whether it succeeded, and the working tree that it found. -/
abbrev Found := (List Text × Bool) × Worktree

def Found.effect (r : Repo) (f : Found) : Repo :=
  (Ran.mk f.1.1 f.1.2).effect { r with worktree := f.2 }

/-- The commands of a cycle, or those that ran before the daemon was killed in it. -/
def OfCycle (stdHash : StdHash) (env : CycleEnv) (fs : List Found) : Prop :=
  fs.map Prod.fst <+: Script.ran (cycleScript stdHash env)

/-- The repository after some cycles. -/
def afterCycles (r : Repo) (cycles : List (CycleEnv × List Found)) : Repo :=
  (cycles.flatMap Prod.snd).foldl Found.effect r

section Effect

variable {r : Repo} {args : List Text} {c : GitCommand} {found : Worktree}

/-- A command that has exited with 0 does what git documents of it. -/
theorem found_done (hargs : gitCommand args = some c) (r : Repo) (found : Worktree) :
    Found.effect r ((args, true), found) = c.apply { r with worktree := found } :=
  effect_eq hargs true _

end Effect

/-! ## Main -/

section Main

variable {tree : Text → Option Text} {r : Repo}

/-- Both mains have this tree, apart from the ledgers. -/
structure MainIs (tree : Text → Option Text) (r : Repo) : Prop where
  here   : ∀ p, p ∉ ledgers → treeOf (r.tips gitMain) p = tree p
  remote : ∀ p, p ∉ ledgers → treeOf (r.remote gitMain) p = tree p

/-- The staging branch is checked out. -/
structure Staging (tree : Text → Option Text) (r : Repo) : Prop where
  main : MainIs tree r
  head : r.head = .branch stagingBranch

/-- And the index is what was last committed there. -/
structure Committed (tree : Text → Option Text) (r : Repo) : Prop where
  staging : Staging tree r
  index   : r.index = treeOf (r.tips stagingBranch)

/-- Main is checked out, and nothing but the ledgers is in the index that is not in it. -/
structure OnMain (tree : Text → Option Text) (r : Repo) : Prop where
  main  : MainIs tree r
  head  : r.head = .branch gitMain
  index : ∀ p, p ∉ ledgers → r.index p = tree p

/-- How a cycle finds the repository, and leaves it. -/
def Between (tree : Text → Option Text) (r : Repo) : Prop := Staging tree r ∨ OnMain tree r

/-- Main is the same wherever between two commands. -/
theorem Between.main (h : Between tree r) : MainIs tree r := by
  rcases h with h | h
  · exact h.main
  · exact h.main

/-- The working tree does not matter. -/
theorem Between.found (h : Between tree r) (found : Worktree) :
    Between tree { r with worktree := found } := by
  rcases h with h | h
  · exact Or.inl ⟨⟨h.main.here, h.main.remote⟩, h.head⟩
  · exact Or.inr ⟨⟨h.main.here, h.main.remote⟩, h.head, h.index⟩

theorem Staging.found (h : Staging tree r) (found : Worktree) :
    Staging tree { r with worktree := found } := ⟨⟨h.main.here, h.main.remote⟩, h.head⟩

theorem Committed.found (h : Committed tree r) (found : Worktree) :
    Committed tree { r with worktree := found } := ⟨h.staging.found found, h.index⟩

/-- `checkout -B` starts the staging branch, whatever was checked out. -/
theorem staging_checkoutReset (h : MainIs tree r) :
    Staging tree ((Command.checkoutReset stagingBranch).apply r) := by
  refine ⟨⟨fun p hp => ?_, h.remote⟩, rfl⟩
  rw [tips_checkoutReset gitMain_ne_staging]
  exact h.here p hp

/-- From there to the commit only the index changes. -/
theorem staging_add (h : Staging tree r) (paths : List Text) :
    Staging tree ((Command.add paths).apply r) := ⟨⟨h.main.here, h.main.remote⟩, h.head⟩

/-- The commit lands on the staging branch, and takes what the `add` has left. -/
theorem committed_commit (h : Staging tree r) (message : Text) :
    Committed tree ((Command.commit message).apply r) := by
  have htips := tips_commit h.head message
  have hremote : ((Command.commit message).apply r).remote = r.remote := by
    rw [Command.apply, Repo.advance, h.head]
  have hindex : ((Command.commit message).apply r).index = r.index := by
    rw [Command.apply, Repo.advance, h.head]
  refine ⟨⟨⟨fun p hp => ?_, fun p hp => ?_⟩, head_commit h.head message⟩, ?_⟩
  · rw [htips, Function.update_of_ne gitMain_ne_staging]
    exact h.main.here p hp
  · rw [hremote]
    exact h.main.remote p hp
  · rw [hindex, htips, Function.update_self]
    rfl

/-- The push brings it to the remote, on the staging branch. -/
theorem committed_push (h : Committed tree r) :
    Committed tree ((Command.push stagingBranch).apply r) := by
  refine ⟨⟨⟨h.staging.main.here, fun p hp => ?_⟩, h.staging.head⟩, h.index⟩
  show treeOf (Function.update r.remote stagingBranch (r.tips stagingBranch) gitMain) p = _
  rw [Function.update_of_ne gitMain_ne_staging]
  exact h.staging.main.remote p hp

/-- **Back on main**, the index is main's: it was the staging branch's before. -/
theorem onMain_checkout (h : Committed tree r) :
    OnMain tree ((Command.checkout gitMain).apply r) := by
  refine ⟨⟨h.staging.main.here, h.staging.main.remote⟩, rfl, fun p hp => ?_⟩
  have hhead : r.headCommit = r.tips stagingBranch := by
    rw [Repo.headCommit, h.staging.head]
  show switched (treeOf r.headCommit) (treeOf (r.tips gitMain)) r.index p = _
  rw [switched, hhead, h.index]
  split
  · rename_i hsame
    rw [hsame]
    exact h.staging.main.here p hp
  · exact h.staging.main.here p hp

/-- `sync_ledgers` adds nothing but the ledgers. -/
theorem between_addLedgers (h : Between tree r) :
    Between tree ((Command.add ledgers).apply r) := by
  rcases h with h | h
  · exact Or.inl (staging_add h ledgers)
  · refine Or.inr ⟨⟨h.main.here, h.main.remote⟩, h.head, fun p hp => ?_⟩
    have hindex : ((Command.add ledgers).apply r).index p = r.index p := if_neg hp
    rw [hindex]
    exact h.index p hp

/-- Its commit lands on the branch that is checked out, main or staging. -/
theorem between_commit (h : Between tree r) (message : Text) :
    Between tree ((Command.commit message).apply r) := by
  rcases h with h | h
  · exact Or.inl (committed_commit h message).staging
  · have htips := tips_commit h.head message
    have hremote : ((Command.commit message).apply r).remote = r.remote := by
      rw [Command.apply, Repo.advance, h.head]
    have hindex : ((Command.commit message).apply r).index = r.index := by
      rw [Command.apply, Repo.advance, h.head]
    refine Or.inr ⟨⟨fun p hp => ?_, fun p hp => ?_⟩, head_commit h.head message, fun p hp => ?_⟩
    · -- the new tip is the index
      rw [htips, Function.update_self]
      exact h.index p hp
    · rw [hremote]
      exact h.main.remote p hp
    · rw [hindex]
      exact h.index p hp

/-- Its push brings main to the remote, which differs in the ledgers only. -/
theorem between_pushMain (h : Between tree r) :
    Between tree ((Command.push gitMain).apply r) := by
  have hmain : MainIs tree ((Command.push gitMain).apply r) := by
    refine ⟨h.main.here, fun p hp => ?_⟩
    show treeOf (Function.update r.remote gitMain (r.tips gitMain) gitMain) p = _
    rw [Function.update_self]
    exact h.main.here p hp
  rcases h with h | h
  · exact Or.inl ⟨hmain, h.head⟩
  · exact Or.inr ⟨hmain, h.head, h.index⟩

/-- The three commands of `sync_ledgers`. -/
theorem always_sync (env : GitEnv) :
    Always Found.effect (Between tree) (Between tree) (syncScript env) := by
  have hself : ∀ r : Repo, Between tree r → Between tree r := fun _ h => h
  -- a command that fails only finds another working tree
  have hstep : ∀ (args : List Text) (c : GitCommand), gitCommand args = some c →
      (∀ r, Between tree r → Between tree (c.apply r)) →
      ∀ (r : Repo) (ok : Bool) (found : Worktree), Between tree r →
        Between tree (Found.effect r ((args, ok), found)) := by
    intro args c hargs hc r ok found h
    cases ok with
    | false => exact h.found found
    | true =>
      rw [found_done hargs]
      exact hc _ (h.found found)
  refine always_any rfl hself (hstep _ (.add ledgers) rfl fun _ => between_addLedgers) ?_
  refine always_any rfl hself (hstep _ (.commit syncMessage) rfl
    fun _ h => between_commit h syncMessage) ?_
  exact always_any rfl hself (hstep _ (.push gitMain) rfl fun _ => between_pushMain)
    (always_nil hself)

/-- **A cycle, wherever it is cut short.** -/
theorem always_cycle (stdHash : StdHash) (env : CycleEnv) :
    Always Found.effect (Between tree) (Between tree) (cycleScript stdHash env) := by
  have hself : ∀ r : Repo, Between tree r → Between tree r := fun _ h => h
  have hstaging : ∀ r : Repo, Staging tree r → Between tree r := fun _ => Or.inl
  have hcommitted : ∀ r : Repo, Committed tree r → Between tree r := fun _ h => Or.inl h.staging
  unfold cycleScript
  cases publishedCode stdHash env with
  | none => exact always_nil hself
  | some evolvedCode =>
    have hsync : Always Found.effect (Between tree) (Between tree)
        (if firstObstacle (syncGates env) = .pass then syncScript env.git else []) := by
      split
      · exact always_sync env.git
      · exact always_nil hself
    have hmain : ∀ (r : Repo) (ok : Bool) (found : Worktree), Committed tree r →
        Between tree (Found.effect r (([ascii "checkout", gitMain], ok), found)) := by
      intro r ok found h
      cases ok with
      | false => exact hcommitted _ (h.found found)
      | true => exact Or.inr (onMain_checkout (h.found found))
    -- checkout -B, add, commit, push: from then on the index is the commit's
    refine always_must rfl hself (fun r found h => h.found found)
      (fun r found h => staging_checkoutReset (h.found found).main) ?_
    refine always_must rfl hstaging (fun r found h => hstaging _ (h.found found))
      (fun r found h => staging_add (h.found found) _) ?_
    refine always_must rfl hstaging (fun r found h => hstaging _ (h.found found))
      (fun r found h => committed_commit (h.found found) _) ?_
    refine always_must rfl hcommitted (fun r found h => hcommitted _ (h.found found))
      (fun r found h => committed_push (h.found found)) ?_
    exact always_any rfl hcommitted hmain hsync

end Main

/-- **Main gets nothing but the ledgers.** With main checked out, a clean index and a remote that
is up to date, apart from the ledgers: after any cycles, whichever of their commands fail or
throw and wherever the daemon is killed, and whatever the working tree has become each time,
neither main nor the remote main has changed in any path but the two ledgers. -/
theorem main_kept (stdHash : StdHash) (r : Repo) (hhead : r.head = .branch gitMain)
    (hindex : ∀ p, p ∉ ledgers → r.index p = treeOf (r.tips gitMain) p)
    (hremote : ∀ p, p ∉ ledgers → treeOf (r.remote gitMain) p = treeOf (r.tips gitMain) p)
    (cycles : List (CycleEnv × List Found)) (hcycles : ∀ c ∈ cycles, OfCycle stdHash c.1 c.2)
    (p : Text) (hp : p ∉ ledgers) :
    treeOf ((afterCycles r cycles).tips gitMain) p = treeOf (r.tips gitMain) p ∧
      treeOf ((afterCycles r cycles).remote gitMain) p = treeOf (r.tips gitMain) p := by
  have hstart : Between (treeOf (r.tips gitMain)) r :=
    Or.inr ⟨⟨fun _ _ => rfl, hremote⟩, hhead, hindex⟩
  have hmain := (always_row (always_cycle stdHash) cycles hcycles hstart).main
  exact ⟨hmain.here p hp, hmain.remote p hp⟩

/-- A cycle in which nothing fails, with the accepted code everywhere in the working tree. -/
def wholeCycle : CycleEnv × List Found :=
  ((DaemonEnv.working acceptedSource).cycle,
    (Script.ran (cycleScript (fun _ => 7) (DaemonEnv.working acceptedSource).cycle)).map
      fun f => (f, fun _ => some acceptedSource))

/-- A cycle of the same code in which the daemon is killed on the staging branch. -/
def killedCycle : CycleEnv × List Found :=
  ((DaemonEnv.working acceptedSource).cycle,
    [(([ascii "checkout", ascii "-B", stagingBranch], true), fun _ => some acceptedSource)])

/-- The commands of both are commands of a cycle. -/
theorem ofCycle_wholeCycle : ∀ c ∈ [killedCycle, wholeCycle], OfCycle (fun _ => 7) c.1 c.2 := by
  intro c hc
  rw [List.mem_cons, List.mem_singleton] at hc
  rcases hc with rfl | rfl
  · show [_] <+: _
    decide
  · show List.map Prod.fst (List.map _ _) <+: _
    rw [List.map_map]
    exact ⟨[], (List.append_nil _).trans (List.map_id _)⟩

theorem main_kept_wholeCycle :
    treeOf ((afterCycles freshRepo [killedCycle, wholeCycle]).tips gitMain) (ascii "README.md") =
        treeOf (freshRepo.tips gitMain) (ascii "README.md") ∧
      treeOf ((afterCycles freshRepo [killedCycle, wholeCycle]).remote gitMain)
        (ascii "README.md") = treeOf (freshRepo.tips gitMain) (ascii "README.md") :=
  main_kept (fun _ => 7) freshRepo rfl (fun _ _ => rfl) (fun _ _ => rfl) [killedCycle, wholeCycle]
    ofCycle_wholeCycle (ascii "README.md") (by decide)

/-! ## What is pushed -/

section Trees

variable {P : Text → Text → Prop} {r : Repo}

/-- Apart from the ledgers, the tree has nothing but such files. -/
def TreeIn (P : Text → Text → Prop) (tree : Text → Option Text) : Prop :=
  ∀ p, p ∉ ledgers → ∀ blob, tree p = some blob → P p blob

/-- So have all trees of the repository. -/
structure TreesIn (P : Text → Text → Prop) (r : Repo) : Prop where
  index  : TreeIn P r.index
  head   : TreeIn P (treeOf r.headCommit)
  tips   : ∀ name, TreeIn P (treeOf (r.tips name))
  remote : ∀ name, TreeIn P (treeOf (r.remote name))

theorem treeIn_update {tips : Text → Option (GitRepo.Commit Text Text Text)}
    {c : Option (GitRepo.Commit Text Text Text)} (htips : ∀ name, TreeIn P (treeOf (tips name)))
    (hc : TreeIn P (treeOf c)) (name other : Text) :
    TreeIn P (treeOf (Function.update tips name c other)) := by
  rcases eq_or_ne other name with rfl | hne
  · rw [Function.update_self]
    exact hc
  · rw [Function.update_of_ne hne]
    exact htips other

/-- **No command makes up a file** but the one that adds it. -/
theorem treesIn_apply (h : TreesIn P r) {c : GitCommand}
    (hadd : ∀ paths, c = .add paths → ∀ p ∈ paths, p ∉ ledgers → ∀ blob,
      r.worktree p = some blob → P p blob) : TreesIn P (c.apply r) := by
  cases c with
  | checkoutReset name =>
    refine ⟨h.index, ?_, fun other => treeIn_update h.tips h.head name other, h.remote⟩
    show TreeIn P (treeOf (Function.update r.tips name r.headCommit name))
    rw [Function.update_self]
    exact h.head
  | checkout name =>
    refine ⟨fun p hp blob hblob => ?_, h.tips name, h.tips, h.remote⟩
    have hswitched : switched (treeOf r.headCommit) (treeOf (r.tips name)) r.index p = some blob :=
      hblob
    unfold switched at hswitched
    split at hswitched
    · exact h.index p hp blob hswitched
    · exact h.tips name p hp blob hswitched
  | add paths =>
    refine ⟨fun p hp blob hblob => ?_, h.head, h.tips, h.remote⟩
    by_cases hmem : p ∈ paths
    · have hfound : ((Command.add paths).apply r).index p = r.worktree p := if_pos hmem
      exact hadd paths rfl p hmem hp blob (hfound ▸ hblob)
    · have hkept : ((Command.add paths).apply r).index p = r.index p := if_neg hmem
      exact h.index p hp blob (hkept ▸ hblob)
  | commit message =>
    -- its tree is the index
    have hnew : TreeIn P (treeOf (some (GitRepo.Commit.mk r.headCommit.toList r.index message))) :=
      h.index
    rw [Command.apply, Repo.advance]
    cases hhead : r.head with
    | branch name =>
      refine ⟨h.index, ?_, fun other => treeIn_update h.tips hnew name other, h.remote⟩
      exact treeIn_update h.tips hnew name name
    | detached commit => exact ⟨h.index, hnew, h.tips, h.remote⟩
  | push name => exact ⟨h.index, h.head, h.tips, fun other =>
      treeIn_update h.remote (h.tips name) name other⟩

/-- **What one command keeps** of all the trees of a repository: an `add` brings what it finds. -/
theorem treesIn_effect (h : TreesIn P r) {f : Found}
    (hadd : ∀ paths, gitCommand f.1.1 = some (.add paths) → ∀ p ∈ paths, p ∉ ledgers → ∀ blob,
      f.2 p = some blob → P p blob) : TreesIn P (Found.effect r f) := by
  have hfound : TreesIn P { r with worktree := f.2 } := ⟨h.index, h.head, h.tips, h.remote⟩
  unfold Found.effect Ran.effect
  split
  · cases hargs : gitCommand f.1.1 with
    | none => exact hfound
    | some c =>
      refine treesIn_apply hfound fun paths hc => ?_
      subst hc
      exact hadd paths hargs
  · exact hfound

/-- And so a row of commands. -/
theorem treesIn_foldl {fs : List Found} (h : TreesIn P r)
    (hadd : ∀ f ∈ fs, ∀ paths, gitCommand f.1.1 = some (.add paths) → ∀ p ∈ paths, p ∉ ledgers →
      ∀ blob, f.2 p = some blob → P p blob) : TreesIn P (fs.foldl Found.effect r) := by
  induction fs generalizing r with
  | nil => exact h
  | cons f fs ih =>
    exact ih (treesIn_effect h (hadd f List.mem_cons_self))
      fun g hg => hadd g (List.mem_cons_of_mem f hg)

end Trees

section Vetted

variable {stdHash : StdHash} {env : CycleEnv} {evolvedCode : Text}

/-- The forge has produced the code, the analyzer accepts it, it is not banned, it was compiled and
executed with success, and the cycle has written it into `src/generated`. -/
structure Vetted (stdHash : StdHash) (env : CycleEnv) (evolvedCode : Text) : Prop where
  opens     : OpensTarget env evolvedCode
  notBanned : ∃ io, env.runner.banCheck = .ok io ∧ isBanned stdHash io evolvedCode = false
  compiled  : enforceTimeout env.runner.compile = true
  executed  : enforceTimeout env.runner.exec = true

/-- Every stage passes. -/
theorem forall_pass {gates : List (Gate Fault)} (h : firstObstacle gates = .pass) :
    ∀ gate ∈ gates, gate = .pass := by
  induction gates with
  | nil => exact fun gate hgate => absurd hgate List.not_mem_nil
  | cons first gates ih =>
    cases first with
    | pass =>
      intro gate hgate
      rcases List.mem_cons.mp hgate with rfl | hrest
      · rfl
      · exact ih h gate hrest
    | stop => exact absurd h (by simp [firstObstacle])
    | fault e => exact absurd h (by simp [firstObstacle])

/-- A stage that a call passes has returned. -/
theorem eq_ok_of_returns {α : Type} {answer : Except Fault α} (h : returns answer = .pass) :
    ∃ a, answer = .ok a := by
  cases answer with
  | ok a => exact ⟨a, rfl⟩
  | error f => exact absurd h (by simp [returns])

/-- And with true, where true is asked for. -/
theorem eq_true_of_succeeds {answer : Except Fault Bool} (h : succeeds answer = .pass) :
    answer = .ok true := by
  cases answer with
  | ok b =>
    cases b with
    | true => rfl
    | false => exact absurd h (by simp [Stages.succeeds])
  | error f => exact absurd h (by simp [Stages.succeeds])

theorem eq_true_of_orBan {env : RunnerEnv} {b : Bool} (h : orBan env b = .pass) : b = true := by
  cases b with
  | true => rfl
  | false =>
    unfold orBan banGate at h
    cases hban : env.ban with
    | none => exact absurd h (by simp [hban])
    | some io => exact absurd h (by simp [hban])

/-- **A code that is published has come through every stage.** -/
theorem vetted_of_publishedCode (h : publishedCode stdHash env = some evolvedCode) :
    Vetted stdHash env evolvedCode := by
  unfold publishedCode at h
  split at h
  · rename_i code hcreated hforged
    rw [Option.ite_none_right_eq_some, Option.some.injEq] at h
    obtain ⟨hpass, rfl⟩ := h
    -- no obstacle, so every gate was passed; each of them is read off
    have hgates := forall_pass hpass
    obtain ⟨_, hanalyzed⟩ := eq_ok_of_returns
      (hgates (returns env.analyzer) (by simp [vettingGates]))
    have hopens := eq_true_of_succeeds (hgates (succeeds env.targetOpens) (by simp [vettingGates]))
    have hrunner := forall_pass
      (hgates (firstObstacle (runnerGates stdHash env.runner code)) (by simp [vettingGates]))
    have hsafe := eq_true_of_orBan
      (hrunner (orBan env.runner (evaluateMutation code).isSafe) (by simp [runnerGates]))
    have hcheck := hrunner (banCheckGate stdHash env.runner code) (by simp [runnerGates])
    have hexecution := forall_pass
      (hrunner (firstObstacle (executionGates env.runner)) (by simp [runnerGates]))
    refine ⟨⟨hcreated, hforged, hanalyzed, hsafe, hopens⟩, ?_, ?_, ?_⟩
    · unfold banCheckGate at hcheck
      split at hcheck
      · rename_i io hio
        refine ⟨io, hio, ?_⟩
        cases hbanned : isBanned stdHash io code with
        | true =>
          rw [hbanned] at hcheck
          exact absurd hcheck (by simp [holds])
        | false => rfl
      · exact absurd hcheck (by simp)
    · exact eq_true_of_orBan (hexecution (orBan env.runner (enforceTimeout env.runner.compile))
        (by simp [executionGates]))
    · exact eq_true_of_orBan (hexecution (orBan env.runner (enforceTimeout env.runner.exec))
        (by simp [executionGates]))
  · exact absurd h (by simp)

/-- The only file that a cycle adds apart from the ledgers is its own. -/
theorem add_of_mem_cycleScript {step : GitStep} (hstep : step ∈ cycleScript stdHash env)
    {paths : List Text} (hargs : gitCommand step.args = some (.add paths)) {p : Text}
    (hmem : p ∈ paths) (hp : p ∉ ledgers) : ∃ evolvedCode,
      publishedCode stdHash env = some evolvedCode ∧
        p = targetFile (mutationIdOf stdHash evolvedCode) ∧ step.args = [ascii "add", p] := by
  unfold cycleScript at hstep
  cases hcode : publishedCode stdHash env with
  | none =>
    rw [hcode] at hstep
    exact absurd hstep List.not_mem_nil
  | some evolvedCode =>
    rw [hcode, Option.elim_some, evolutionScript, List.mem_append] at hstep
    refine ⟨evolvedCode, rfl, ?_⟩
    -- of the publication only the second command adds, of the sync the first
    rcases hstep with hpublish | hsync
    · simp only [publishScript, List.mem_cons, List.not_mem_nil, or_false] at hpublish
      rcases hpublish with rfl | rfl | rfl | rfl | rfl
      · exact absurd hargs (by simp [gitCommand_checkoutReset])
      · rw [gitCommand_add, Option.some.injEq] at hargs
        obtain rfl := Command.add.inj hargs
        obtain rfl := List.mem_singleton.mp hmem
        exact ⟨rfl, rfl⟩
      · exact absurd hargs (by simp [gitCommand_commit])
      · exact absurd hargs (by simp [gitCommand_push])
      · have hcheckout : gitCommand [ascii "checkout", gitMain] = some (.checkout gitMain) := rfl
        exact absurd hargs (by simp [hcheckout])
    · split at hsync
      · simp only [syncScript, List.mem_cons, List.not_mem_nil, or_false] at hsync
        rcases hsync with rfl | rfl | rfl
        · have hadd : gitCommand (ascii "add" :: ledgers) = some (.add ledgers) := rfl
          rw [hadd, Option.some.injEq] at hargs
          obtain rfl := Command.add.inj hargs
          exact absurd hmem hp
        · exact absurd hargs (by simp [gitCommand_commit])
        · have hpush : gitCommand [ascii "push", ascii "origin", gitMain] = some (.push gitMain) := rfl
          exact absurd hargs (by simp [hpush])
      · exact absurd hsync List.not_mem_nil

end Vetted

/-- The file was somewhere in the repository. -/
def InRepo (r : Repo) (p blob : Text) : Prop :=
  r.index p = some blob ∨ treeOf r.headCommit p = some blob ∨
    ∃ name, treeOf (r.tips name) p = some blob ∨ treeOf (r.remote name) p = some blob

/-- **What is pushed was vetted.** After any cycles, whichever of their commands fail or throw and
wherever the daemon is killed: when every `add` of a cycle finds what the cycle has written
under that name, each file of each remote branch is a ledger, was in the repository before, or
is what some cycle has written of a code that was accepted, compiled and executed in it. -/
theorem pushed_vetted (stdHash : StdHash) (r : Repo) (cycles : List (CycleEnv × List Found))
    (hcycles : ∀ c ∈ cycles, OfCycle stdHash c.1 c.2)
    (hwritten : ∀ c ∈ cycles, ∀ evolvedCode, OpensTarget c.1 evolvedCode → ∀ f ∈ c.2,
      f.1.1 = [ascii "add", targetFile (mutationIdOf stdHash evolvedCode)] →
      f.2 (targetFile (mutationIdOf stdHash evolvedCode)) = some (c.1.written evolvedCode))
    (name p blob : Text) (hp : p ∉ ledgers)
    (hpushed : treeOf ((afterCycles r cycles).remote name) p = some blob) :
    InRepo r p blob ∨ ∃ c ∈ cycles, ∃ evolvedCode, Vetted stdHash c.1 evolvedCode ∧
      p = targetFile (mutationIdOf stdHash evolvedCode) ∧ blob = c.1.written evolvedCode := by
  let P : Text → Text → Prop := fun p blob => InRepo r p blob ∨
    ∃ c ∈ cycles, ∃ evolvedCode, Vetted stdHash c.1 evolvedCode ∧
      p = targetFile (mutationIdOf stdHash evolvedCode) ∧ blob = c.1.written evolvedCode
  have hstart : TreesIn P r :=
    { index := fun p _ blob h => Or.inl (Or.inl h)
      head := fun p _ blob h => Or.inl (Or.inr (Or.inl h))
      tips := fun name p _ blob h => Or.inl (Or.inr (Or.inr ⟨name, Or.inl h⟩))
      remote := fun name p _ blob h => Or.inl (Or.inr (Or.inr ⟨name, Or.inr h⟩)) }
  have hend : TreesIn P (afterCycles r cycles) := by
    refine treesIn_foldl hstart fun f hf paths hargs p hmem hp blob hblob => Or.inr ?_
    obtain ⟨c, hc, hfc⟩ := List.mem_flatMap.mp hf
    obtain ⟨step, hstep, hsame⟩ := args_mem_of_mem_ran
      ((hcycles c hc).subset (List.mem_map_of_mem hfc))
    rw [← hsame] at hargs
    obtain ⟨evolvedCode, hcode, rfl, hadd⟩ := add_of_mem_cycleScript hstep hargs hmem hp
    have hvetted := vetted_of_publishedCode hcode
    -- it finds what the cycle has written
    have hfound := hwritten c hc evolvedCode hvetted.opens f hfc (hsame ▸ hadd)
    exact ⟨c, hc, evolvedCode, hvetted, rfl, Option.some.inj (hblob.symm.trans hfound)⟩
  exact hend.remote name p hp blob hpushed

theorem pushed_vetted_wholeCycle :
    InRepo freshRepo (targetFile (mutationIdOf (fun _ => 7) acceptedSource)) acceptedSource ∨
      ∃ c ∈ [killedCycle, wholeCycle], ∃ evolvedCode, Vetted (fun _ => 7) c.1 evolvedCode ∧
        targetFile (mutationIdOf (fun _ => 7) acceptedSource) =
          targetFile (mutationIdOf (fun _ => 7) evolvedCode) ∧
        acceptedSource = c.1.written evolvedCode := by
  refine pushed_vetted (fun _ => 7) freshRepo [killedCycle, wholeCycle] ofCycle_wholeCycle ?_
    stagingBranch _ acceptedSource (by decide) (by decide +kernel)
  intro c hc evolvedCode hopens f hf _
  rw [List.mem_cons, List.mem_singleton] at hc
  rcases hc with rfl | rfl
  · obtain rfl := Except.ok.inj hopens.forged
    obtain rfl := List.mem_singleton.mp hf
    rfl
  · obtain rfl := Except.ok.inj hopens.forged
    obtain ⟨f', -, rfl⟩ := List.mem_map.mp hf
    rfl

end Swayam.Pipeline
