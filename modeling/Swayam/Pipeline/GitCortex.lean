import Swayam.Lib.GitRepo
import Swayam.Pipeline.Supervisor

/-!
# SWAYAM — `GitCortex` on a repository

`publish_evolution` moves the one working tree through a row of git commands: it
checks out `evolution-staging`, commits and pushes there, and goes back to `main`.
Each of the first four ends it with false when it fails, wherever the tree is by
then; the fifth is not looked at. `sync_ledgers` commits on whatever is checked out.

A git command that exits with 0 does what it documents, any other changes nothing.

* `publishEvolution_runs`, `syncLedgers_runs` — the commands are those of a cycle;
* `publishEnd` — how a publication can end, and the branch that is checked out then;
* `syncOn_tips` — where the ledger commit lands;
* `publishUndone_iff` — when a failed publication is undone, and a successful one
  back on main.
-/

namespace Swayam.Pipeline

open GitRepo

/-! ## Commands -/

abbrev Repo := GitRepo.Repo Text Text Text Text

abbrev GitCommand := GitRepo.Command Text Text Text

def gitMain : Text := ascii "main"

/-- What git makes of its arguments, for the commands of `GitCortex`. -/
def gitCommand (args : List Text) : Option GitCommand :=
  match args with
  | [verb, flag, name] =>
    -- a verb with a flag, or `add` with two paths
    if verb = ascii "checkout" ∧ flag = ascii "-B" then some (.checkoutReset name)
    else if verb = ascii "commit" ∧ flag = ascii "-m" then some (.commit name)
    else if verb = ascii "push" ∧ flag = ascii "origin" then some (.push name)
    else if verb = ascii "add" then some (.add [flag, name])
    else none
  | [verb, name] =>
    if verb = ascii "checkout" then some (.checkout name)
    else if verb = ascii "add" then some (.add [name])
    else none
  | [verb, flag, origin, name] =>
    if verb = ascii "push" ∧ flag = ascii "-u" ∧ origin = ascii "origin" then some (.push name)
    else none
  | _ => none

/-- A command that has run, and whether it exited with 0. -/
structure Ran where
  args : List Text
  ok   : Bool

/-- What it does to the repository. -/
def Ran.effect (ran : Ran) (r : Repo) : Repo :=
  if ran.ok then (gitCommand ran.args).elim r (·.apply r) else r

/-- `execute_git_command`, on the repository. -/
def executeOn (ok : Bool) (args : List Text) : StateM Repo Bool := fun r =>
  (ok, (Ran.mk args ok).effect r)

/-! ## `publish_evolution` and `sync_ledgers` -/

/-- Which commands of `publish_evolution` exit with 0. -/
structure PublishExits where
  checkout     : Bool
  add          : Bool
  commit       : Bool
  push         : Bool
  checkoutMain : Bool
  deriving DecidableEq, Repr

/-- And which of `sync_ledgers`. -/
structure SyncExits where
  add    : Bool
  commit : Bool
  push   : Bool
  deriving DecidableEq, Repr

def commitMessage (mutationId : Text) : Text :=
  ascii "[SWAYAM-AGI] Autonomous Phase Shift | ID: " ++ mutationId

def syncMessage : Text := ascii "[SWAYAM-AGI] Ledger Sync: Core Memory Updated"

/-- `GitCortex::publish_evolution` -/
def publishOn (out : PublishExits) (mutationId filePath : Text) : StateM Repo Bool := do
  if ← executeOn out.checkout [ascii "checkout", ascii "-B", stagingBranch] then
    if ← executeOn out.add [ascii "add", filePath] then
      if ← executeOn out.commit [ascii "commit", ascii "-m", commitMessage mutationId] then
        if ← executeOn out.push [ascii "push", ascii "-u", ascii "origin", stagingBranch] then
          -- its result is not looked at
          let _ ← executeOn out.checkoutMain [ascii "checkout", gitMain]
          pure true
        else pure false
      else pure false
    else pure false
  else pure false

/-- `GitCortex::sync_ledgers` -/
def syncOn (out : SyncExits) : StateM Repo Unit := do
  let _ ← executeOn out.add
    [ascii "add", ascii ".swayam_quarantine.ledger", ascii ".swayam_hive.ledger"]
  let _ ← executeOn out.commit [ascii "commit", ascii "-m", syncMessage]
  let _ ← executeOn out.push [ascii "push", ascii "origin", gitMain]

section Publish

variable (out : PublishExits) (mutationId filePath : Text) (r : Repo)

/-- What `publish_evolution` returns. -/
def publishReturns : Bool := (publishOn out mutationId filePath r).1

/-- The repository behind it. -/
def afterPublish : Repo := (publishOn out mutationId filePath r).2

/-! ## The same commands as in a cycle -/

/-- The answers of a cycle's environment with these exits. -/
def PublishExits.env (sync : SyncExits) : GitEnv where
  checkout := .ok out.checkout
  add := .ok out.add
  commit := .ok out.commit
  push := .ok out.push
  checkoutMain := .ok out.checkoutMain
  syncAdd := .ok sync.add
  syncCommit := .ok sync.commit
  syncPush := .ok sync.push

/-- The commands that run, with their exits. -/
def publishRan : List Ran :=
  ⟨[ascii "checkout", ascii "-B", stagingBranch], out.checkout⟩ ::
  (if out.checkout = false then [] else ⟨[ascii "add", filePath], out.add⟩ ::
  (if out.add = false then [] else
    ⟨[ascii "commit", ascii "-m", commitMessage mutationId], out.commit⟩ ::
  (if out.commit = false then [] else
    ⟨[ascii "push", ascii "-u", ascii "origin", stagingBranch], out.push⟩ ::
  (if out.push = false then [] else [⟨[ascii "checkout", gitMain], out.checkoutMain⟩]))))

/-- A command in the record of a cycle. -/
def World.ran (w : World) (ran : Ran) : World := { w with git := w.git ++ [gitArgs ran.args] }

/-- **The commands that a cycle runs** are those that act on the repository. -/
theorem publishEvolution_runs (sync : SyncExits) (w : World) :
    publishEvolution (out.env sync) mutationId filePath w =
        .ok (publishReturns out mutationId filePath r)
          ((publishRan out mutationId filePath).foldl World.ran w) ∧
      afterPublish out mutationId filePath r =
        (publishRan out mutationId filePath).foldl (fun r ran => ran.effect r) r := by
  obtain ⟨checkout, add, commit, push, checkoutMain⟩ := out
  cases checkout with
  | false => exact ⟨rfl, rfl⟩
  | true =>
    cases add with
    | false => exact ⟨rfl, rfl⟩
    | true =>
      cases commit with
      | false => exact ⟨rfl, rfl⟩
      | true =>
        cases push with
        | false => exact ⟨rfl, rfl⟩
        | true => exact ⟨rfl, rfl⟩

end Publish

/-! ## The single commands -/

section Commands

variable {r : Repo}

/-- A command that has run does what it documents, or nothing. -/
theorem effect_eq {args : List Text} {c : GitCommand} (hargs : gitCommand args = some c)
    (ok : Bool) (r : Repo) : (Ran.mk args ok).effect r = if ok then c.apply r else r := by
  rw [Ran.effect, hargs, Option.elim_some]

theorem gitCommand_checkoutReset (name : Text) :
    gitCommand [ascii "checkout", ascii "-B", name] = some (.checkoutReset name) := rfl

theorem gitCommand_add (path : Text) : gitCommand [ascii "add", path] = some (.add [path]) := rfl

theorem gitCommand_commit (message : Text) :
    gitCommand [ascii "commit", ascii "-m", message] = some (.commit message) := rfl

theorem gitCommand_push (name : Text) :
    gitCommand [ascii "push", ascii "-u", ascii "origin", name] = some (.push name) := rfl

/-- The staging branch is checked out, and main has this tip. -/
structure OnStaging (tip : Option (Commit Text Text Text)) (r : Repo) : Prop where
  head : r.head = .branch stagingBranch
  main : r.tips gitMain = tip

/-- The staging branch is not main. -/
theorem gitMain_ne_staging : gitMain ≠ stagingBranch := by decide

/-- `add`, `commit` and `push` stay on it, whether they succeed or not. -/
theorem OnStaging.effect {tip : Option (Commit Text Text Text)} (h : OnStaging tip r) (ok : Bool)
    {args : List Text} {c : GitCommand} (hargs : gitCommand args = some c)
    (hc : (∃ paths, c = .add paths) ∨ (∃ message, c = .commit message) ∨ ∃ name, c = .push name) :
    OnStaging tip ((Ran.mk args ok).effect r) := by
  rw [effect_eq hargs]
  cases ok with
  | false => exact h
  | true =>
    rcases hc with ⟨paths, rfl⟩ | ⟨message, rfl⟩ | ⟨name, rfl⟩
    · exact ⟨h.head, h.main⟩
    · exact ⟨head_commit h.head message,
        (tips_commit_of_ne h.head gitMain_ne_staging message).trans h.main⟩
    · exact ⟨h.head, h.main⟩

end Commands

/-! ## The branch afterwards -/

section After

variable (out : PublishExits) (mutationId filePath : Text) (r : Repo)

/-- The four commands that are looked at succeed. -/
def PublishExits.Pushed (out : PublishExits) : Prop :=
  out.checkout = true ∧ out.add = true ∧ out.commit = true ∧ out.push = true

/-- How a publication ends: with nothing done, on the staging branch, or back on main. -/
inductive PublishEnd : Prop
  | refused (hcheckout : out.checkout = false)
      (hreturns : publishReturns out mutationId filePath r = false)
      (hafter : afterPublish out mutationId filePath r = r)
  | aborted (hcheckout : out.checkout = true) (hpushed : ¬ out.Pushed)
      (hreturns : publishReturns out mutationId filePath r = false)
      (hafter : OnStaging (r.tips gitMain) (afterPublish out mutationId filePath r))
  | stranded (hpushed : out.Pushed) (hmain : out.checkoutMain = false)
      (hreturns : publishReturns out mutationId filePath r = true)
      (hafter : OnStaging (r.tips gitMain) (afterPublish out mutationId filePath r))
  | returned (hpushed : out.Pushed) (hmain : out.checkoutMain = true)
      (hreturns : publishReturns out mutationId filePath r = true)
      (hhead : (afterPublish out mutationId filePath r).head = .branch gitMain)
      (htip : (afterPublish out mutationId filePath r).tips gitMain = r.tips gitMain)

/-- **Every publication** ends in one of these ways. -/
theorem publishEnd : PublishEnd out mutationId filePath r := by
  obtain ⟨checkout, add, commit, push, checkoutMain⟩ := out
  cases checkout with
  | false => exact .refused rfl rfl rfl
  | true =>
    have hstart : OnStaging (r.tips gitMain)
        ((Ran.mk [ascii "checkout", ascii "-B", stagingBranch] true).effect r) := by
      rw [effect_eq (gitCommand_checkoutReset stagingBranch)]
      exact ⟨rfl, tips_checkoutReset gitMain_ne_staging⟩
    -- from here on no command leaves the staging branch but the last
    have hadd := hstart.effect add (gitCommand_add filePath) (Or.inl ⟨_, rfl⟩)
    have hcommit := hadd.effect commit (gitCommand_commit (commitMessage mutationId))
      (Or.inr (Or.inl ⟨_, rfl⟩))
    have hpush := hcommit.effect push (gitCommand_push stagingBranch)
      (Or.inr (Or.inr ⟨_, rfl⟩))
    cases add with
    | false => exact .aborted rfl (fun h => Bool.noConfusion h.2.1) rfl hadd
    | true =>
      cases commit with
      | false => exact .aborted rfl (fun h => Bool.noConfusion h.2.2.1) rfl hcommit
      | true =>
        cases push with
        | false => exact .aborted rfl (fun h => Bool.noConfusion h.2.2.2) rfl hpush
        | true =>
          have hpushed : (PublishExits.mk true true true true checkoutMain).Pushed :=
            ⟨rfl, rfl, rfl, rfl⟩
          cases checkoutMain with
          | false => exact .stranded hpushed rfl rfl hpush
          | true => exact .returned hpushed rfl rfl rfl hpush.main

end After

/-! ## The ledger commit -/

/-- `sync_ledgers` with any working tree, the ledgers having been written to in between: its
commit lands on main, on top of its tip, and no other branch moves. -/
def LandsOnMain (r : Repo) : Prop :=
  ∀ (worktree : Text → Option Text) (sync : SyncExits), sync.commit = true →
    (∃ tree, (syncOn sync { r with worktree }).2.tips gitMain =
      some (.mk (r.tips gitMain).toList tree syncMessage)) ∧
    ∀ name ≠ gitMain, (syncOn sync { r with worktree }).2.tips name = r.tips name

/-- The commands of `sync_ledgers`, with their exits. -/
def syncRan (sync : SyncExits) : List Ran :=
  [⟨[ascii "add", ascii ".swayam_quarantine.ledger", ascii ".swayam_hive.ledger"], sync.add⟩,
   ⟨[ascii "commit", ascii "-m", syncMessage], sync.commit⟩,
   ⟨[ascii "push", ascii "origin", gitMain], sync.push⟩]

/-- They are those of a cycle too. -/
theorem syncLedgers_runs (out : PublishExits) (sync : SyncExits) (w : World) (r : Repo) :
    syncLedgers (out.env sync) w = .ok () ((syncRan sync).foldl World.ran w) ∧
      (syncOn sync r).2 = (syncRan sync).foldl (fun r ran => ran.effect r) r :=
  ⟨rfl, rfl⟩

/-- The branches behind `sync_ledgers`: its commit lands on the one that is checked out. -/
theorem syncOn_tips {r : Repo} {name : Text} (h : r.head = .branch name) {sync : SyncExits}
    (hcommit : sync.commit = true) : ∃ tree, (syncOn sync r).2.tips =
      Function.update r.tips name (some (.mk (r.tips name).toList tree syncMessage)) := by
  obtain ⟨add, commit, push⟩ := sync
  obtain rfl : commit = true := hcommit
  -- only the commit moves a branch
  have hpush : (syncOn ⟨add, true, push⟩ r).2.tips = (syncOn ⟨add, true, false⟩ r).2.tips := by
    cases push with
    | false => rfl
    | true => rfl
  rw [hpush]
  cases add with
  | false => exact ⟨r.index, tips_commit h syncMessage⟩
  | true =>
    have hhead : ((Command.add [ascii ".swayam_quarantine.ledger",
        ascii ".swayam_hive.ledger"]).apply r).head = .branch name := h
    exact ⟨_, tips_commit hhead syncMessage⟩

/-- With main checked out, the ledger commit lands there. -/
theorem landsOnMain_of_head {r : Repo} (h : r.head = .branch gitMain) : LandsOnMain r := by
  intro worktree sync hcommit
  have hhead : ({ r with worktree } : Repo).head = .branch gitMain := h
  obtain ⟨tree, htips⟩ := syncOn_tips hhead hcommit
  rw [htips]
  refine ⟨⟨tree, Function.update_self ..⟩, fun name hname => ?_⟩
  exact Function.update_of_ne hname ..

/-! ## When a publication is undone -/

section Undone

variable (out : PublishExits) (mutationId filePath : Text) (r : Repo)

/-- A failed publication has main checked out again, as it was; a successful one has main checked
out, and the next ledger commit lands there. -/
structure PublishUndone : Prop where
  failed    : publishReturns out mutationId filePath r = false →
    (afterPublish out mutationId filePath r).head = .branch gitMain ∧
      (afterPublish out mutationId filePath r).tips gitMain = r.tips gitMain
  published : publishReturns out mutationId filePath r = true →
    (afterPublish out mutationId filePath r).head = .branch gitMain ∧
      LandsOnMain (afterPublish out mutationId filePath r)

/-- The staging branch is never checked out, or everything succeeds. -/
def PublishExits.Harmless (out : PublishExits) : Prop :=
  out.checkout = false ∨ (out.Pushed ∧ out.checkoutMain = true)

variable {out r}

/-- On the staging branch, main is not checked out. -/
theorem OnStaging.head_ne {tip : Option (Commit Text Text Text)} (h : OnStaging tip r) :
    r.head ≠ .branch gitMain := by
  rw [h.head]
  intro heq
  exact gitMain_ne_staging (Head.branch.inj heq).symm

variable (out)

/-- **A publication is undone** when it fails, and back on main when it does not, exactly for
these exits. -/
theorem publishUndone_iff (h : r.head = .branch gitMain) :
    PublishUndone out mutationId filePath r ↔ out.Harmless := by
  constructor
  · intro hundone
    cases publishEnd out mutationId filePath r with
    | refused hcheckout => exact Or.inl hcheckout
    -- the two ends on the staging branch are no way back
    | aborted _ _ hreturns hafter => exact absurd (hundone.failed hreturns).1 hafter.head_ne
    | stranded _ _ hreturns hafter => exact absurd (hundone.published hreturns).1 hafter.head_ne
    | returned hpushed hmain => exact Or.inr ⟨hpushed, hmain⟩
  · intro hharmless
    cases publishEnd out mutationId filePath r with
    | refused _ hreturns hafter =>
      refine ⟨fun _ => ?_, fun htrue => absurd (hreturns.symm.trans htrue) (by decide)⟩
      rw [hafter]
      exact ⟨h, rfl⟩
    | aborted hcheckout hpushed =>
      rcases hharmless with hfalse | ⟨hall, -⟩
      · exact absurd (hfalse.symm.trans hcheckout) (by decide)
      · exact absurd hall hpushed
    | stranded hpushed hmain =>
      rcases hharmless with hfalse | ⟨-, htrue⟩
      · exact absurd (hfalse.symm.trans hpushed.1) (by decide)
      · exact absurd (hmain.symm.trans htrue) (by decide)
    | returned _ _ hreturns hhead =>
      refine ⟨fun hfalse => absurd (hreturns.symm.trans hfalse) (by decide), fun _ => ?_⟩
      exact ⟨hhead, landsOnMain_of_head hhead⟩

end Undone

/-- A repository with one commit on main. -/
def freshRepo : Repo where
  head := .branch gitMain
  tips := fun name => if name = gitMain then some (.mk [] (fun _ => none) []) else none
  index := fun _ => none
  worktree := fun _ => none
  remote := fun _ => none

/-- A publication from there that nothing stops, one that does not get to the staging branch, one
whose commit fails on it, and one that does not get back from it. -/
theorem publishUndone_fresh : freshRepo.head = .branch gitMain ∧
    PublishUndone ⟨true, true, true, true, true⟩ (ascii "EVO_1") (ascii "mut.cpp") freshRepo ∧
    PublishUndone ⟨false, true, true, true, true⟩ (ascii "EVO_1") (ascii "mut.cpp") freshRepo ∧
    ¬ PublishUndone ⟨true, true, false, true, true⟩ (ascii "EVO_1") (ascii "mut.cpp") freshRepo ∧
    ¬ PublishUndone ⟨true, true, true, true, false⟩ (ascii "EVO_1") (ascii "mut.cpp") freshRepo := by
  refine ⟨rfl, (publishUndone_iff _ _ _ rfl).mpr (Or.inr ⟨⟨rfl, rfl, rfl, rfl⟩, rfl⟩),
    (publishUndone_iff _ _ _ rfl).mpr (Or.inl rfl), fun hundone => ?_, fun hundone => ?_⟩
  · rcases (publishUndone_iff _ _ _ rfl).mp hundone with hcheckout | ⟨hpushed, -⟩
    · exact absurd hcheckout (by decide)
    · exact absurd hpushed.2.2.1 (by decide)
  · rcases (publishUndone_iff _ _ _ rfl).mp hundone with hcheckout | ⟨-, hmain⟩
    · exact absurd hcheckout (by decide)
    · exact absurd hmain (by decide)

/-- A push that is refused leaves the staging branch checked out. -/
theorem refused_push_strands :
    ¬ PublishUndone ⟨true, true, true, false, true⟩ (ascii "EVO_1") (ascii "mut.cpp")
      freshRepo := by
  intro hundone
  have hhead := (hundone.failed rfl).1
  exact gitMain_ne_staging (Head.branch.inj hhead).symm

end Swayam.Pipeline
