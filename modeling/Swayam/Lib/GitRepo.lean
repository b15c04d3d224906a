import Mathlib.Logic.Function.Basic

/-!
# A git repository

What a program sees of a repository that it drives by commands: the branches and
which of them is checked out, the index, the working tree, and the branches of
the remote. `Command.apply` is what a command does that exits with 0.

* `head_checkoutReset`, `tips_checkout` and the like — what a command leaves alone;
* `tips_commit` — a commit lands on the branch that is checked out, and moves no
  other.
-/

namespace GitRepo

/-- A commit: its parents, the tree and the message. -/
inductive Commit (path blob msg : Type) where
  | mk (parents : List (Commit path blob msg)) (tree : path → Option blob) (message : msg)

def Commit.tree {path blob msg : Type} : Commit path blob msg → path → Option blob
  | .mk _ tree _ => tree

/-- What `HEAD` points to. -/
inductive Head (branch path blob msg : Type) where
  | branch (name : branch)
  | detached (commit : Commit path blob msg)

structure Repo (branch path blob msg : Type) where
  head     : Head branch path blob msg
  tips     : branch → Option (Commit path blob msg)   -- `none` where there is no such branch
  index    : path → Option blob
  worktree : path → Option blob
  remote   : branch → Option (Commit path blob msg)

inductive Command (branch path msg : Type) where
  | checkoutReset (name : branch)     -- `checkout -B name`
  | checkout (name : branch)
  | add (paths : List path)
  | commit (message : msg)
  | push (name : branch)

variable {branch path blob msg : Type} [DecidableEq branch]

/-- The commit that is checked out; there is none on a new branch. -/
def Repo.headCommit (r : Repo branch path blob msg) : Option (Commit path blob msg) :=
  match r.head with
  | .branch name => r.tips name
  | .detached commit => some commit

/-- A new commit moves the branch that is checked out, or `HEAD` alone. -/
def Repo.advance (r : Repo branch path blob msg) (c : Commit path blob msg) :
    Repo branch path blob msg :=
  match r.head with
  | .branch name => { r with tips := Function.update r.tips name (some c) }
  | .detached _ => { r with head := .detached c }

section Commands

variable [DecidableEq path] [DecidableEq blob]

/-- The tree of a commit; that of none is empty. -/
def treeOf (c : Option (Commit path blob msg)) : path → Option blob :=
  c.elim (fun _ => none) (·.tree)

/-- Where the two trees differ the new one is checked out; local changes elsewhere are kept. -/
def switched (old new local_ : path → Option blob) : path → Option blob := fun p =>
  if old p = new p then local_ p else new p

/-- What a command does that exits with 0. -/
def Command.apply (r : Repo branch path blob msg) :
    Command branch path msg → Repo branch path blob msg
  | .checkoutReset name =>
    { r with head := .branch name, tips := Function.update r.tips name r.headCommit }
  | .checkout name =>
    { r with
      head := .branch name
      index := switched (treeOf r.headCommit) (treeOf (r.tips name)) r.index
      worktree := switched (treeOf r.headCommit) (treeOf (r.tips name)) r.worktree }
  | .add paths => { r with index := fun p => if p ∈ paths then r.worktree p else r.index p }
  | .commit message => r.advance (.mk r.headCommit.toList r.index message)
  | .push name => { r with remote := Function.update r.remote name (r.tips name) }

/-! ## What a command leaves alone -/

variable {r : Repo branch path blob msg}

@[simp] theorem head_checkoutReset (name : branch) :
    ((Command.checkoutReset name).apply r).head = .branch name := rfl

@[simp] theorem head_checkout (name : branch) :
    ((Command.checkout name).apply r).head = .branch name := rfl

@[simp] theorem head_add (paths : List path) : ((Command.add paths).apply r).head = r.head := rfl

@[simp] theorem head_push (name : branch) : ((Command.push name).apply r).head = r.head := rfl

/-- A commit on a branch keeps it checked out. -/
theorem head_commit {name : branch} (h : r.head = .branch name) (message : msg) :
    ((Command.commit message).apply r).head = .branch name := by
  rw [Command.apply, Repo.advance, h]

@[simp] theorem tips_checkout (name : branch) :
    ((Command.checkout name).apply r).tips = r.tips := rfl

@[simp] theorem tips_add (paths : List path) : ((Command.add paths).apply r).tips = r.tips := rfl

@[simp] theorem tips_push (name : branch) : ((Command.push name).apply r).tips = r.tips := rfl

/-- A reset moves no other branch. -/
theorem tips_checkoutReset {name other : branch} (h : other ≠ name) :
    ((Command.checkoutReset name).apply r).tips other = r.tips other :=
  Function.update_of_ne h ..

/-- **A commit lands on the branch that is checked out**, on top of its tip. -/
theorem tips_commit {name : branch} (h : r.head = .branch name) (message : msg) :
    ((Command.commit message).apply r).tips =
      Function.update r.tips name (some (.mk (r.tips name).toList r.index message)) := by
  rw [Command.apply, Repo.advance, Repo.headCommit, h]

/-- And moves no other. -/
theorem tips_commit_of_ne {name other : branch} (h : r.head = .branch name) (hne : other ≠ name)
    (message : msg) : ((Command.commit message).apply r).tips other = r.tips other := by
  rw [tips_commit h, Function.update_of_ne hne]

end Commands

end GitRepo
