import Mathlib.Data.List.Infix
import Swayam.Core.LogSystem

/-!
# SWAYAM — invariants of the log system

What holds in every run, for any mix of appends, queries, merges and kills:
each stage of a call has its assertion (`Ok`), and each system call keeps a
guarantee to the other processes (`Guar`).

* `move_cases` — what a move is;
* `move_own` — a move keeps the assertion of its process, and the guarantee;
* `ok_stable` — the guarantee leaves the assertions of the others true;
* `base_init`, `base_step` — so the assertions hold in every state of every run.
-/

namespace Swayam.LogSystem

open Interleaving

/-! ## Assertions -/

/-- An inode that is not behind the name of a temp file: the log, or one that was. -/
def Kernel.LogFd (k : Kernel) (fd : Nat) : Prop :=
  fd < k.next ∧ ∀ pid, k.tmp pid ≠ some fd

/-- The facts about the kernel alone. -/
structure Glob (k : Kernel) : Prop where
  exclusive : k.ex ≠ none → k.sh = []
  log       : ∀ fd, k.log = some fd → k.LogFd fd
  tmpLt     : ∀ pid fd, k.tmp pid = some fd → fd < k.next
  tmpInj    : ∀ pid pid' fd, k.tmp pid = some fd → k.tmp pid' = some fd → pid = pid'

/-- An append behind its lock holds it; the log it reads is the one the path names; what
is in the temp file and what is still to be written make up the new log. -/
def AppendOk (k : Kernel) (p pid : Nat) (a : AppendArgs) : AppendPc → Prop
  | .started => True
  | .locked => k.ex = some p
  | .reading fd buf => k.ex = some p ∧ k.log = some fd ∧ buf <+: k.data fd
  | .loaded _ => k.ex = some p
  | .writing fd existing rest => k.ex = some p ∧ k.tmp pid = some fd ∧
      k.data fd ++ rest = withHeader existing ++ a.entry
  | .written existing => k.ex = some p ∧ ∃ fd, k.tmp pid = some fd ∧
      k.data fd = withHeader existing ++ a.entry
  | .renamed => k.ex = some p

def QueryOk (k : Kernel) (p : Nat) : QueryPc → Prop
  | .started => True
  | .locked => p ∈ k.sh
  | .reading fd buf => p ∈ k.sh ∧ k.log = some fd ∧ buf <+: k.data fd
  | .answered _ => p ∈ k.sh

/-- A merge only ever has the log open, or an inode that was the log. -/
def MergeOk (k : Kernel) (c : MergeCall) : MergePc → Prop
  | .started => True
  | .admitted _ => True
  | .reading _ fd buf => k.LogFd fd ∧ buf <+: k.data fd
  | .loaded _ _ => True
  | .appending fd hashes written rest => k.LogFd fd ∧ written ++ rest = c.output hashes ∧
      ∀ h ∈ hashes, IsHash h

def TaskOk (k : Kernel) (p pid : Nat) : Task → Prop
  | .append a pc => AppendOk k p pid a pc
  | .query _ pc => QueryOk k p pc
  | .merge c pc => MergeOk k c pc

/-- A running process has its process id, and its task is as its stage says. -/
def Ok (k : Kernel) (p : Nat) : Proc → Prop
  | .running pid task => k.owner pid = some p ∧ TaskOk k p pid task
  | _ => True

/-- What a step of process `p` guarantees to the others: they keep their process ids and
locks; under a lock of theirs the path names the same log; a log inode only grows;
their temp files stay as they are. -/
structure Guar (p : Nat) (k k' : Kernel) : Prop where
  owner : ∀ pid q, q ≠ p → k.owner pid = some q → k'.owner pid = some q
  ex    : ∀ q, q ≠ p → k.ex = some q → k'.ex = some q
  sh    : ∀ q, q ≠ p → q ∈ k.sh → q ∈ k'.sh
  log   : ∀ q fd, q ≠ p → k.ex = some q ∨ q ∈ k.sh → k.log = some fd → k'.log = some fd
  logFd : ∀ fd, k.LogFd fd → k'.LogFd fd ∧ k.data fd <+: k'.data fd
  tmp   : ∀ pid q fd, q ≠ p → k.owner pid = some q → k.tmp pid = some fd →
    k'.tmp pid = some fd ∧ k'.data fd = k.data fd

/-! ## System calls -/

section SystemCalls

variable {k k' : Kernel} {p pid fd : Nat}

/-- Doing nothing guarantees everything. -/
theorem guar_refl (p : Nat) (k : Kernel) : Guar p k k where
  owner _ _ _ h := h
  ex _ _ h := h
  sh _ _ h := h
  log _ _ _ _ h := h
  logFd _ h := ⟨h, List.prefix_rfl⟩
  tmp _ _ _ _ _ h := ⟨h, rfl⟩

/-- A new process id changes nothing global. -/
theorem glob_start (hglob : Glob k) :
    Glob { k with owner := Function.update k.owner pid (some p) } where
  exclusive := hglob.exclusive
  log := hglob.log
  tmpLt := hglob.tmpLt
  tmpInj := hglob.tmpInj

/-- And takes nothing from anyone. -/
theorem guar_start (hfree : k.owner pid = none) :
    Guar p k { k with owner := Function.update k.owner pid (some p) } where
  owner pid' q _ h := by
    have hne : pid' ≠ pid := by
      rintro rfl
      rw [hfree] at h
      exact absurd h (by simp)
    show Function.update k.owner pid (some p) pid' = some q
    rw [Function.update_of_ne hne, h]
  ex _ _ h := h
  sh _ _ h := h
  log _ _ _ _ h := h
  logFd _ h := ⟨h, List.prefix_rfl⟩
  tmp _ _ _ _ _ h := ⟨h, rfl⟩

/-- The exclusive lock is granted when nobody holds one. -/
theorem lockEx_eq_some :
    k.lockEx p = some k' ↔ (k.ex = none ∧ k.sh = []) ∧ k' = { k with ex := some p } :=
  Machine.guarded_eq_some

/-- A shared one when nobody holds the exclusive one. -/
theorem lockSh_eq_some :
    k.lockSh p = some k' ↔ k.ex = none ∧ k' = { k with sh := p :: k.sh } :=
  Machine.guarded_eq_some

/-- The locks exclude each other. -/
theorem glob_lockEx (hglob : Glob k) (h : k.lockEx p = some k') : Glob k' := by
  obtain ⟨⟨-, hsh⟩, rfl⟩ := lockEx_eq_some.mp h
  exact ⟨fun _ => hsh, hglob.log, hglob.tmpLt, hglob.tmpInj⟩

theorem guar_lockEx (h : k.lockEx p = some k') : Guar p k k' := by
  obtain ⟨⟨hex, -⟩, rfl⟩ := lockEx_eq_some.mp h
  refine ⟨fun _ _ _ h => h, fun q _ hq => ?_, fun _ _ h => h, fun _ _ _ _ h => h,
    fun _ h => ⟨h, List.prefix_rfl⟩, fun _ _ _ _ _ h => ⟨h, rfl⟩⟩
  rw [hex] at hq
  exact absurd hq (by simp)

theorem glob_lockSh (hglob : Glob k) (h : k.lockSh p = some k') : Glob k' := by
  obtain ⟨hex, rfl⟩ := lockSh_eq_some.mp h
  exact ⟨fun hne => absurd hex hne, hglob.log, hglob.tmpLt, hglob.tmpInj⟩

theorem guar_lockSh (h : k.lockSh p = some k') : Guar p k k' := by
  obtain ⟨-, rfl⟩ := lockSh_eq_some.mp h
  exact ⟨fun _ _ _ h => h, fun _ _ h => h, fun _ _ h => List.mem_cons_of_mem _ h,
    fun _ _ _ _ h => h, fun _ h => ⟨h, List.prefix_rfl⟩, fun _ _ _ _ _ h => ⟨h, rfl⟩⟩

theorem glob_exit (hglob : Glob k) : Glob (k.exit p pid) where
  exclusive h := by
    -- only the lock of the process that ends is dropped
    show k.sh.filter (· ≠ p) = []
    have hex : k.ex ≠ none := by
      intro hnone
      apply h
      show (if k.ex = some p then none else k.ex) = none
      rw [hnone]
      simp
    rw [hglob.exclusive hex, List.filter_nil]
  log := hglob.log
  tmpLt := hglob.tmpLt
  tmpInj := hglob.tmpInj

/-- A process that ends gives back only what it held. -/
theorem guar_exit (hown : k.owner pid = some p) : Guar p k (k.exit p pid) where
  owner pid' q hne h := by
    have hpid : pid' ≠ pid := by
      rintro rfl
      rw [hown] at h
      exact hne (Option.some.inj h).symm
    show Function.update k.owner pid none pid' = some q
    rw [Function.update_of_ne hpid, h]
  ex q hne h := by
    show (if k.ex = some p then none else k.ex) = some q
    rw [h, if_neg]
    intro heq
    exact hne (Option.some.inj heq)
  sh q hne h := List.mem_filter.mpr ⟨h, by simpa using hne⟩
  log _ _ _ _ h := h
  logFd _ h := ⟨h, List.prefix_rfl⟩
  tmp _ _ _ _ _ h := ⟨h, rfl⟩

/-! ### The temp file -/

/-- New content in an inode changes no name. -/
theorem glob_data (hglob : Glob k) (t : Text) :
    Glob { k with data := Function.update k.data fd t } where
  exclusive := hglob.exclusive
  log := hglob.log
  tmpLt := hglob.tmpLt
  tmpInj := hglob.tmpInj

/-- New content in the caller's temp file is nothing that another process reads. -/
theorem guar_tmpData (hglob : Glob k) (hown : k.owner pid = some p)
    (htmp : k.tmp pid = some fd) (t : Text) :
    Guar p k { k with data := Function.update k.data fd t } where
  owner _ _ _ h := h
  ex _ _ h := h
  sh _ _ h := h
  log _ _ _ _ h := h
  logFd fd' h := by
    have hne : fd' ≠ fd := by
      rintro rfl
      -- a temp file is no log inode
      exact h.2 pid htmp
    refine ⟨h, ?_⟩
    show k.data fd' <+: Function.update k.data fd t fd'
    rw [Function.update_of_ne hne]
  tmp pid' q fd' hne hq h := by
    have hfd : fd' ≠ fd := by
      rintro rfl
      -- a shared temp file would have one name, and so one owner
      rw [hglob.tmpInj pid' pid fd' h htmp, hown] at hq
      exact hne (Option.some.inj hq).symm
    refine ⟨h, ?_⟩
    show Function.update k.data fd t fd' = k.data fd'
    rw [Function.update_of_ne hfd]

theorem glob_create (hglob : Glob k) : Glob k.create where
  exclusive := hglob.exclusive
  log fd h := ⟨Nat.lt_succ_of_lt (hglob.log fd h).1, (hglob.log fd h).2⟩
  tmpLt pid fd h := Nat.lt_succ_of_lt (hglob.tmpLt pid fd h)
  tmpInj := hglob.tmpInj

/-- A new inode is none that a process has open. -/
theorem guar_create (hglob : Glob k) : Guar p k k.create where
  owner _ _ _ h := h
  ex _ _ h := h
  sh _ _ h := h
  log _ _ _ _ h := h
  logFd fd h := by
    refine ⟨⟨Nat.lt_succ_of_lt h.1, h.2⟩, ?_⟩
    show k.data fd <+: Function.update k.data k.next [] fd
    rw [Function.update_of_ne (Nat.ne_of_lt h.1)]
  tmp pid q fd _ _ h := by
    refine ⟨h, ?_⟩
    show Function.update k.data k.next [] fd = k.data fd
    rw [Function.update_of_ne (Nat.ne_of_lt (hglob.tmpLt pid fd h))]

/-- What `openTmp` does: it empties the file with the name, or names a new one. -/
theorem openTmp_cases (k : Kernel) (pid : Nat) :
    (∃ fd, k.tmp pid = some fd ∧
      k.openTmp pid = ({ k with data := Function.update k.data fd [] }, fd)) ∨
    (k.tmp pid = none ∧ k.openTmp pid =
      ({ k.create with tmp := Function.update k.tmp pid (some k.next) }, k.next)) := by
  unfold Kernel.openTmp
  cases htmp : k.tmp pid with
  | some fd => exact Or.inl ⟨fd, rfl, rfl⟩
  | none => exact Or.inr ⟨rfl, rfl⟩

/-- The temp file that `openTmp` leaves is the caller's, and empty. -/
theorem openTmp_spec (k : Kernel) (pid : Nat) :
    (k.openTmp pid).1.tmp pid = some (k.openTmp pid).2 ∧
      (k.openTmp pid).1.data (k.openTmp pid).2 = [] := by
  rcases openTmp_cases k pid with ⟨fd, htmp, h⟩ | ⟨-, h⟩
  · rw [h]
    exact ⟨htmp, Function.update_self ..⟩
  · rw [h]
    exact ⟨Function.update_self .., Function.update_self ..⟩

/-- `openTmp` leaves the names of the log, the locks and the process ids alone. -/
theorem openTmp_frame (k : Kernel) (pid : Nat) :
    (k.openTmp pid).1.log = k.log ∧ (k.openTmp pid).1.ex = k.ex ∧
      (k.openTmp pid).1.owner = k.owner ∧ (k.openTmp pid).1.renames = k.renames := by
  rcases openTmp_cases k pid with ⟨fd, -, h⟩ | ⟨-, h⟩
  · rw [h]
    exact ⟨rfl, rfl, rfl, rfl⟩
  · rw [h]
    exact ⟨rfl, rfl, rfl, rfl⟩

/-- The names of temp files after a new one is created. -/
private theorem tmp_of_create {a : Nat}
    (h : Function.update k.tmp pid (some k.next) a = some fd) :
    (a = pid ∧ fd = k.next) ∨ (a ≠ pid ∧ k.tmp a = some fd) := by
  rcases eq_or_ne a pid with rfl | hne
  · rw [Function.update_self] at h
    exact Or.inl ⟨rfl, (Option.some.inj h).symm⟩
  · rw [Function.update_of_ne hne] at h
    exact Or.inr ⟨hne, h⟩

theorem glob_openTmp (hglob : Glob k) : Glob (k.openTmp pid).1 := by
  rcases openTmp_cases k pid with ⟨fd, -, h⟩ | ⟨hnone, h⟩
  · rw [h]
    exact glob_data hglob []
  · rw [h]
    -- the new name is behind the new inode, which nothing else names
    have hcreate := glob_create hglob
    refine ⟨hcreate.exclusive, fun fd hlog => ⟨(hcreate.log fd hlog).1, fun a ha => ?_⟩,
      fun a fd ha => ?_, fun a b fd ha hb => ?_⟩
    · have hlt := (hglob.log fd hlog).1
      rcases tmp_of_create ha with ⟨-, rfl⟩ | ⟨-, ha⟩
      · exact absurd hlt (lt_irrefl _)
      · exact (hglob.log fd hlog).2 a ha
    · show fd < k.next + 1
      rcases tmp_of_create ha with ⟨-, rfl⟩ | ⟨-, ha⟩
      · exact Nat.lt_succ_self _
      · exact Nat.lt_succ_of_lt (hglob.tmpLt a fd ha)
    · -- the new inode is behind no other name
      rcases tmp_of_create ha with ⟨rfl, rfl⟩ | ⟨-, ha'⟩
      · rcases tmp_of_create hb with ⟨rfl, -⟩ | ⟨-, hb'⟩
        · rfl
        · exact absurd (hglob.tmpLt b _ hb') (lt_irrefl _)
      · rcases tmp_of_create hb with ⟨rfl, rfl⟩ | ⟨-, hb'⟩
        · exact absurd (hglob.tmpLt a _ ha') (lt_irrefl _)
        · exact hglob.tmpInj a b fd ha' hb'

theorem guar_openTmp (hglob : Glob k) (hown : k.owner pid = some p) :
    Guar p k (k.openTmp pid).1 := by
  rcases openTmp_cases k pid with ⟨fd, htmp, h⟩ | ⟨hnone, h⟩
  · rw [h]
    -- the file of a dead process with this id is emptied
    exact guar_tmpData hglob hown htmp []
  · rw [h]
    have hcreate : Guar p k k.create := guar_create hglob
    refine ⟨hcreate.owner, hcreate.ex, hcreate.sh, hcreate.log, fun fd hfd => ?_,
      fun pid' q fd hne hq htmp => ?_⟩
    · refine ⟨⟨(hcreate.logFd fd hfd).1.1, fun pid' => ?_⟩, (hcreate.logFd fd hfd).2⟩
      intro hpid
      rcases tmp_of_create hpid with ⟨-, rfl⟩ | ⟨-, hpid⟩
      · exact absurd hfd.1 (lt_irrefl _)
      · exact hfd.2 pid' hpid
    · have hpid : pid' ≠ pid := by
        rintro rfl
        rw [hnone] at htmp
        exact absurd htmp (by simp)
      refine ⟨?_, (hcreate.tmp pid' q fd hne hq htmp).2⟩
      show Function.update k.tmp pid (some k.next) pid' = some fd
      rw [Function.update_of_ne hpid, htmp]

/-- A rename puts the temporary file in the log's place. -/
theorem rename_eq_some {a : AppendArgs} : k.rename p pid a = some k' ↔
    ∃ fd, k.tmp pid = some fd ∧
      k' = { k with log := some fd, tmp := Function.update k.tmp pid none,
                    renames := k.renames ++ [(p, a)] } := by
  unfold Kernel.rename
  rw [Option.map_eq_some_iff]
  constructor
  · rintro ⟨fd, htmp, rfl⟩
    exact ⟨fd, htmp, rfl⟩
  · rintro ⟨fd, htmp, rfl⟩
    exact ⟨fd, htmp, rfl⟩

/-- After the rename, only other names are left for temp files. -/
private theorem tmp_of_rename {pid' fd' : Nat}
    (h : Function.update k.tmp pid none pid' = some fd') : pid' ≠ pid ∧ k.tmp pid' = some fd' := by
  rcases eq_or_ne pid' pid with rfl | hne
  · rw [Function.update_self] at h
    exact absurd h (by simp)
  · rw [Function.update_of_ne hne] at h
    exact ⟨hne, h⟩

/-- The files behind the log stay apart. -/
theorem glob_rename {a : AppendArgs} (hglob : Glob k) (h : k.rename p pid a = some k') :
    Glob k' := by
  obtain ⟨fd, htmp, rfl⟩ := rename_eq_some.mp h
  refine ⟨hglob.exclusive, fun fd' hlog => ?_, fun pid' fd' h' => ?_, fun a b fd' ha hb => ?_⟩
  · obtain rfl : fd = fd' := Option.some.inj hlog
    refine ⟨hglob.tmpLt pid fd htmp, fun pid' h' => ?_⟩
    obtain ⟨hne, h'⟩ := tmp_of_rename h'
    exact hne (hglob.tmpInj pid' pid fd h' htmp)
  · exact hglob.tmpLt pid' fd' (tmp_of_rename h').2
  · exact hglob.tmpInj a b fd' (tmp_of_rename ha).2 (tmp_of_rename hb).2

/-- A rename under the exclusive lock is seen by nobody who holds a lock. -/
theorem guar_rename {a : AppendArgs} (hglob : Glob k) (hown : k.owner pid = some p)
    (hex : k.ex = some p) (h : k.rename p pid a = some k') : Guar p k k' := by
  obtain ⟨fd, htmp, rfl⟩ := rename_eq_some.mp h
  refine ⟨fun _ _ _ h => h, fun _ _ h => h, fun _ _ h => h, fun q fd' hne hlock _ => ?_,
    fun fd' hfd => ⟨⟨hfd.1, fun pid' h' => hfd.2 pid' (tmp_of_rename h').2⟩, List.prefix_rfl⟩,
    fun pid' q fd' hne hq h' => ⟨?_, rfl⟩⟩
  · -- who else holds a lock would exclude this one
    rcases hlock with hlock | hlock
    · rw [hex] at hlock
      exact absurd (Option.some.inj hlock).symm hne
    · rw [hglob.exclusive (by rw [hex]; simp)] at hlock
      exact absurd hlock List.not_mem_nil
  · have hpid : pid' ≠ pid := by
      rintro rfl
      rw [hown] at hq
      exact hne (Option.some.inj hq).symm
    show Function.update k.tmp pid none pid' = some fd'
    rw [Function.update_of_ne hpid, h']

/-! ### The log, opened for appending -/

/-- What `openLog` does: nothing, or it names a new, empty log. -/
theorem openLog_cases (k : Kernel) :
    (∃ fd, k.log = some fd ∧ k.openLog = (k, fd)) ∨
    (k.log = none ∧ k.openLog = ({ k.create with log := some k.next }, k.next)) := by
  unfold Kernel.openLog
  cases hlog : k.log with
  | some fd => exact Or.inl ⟨fd, rfl, rfl⟩
  | none => exact Or.inr ⟨rfl, rfl⟩

/-- Opening the log creates it at most. -/
theorem openLog_frame (k : Kernel) :
    k.openLog.1.log = some k.openLog.2 ∧ k.openLog.1.ex = k.ex ∧
      k.openLog.1.owner = k.owner ∧ k.openLog.1.renames = k.renames := by
  rcases openLog_cases k with ⟨fd, hlog, h⟩ | ⟨-, h⟩
  · rw [h]
    exact ⟨hlog, rfl, rfl, rfl⟩
  · rw [h]
    exact ⟨rfl, rfl, rfl, rfl⟩

theorem glob_openLog (hglob : Glob k) : Glob k.openLog.1 := by
  rcases openLog_cases k with ⟨fd, -, h⟩ | ⟨-, h⟩
  · rw [h]
    exact hglob
  · rw [h]
    have hcreate := glob_create hglob
    refine ⟨hcreate.exclusive, fun fd hfd => ?_, hcreate.tmpLt, hcreate.tmpInj⟩
    obtain rfl : k.next = fd := Option.some.inj hfd
    refine ⟨Nat.lt_succ_self _, fun pid htmp => ?_⟩
    exact absurd (hglob.tmpLt pid k.next htmp) (lt_irrefl _)

theorem guar_openLog (hglob : Glob k) : Guar p k k.openLog.1 := by
  rcases openLog_cases k with ⟨fd, -, h⟩ | ⟨hnone, h⟩
  · rw [h]
    exact guar_refl p k
  · rw [h]
    have hcreate : Guar p k k.create := guar_create hglob
    refine ⟨hcreate.owner, hcreate.ex, hcreate.sh, fun q fd _ _ hlog => ?_, hcreate.logFd,
      hcreate.tmp⟩
    rw [hnone] at hlog
    exact absurd hlog (by simp)

/-- Appending to a log inode leaves every temp file alone. -/
theorem guar_writeLog (hfd : k.LogFd fd) (bytes : Text) : Guar p k (k.write fd bytes) where
  owner _ _ _ h := h
  ex _ _ h := h
  sh _ _ h := h
  log _ _ _ _ h := h
  logFd fd' h := by
    refine ⟨h, ?_⟩
    show k.data fd' <+: Function.update k.data fd (k.data fd ++ bytes) fd'
    rcases eq_or_ne fd' fd with rfl | hne
    · rw [Function.update_self]
      exact List.prefix_append ..
    · rw [Function.update_of_ne hne]
  tmp pid q fd' _ _ h := by
    have hne : fd' ≠ fd := by
      rintro rfl
      exact hfd.2 pid h
    refine ⟨h, ?_⟩
    show Function.update k.data fd (k.data fd ++ bytes) fd' = k.data fd'
    rw [Function.update_of_ne hne]

end SystemCalls

/-! ## The assertions are an invariant -/

section Assertions

variable {k k' : Kernel} {p q pid : Nat}

/-- What another process guarantees leaves the assertions true. -/
theorem ok_stable {proc : Proc} (hglob : Glob k) (hne : q ≠ p) (hguar : Guar p k k')
    (h : Ok k q proc) : Ok k' q proc := by
  cases proc with
  | idle => trivial
  | ended o => trivial
  | killed => trivial
  | running pid task =>
    obtain ⟨hown, htask⟩ := h
    refine ⟨hguar.owner pid q hne hown, ?_⟩
    cases task with
    | append a pc =>
      cases pc with
      | started => trivial
      | locked => exact hguar.ex q hne htask
      | reading fd buf =>
        obtain ⟨hex, hlog, hbuf⟩ := htask
        -- under its lock the path names the same inode, and that one only grows
        have hgrow := (hguar.logFd fd (hglob.log fd hlog)).2
        exact ⟨hguar.ex q hne hex, hguar.log q fd hne (Or.inl hex) hlog, hbuf.trans hgrow⟩
      | loaded existing => exact hguar.ex q hne htask
      | writing fd existing rest =>
        obtain ⟨hex, htmp, hdata⟩ := htask
        -- its temp file is its own, by its process id
        obtain ⟨htmp', hsame⟩ := hguar.tmp pid q fd hne hown htmp
        refine ⟨hguar.ex q hne hex, htmp', ?_⟩
        rw [hsame]
        exact hdata
      | written existing =>
        obtain ⟨hex, fd, htmp, hdata⟩ := htask
        obtain ⟨htmp', hsame⟩ := hguar.tmp pid q fd hne hown htmp
        refine ⟨hguar.ex q hne hex, fd, htmp', ?_⟩
        rw [hsame]
        exact hdata
      | renamed => exact hguar.ex q hne htask
    | query hash pc =>
      cases pc with
      | started => trivial
      | locked => exact hguar.sh q hne htask
      | reading fd buf =>
        obtain ⟨hsh, hlog, hbuf⟩ := htask
        have hgrow := (hguar.logFd fd (hglob.log fd hlog)).2
        exact ⟨hguar.sh q hne hsh, hguar.log q fd hne (Or.inr hsh) hlog, hbuf.trans hgrow⟩
      | answered found => exact hguar.sh q hne htask
    | merge c pc =>
      cases pc with
      | started => trivial
      | admitted ls => trivial
      | reading ls fd buf =>
        obtain ⟨hfd, hbuf⟩ := htask
        -- a merge has no lock: all it knows is that log inodes only grow
        obtain ⟨hfd', hgrow⟩ := hguar.logFd fd hfd
        exact ⟨hfd', hbuf.trans hgrow⟩
      | loaded ls log => trivial
      | appending fd hashes written rest =>
        obtain ⟨hfd, hout⟩ := htask
        exact ⟨(hguar.logFd fd hfd).1, hout⟩

/-- A read extends what has been read, within the content of the inode. -/
theorem read_prefix {fd n : Nat} {buf : Text} (h : buf <+: k.data fd) :
    buf ++ k.read fd buf n <+: k.data fd := by
  obtain ⟨t, ht⟩ := h
  rw [Kernel.read, ← ht, List.drop_left, List.prefix_append_right_inj]
  exact List.take_prefix ..

/-- A read that delivers nothing is at the end of the inode. -/
theorem eq_of_read_nil {fd n : Nat} {buf : Text} (h : buf <+: k.data fd)
    (hread : k.read fd buf n = []) : buf = k.data fd := by
  obtain ⟨t, ht⟩ := h
  rw [Kernel.read, ← ht, List.drop_left, List.take_eq_nil_iff] at hread
  rcases hread with hn | rfl
  · omega
  · rw [← ht, List.append_nil]

/-- **An append keeps its assertion**, step by step. -/
theorem moveAppend_own {a : AppendArgs} {n : Nat} {pc : AppendPc} {proc : Proc}
    (hglob : Glob k) (hown : k.owner pid = some p) (hok : AppendOk k p pid a pc)
    (h : moveAppend k p pid a n pc = some (k', proc)) :
    Glob k' ∧ Ok k' p proc ∧ Guar p k k' := by
  cases pc with
  | started =>
    obtain ⟨k₁, hlock, heq⟩ := Option.map_eq_some_iff.mp h
    obtain ⟨rfl, rfl⟩ := Prod.mk.inj heq
    refine ⟨glob_lockEx hglob hlock, ⟨?_, ?_⟩, guar_lockEx hlock⟩
    · obtain ⟨-, rfl⟩ := lockEx_eq_some.mp hlock
      exact hown
    · obtain ⟨-, rfl⟩ := lockEx_eq_some.mp hlock
      rfl
  | locked =>
    simp only [moveAppend] at h
    split at h
    · rename_i fd hlog
      obtain ⟨rfl, rfl⟩ := Prod.mk.inj (Option.some.inj h)
      exact ⟨hglob, ⟨hown, hok, hlog, List.nil_prefix⟩, guar_refl ..⟩
    · obtain ⟨rfl, rfl⟩ := Prod.mk.inj (Option.some.inj h)
      exact ⟨hglob, ⟨hown, hok⟩, guar_refl ..⟩
  | reading fd buf =>
    obtain ⟨hex, hlog, hbuf⟩ := hok
    simp only [moveAppend] at h
    split at h
    · obtain ⟨rfl, rfl⟩ := Prod.mk.inj (Option.some.inj h)
      exact ⟨hglob, ⟨hown, hex⟩, guar_refl ..⟩
    · obtain ⟨rfl, rfl⟩ := Prod.mk.inj (Option.some.inj h)
      exact ⟨hglob, ⟨hown, hex, hlog, read_prefix hbuf⟩, guar_refl ..⟩
  | loaded existing =>
    obtain ⟨rfl, rfl⟩ := Prod.mk.inj (Option.some.inj h)
    -- the temp file is empty now, whatever a dead process left in it
    obtain ⟨-, hex, howner, -⟩ := openTmp_frame k pid
    obtain ⟨htmp, hempty⟩ := openTmp_spec k pid
    refine ⟨glob_openTmp hglob, ⟨?_, ?_, htmp, ?_⟩, guar_openTmp hglob hown⟩
    · rw [howner]
      exact hown
    · rw [hex]
      exact hok
    · rw [hempty, List.nil_append]
  | writing fd existing rest =>
    obtain ⟨hex, htmp, hdata⟩ := hok
    simp only [moveAppend] at h
    split at h
    · rename_i hrest
      obtain ⟨rfl, rfl⟩ := Prod.mk.inj (Option.some.inj h)
      rw [hrest, List.append_nil] at hdata
      exact ⟨hglob, ⟨hown, hex, fd, htmp, hdata⟩, guar_refl ..⟩
    · obtain ⟨rfl, rfl⟩ := Prod.mk.inj (Option.some.inj h)
      refine ⟨glob_data hglob _, ⟨hown, hex, htmp, ?_⟩, guar_tmpData hglob hown htmp _⟩
      -- the bytes move from what is still to be written to the file
      show Function.update k.data fd _ fd ++ _ = _
      rw [Function.update_self, List.append_assoc, List.take_append_drop, hdata]
  | written existing =>
    obtain ⟨hex, -⟩ := hok
    obtain ⟨k₁, hrename, heq⟩ := Option.map_eq_some_iff.mp h
    obtain ⟨rfl, rfl⟩ := Prod.mk.inj heq
    refine ⟨glob_rename hglob hrename, ⟨?_, ?_⟩, guar_rename hglob hown hex hrename⟩
    · obtain ⟨fd, -, rfl⟩ := rename_eq_some.mp hrename
      exact hown
    · obtain ⟨fd, -, rfl⟩ := rename_eq_some.mp hrename
      exact hex
  | renamed =>
    obtain ⟨rfl, rfl⟩ := Prod.mk.inj (Option.some.inj h)
    exact ⟨glob_exit hglob, trivial, guar_exit hown⟩

/-- A query keeps its assertion. -/
theorem moveQuery_own {hash : UInt64} {n : Nat} {pc : QueryPc} {proc : Proc}
    (hglob : Glob k) (hown : k.owner pid = some p) (hok : QueryOk k p pc)
    (h : moveQuery k p pid hash n pc = some (k', proc)) :
    Glob k' ∧ Ok k' p proc ∧ Guar p k k' := by
  cases pc with
  | started =>
    obtain ⟨k₁, hlock, heq⟩ := Option.map_eq_some_iff.mp h
    obtain ⟨rfl, rfl⟩ := Prod.mk.inj heq
    -- from here on no rename can come between
    refine ⟨glob_lockSh hglob hlock, ⟨?_, ?_⟩, guar_lockSh hlock⟩
    · obtain ⟨-, rfl⟩ := lockSh_eq_some.mp hlock
      exact hown
    · obtain ⟨-, rfl⟩ := lockSh_eq_some.mp hlock
      exact List.mem_cons_self ..
  | locked =>
    simp only [moveQuery] at h
    split at h
    · rename_i fd hlog
      obtain ⟨rfl, rfl⟩ := Prod.mk.inj (Option.some.inj h)
      exact ⟨hglob, ⟨hown, hok, hlog, List.nil_prefix⟩, guar_refl ..⟩
    · obtain ⟨rfl, rfl⟩ := Prod.mk.inj (Option.some.inj h)
      exact ⟨hglob, ⟨hown, hok⟩, guar_refl ..⟩
  | reading fd buf =>
    -- the lock is still held, so the log is the one that was opened
    obtain ⟨hsh, hlog, hbuf⟩ := hok
    simp only [moveQuery] at h
    split at h
    · obtain ⟨rfl, rfl⟩ := Prod.mk.inj (Option.some.inj h)
      exact ⟨hglob, ⟨hown, hsh⟩, guar_refl ..⟩
    · split at h
      · obtain ⟨rfl, rfl⟩ := Prod.mk.inj (Option.some.inj h)
        exact ⟨hglob, ⟨hown, hsh⟩, guar_refl ..⟩
      · obtain ⟨rfl, rfl⟩ := Prod.mk.inj (Option.some.inj h)
        exact ⟨hglob, ⟨hown, hsh, hlog, read_prefix hbuf⟩, guar_refl ..⟩
  | answered found =>
    obtain ⟨rfl, rfl⟩ := Prod.mk.inj (Option.some.inj h)
    exact ⟨glob_exit hglob, trivial, guar_exit hown⟩

/-- A merge keeps its assertion. -/
theorem moveMerge_own {c : MergeCall} {n : Nat} {pc : MergePc} {proc : Proc}
    (hglob : Glob k) (hown : k.owner pid = some p) (hok : MergeOk k c pc)
    (h : moveMerge k p pid c n pc = some (k', proc)) :
    Glob k' ∧ Ok k' p proc ∧ Guar p k k' := by
  cases pc with
  | started =>
    simp only [moveMerge] at h
    split at h
    · obtain ⟨rfl, rfl⟩ := Prod.mk.inj (Option.some.inj h)
      exact ⟨glob_exit hglob, trivial, guar_exit hown⟩
    · obtain ⟨rfl, rfl⟩ := Prod.mk.inj (Option.some.inj h)
      exact ⟨hglob, ⟨hown, trivial⟩, guar_refl ..⟩
  | admitted ls =>
    simp only [moveMerge] at h
    split at h
    · rename_i fd hlog
      obtain ⟨rfl, rfl⟩ := Prod.mk.inj (Option.some.inj h)
      exact ⟨hglob, ⟨hown, hglob.log fd hlog, List.nil_prefix⟩, guar_refl ..⟩
    · obtain ⟨rfl, rfl⟩ := Prod.mk.inj (Option.some.inj h)
      exact ⟨hglob, ⟨hown, trivial⟩, guar_refl ..⟩
  | reading ls fd buf =>
    obtain ⟨hfd, hbuf⟩ := hok
    simp only [moveMerge] at h
    split at h
    · obtain ⟨rfl, rfl⟩ := Prod.mk.inj (Option.some.inj h)
      exact ⟨hglob, ⟨hown, trivial⟩, guar_refl ..⟩
    · obtain ⟨rfl, rfl⟩ := Prod.mk.inj (Option.some.inj h)
      exact ⟨hglob, ⟨hown, hfd, read_prefix hbuf⟩, guar_refl ..⟩
  | loaded ls log =>
    obtain ⟨rfl, rfl⟩ := Prod.mk.inj (Option.some.inj h)
    -- what is open is the log of this moment, created when there was none
    obtain ⟨hlog, -, howner, -⟩ := openLog_frame k
    refine ⟨glob_openLog hglob, ⟨?_, (glob_openLog hglob).log _ hlog, rfl, fun h hmem => ?_⟩,
      guar_openLog hglob⟩
    · rw [howner]
      exact hown
    · exact isHash_of_mem_importLoop hmem
  | appending fd hashes written rest =>
    obtain ⟨hfd, hout, hvalid⟩ := hok
    simp only [moveMerge] at h
    split at h
    · obtain ⟨rfl, rfl⟩ := Prod.mk.inj (Option.some.inj h)
      exact ⟨glob_exit hglob, trivial, guar_exit hown⟩
    · obtain ⟨rfl, rfl⟩ := Prod.mk.inj (Option.some.inj h)
      refine ⟨glob_data hglob _, ⟨hown, hfd, ?_, hvalid⟩, guar_writeLog hfd _⟩
      rw [List.append_assoc, List.take_append_drop, hout]

/-- **What a move is**: the start of a call, the next step of its task, or a kill. -/
theorem move_cases {proc proc' : Proc} {act : Act} (h : move k p proc act = some (k', proc')) :
    (∃ pid call, proc = .idle ∧ act = .start pid call ∧ k.owner pid = none ∧
      k' = { k with owner := Function.update k.owner pid (some p) } ∧
      proc' = .running pid call.task) ∨
    (∃ pid task n, proc = .running pid task ∧ act = .go n ∧
      moveTask k p pid n task = some (k', proc')) ∨
    (∃ pid task, proc = .running pid task ∧ act = .kill ∧ k' = k.exit p pid ∧
      proc' = .killed) := by
  cases proc with
  | idle =>
    cases act with
    | start pid call =>
      simp only [move] at h
      split at h
      · rename_i hfree
        obtain ⟨rfl, rfl⟩ := Prod.mk.inj (Option.some.inj h)
        exact Or.inl ⟨pid, call, rfl, rfl, hfree, rfl, rfl⟩
      · exact absurd h (by simp)
    | go n => exact absurd h (by simp [move])
    | kill => exact absurd h (by simp [move])
  | running pid task =>
    cases act with
    | start pid call => exact absurd h (by simp [move])
    | go n => exact Or.inr (Or.inl ⟨pid, task, n, rfl, rfl, h⟩)
    | kill =>
      obtain ⟨rfl, rfl⟩ := Prod.mk.inj (Option.some.inj h)
      exact Or.inr (Or.inr ⟨pid, task, rfl, rfl, rfl, rfl⟩)
  | ended o => exact absurd h (by cases act <;> simp [move])
  | killed => exact absurd h (by cases act <;> simp [move])

/-- **Every move keeps its assertion, and its guarantee to the others.** -/
theorem move_own {proc proc' : Proc} {a : Act} (hglob : Glob k) (hok : Ok k p proc)
    (h : move k p proc a = some (k', proc')) : Glob k' ∧ Ok k' p proc' ∧ Guar p k k' := by
  rcases move_cases h with ⟨pid, call, rfl, rfl, hfree, rfl, rfl⟩ |
    ⟨pid, task, n, rfl, rfl, hmove⟩ | ⟨pid, task, rfl, rfl, rfl, rfl⟩
  · refine ⟨glob_start hglob, ⟨Function.update_self .., ?_⟩, guar_start hfree⟩
    -- the first stage of a call asserts nothing
    cases call with
    | append a => trivial
    | query hash => trivial
    | merge c => trivial
  · obtain ⟨hown, htask⟩ := hok
    cases task with
    | append a pc => exact moveAppend_own hglob hown htask hmove
    | query hash pc => exact moveQuery_own hglob hown htask hmove
    | merge c pc => exact moveMerge_own hglob hown htask hmove
  · -- a kill drops the lock and the process id, and leaves the files
    exact ⟨glob_exit hglob, trivial, guar_exit hok.1⟩

/-- **Every move is sound**: it keeps what is global, the mover's own state and the guarantee. -/
theorem sound : Sound move Glob Ok Guar where
  own hglob hok h := move_own hglob hok h
  stable hglob hne hguar h := ok_stable hglob hne hguar h

end Assertions

/-! ## Runs -/

/-- The assertions of a state. -/
def Base (s : Sys) : Prop := Holds Glob Ok s

/-- At the start all of it holds, -/
theorem base_init (log : Option Text) : Base (init log) := by
  refine ⟨⟨fun h => absurd rfl h, fun fd h => ⟨?_, fun pid htmp => ?_⟩, fun pid fd htmp => ?_,
    fun pid pid' fd htmp => ?_⟩, fun p => trivial⟩
  · obtain ⟨t, -, rfl⟩ := Option.map_eq_some_iff.mp h
    exact Nat.zero_lt_one
  · exact absurd htmp (by simp [init])
  · exact absurd htmp (by simp [init])
  · exact absurd htmp (by simp [init])

/-- and every step keeps it. -/
theorem base_step {s s' : Sys} (e : Event) (hbase : Base s) (h : step s e = some s') : Base s' :=
  sound.step e hbase h

end Swayam.LogSystem
