import Swayam.Lib.Interleaving
import Swayam.Core.Append

/-!
# SWAYAM — the quarantine log among processes

`atomic_quarantine_append`, `is_quarantined` and
`merge_peer_signatures_guarded`, cut into the system calls that other
processes can see, over one kernel: the inodes, the names of the log and of
the temp files, the `flock` on `<log>.lock`, and the table of process ids.

A process makes one call. It may be killed between any two of its steps; the
kernel then drops its lock and its process id, and its temp file stays. A
process id is free again once its process has ended, and a temp file is named
after the process id, so a later process may find the file of a dead one.

No system call reports an error here. Reads and writes move any number of
bytes, the scheduler's choice.
-/

namespace Swayam.LogSystem

/-! ## The kernel -/

/-- The arguments of an append, and the time that it reads. -/
structure AppendArgs where
  hash        : UInt64
  signalNum   : Int
  sourceLabel : Text
  now         : Int
  deriving DecidableEq, Repr

/-- `entry` -/
def AppendArgs.entry (a : AppendArgs) : Text :=
  quarantineEntry a.hash a.signalNum a.now a.sourceLabel

/-- What the processes share. -/
structure Kernel where
  data    : Nat → Text           -- the content of each inode
  next    : Nat                  -- the inodes from here on are unused
  log     : Option Nat           -- the inode that `log_path` names
  tmp     : Nat → Option Nat     -- the inode that `<log_path>.tmp.<pid>` names
  ex      : Option Nat           -- the process that holds `LOCK_EX`
  sh      : List Nat             -- the processes that hold `LOCK_SH`
  owner   : Nat → Option Nat     -- the process that a process id belongs to
  renames : List (Nat × AppendArgs)   -- the renames that have happened, in their order

/-- The text of the log, when the path names one. -/
def Kernel.logText (k : Kernel) : Option Text := k.log.map k.data

/-- What a reader would read. -/
def Kernel.liveText (k : Kernel) : Text := k.logText.getD []

/-- One `read` of at most `n + 1` bytes, behind what has been read: empty at the end. -/
def Kernel.read (k : Kernel) (fd : Nat) (buf : Text) (n : Nat) : Text :=
  ((k.data fd).drop buf.length).take (n + 1)

/-- One `write` at the end of an inode: the temp file's only writer has its offset
there, and a merge opens the log with `O_APPEND`. -/
def Kernel.write (k : Kernel) (fd : Nat) (bytes : Text) : Kernel :=
  { k with data := Function.update k.data fd (k.data fd ++ bytes) }

/-- A new, empty inode. -/
def Kernel.create (k : Kernel) : Kernel :=
  { k with data := Function.update k.data k.next [], next := k.next + 1 }

/-- `std::ofstream tmp(tmp_path, trunc)`: empties the file with that name, or creates it. -/
def Kernel.openTmp (k : Kernel) (pid : Nat) : Kernel × Nat :=
  match k.tmp pid with
  | some fd => ({ k with data := Function.update k.data fd [] }, fd)
  | none => ({ k.create with tmp := Function.update k.tmp pid (some k.next) }, k.next)

/-- `std::ofstream out(local_quarantine, app)`: opens the log, or creates it. -/
def Kernel.openLog (k : Kernel) : Kernel × Nat :=
  match k.log with
  | some fd => (k, fd)
  | none => ({ k.create with log := some k.next }, k.next)

/-- `rename(tmp_path, log_path)` by the append `a` of process `p`. -/
def Kernel.rename (k : Kernel) (p pid : Nat) (a : AppendArgs) : Option Kernel :=
  (k.tmp pid).map fun fd =>
    { k with log := some fd, tmp := Function.update k.tmp pid none,
             renames := k.renames ++ [(p, a)] }

/-- `flock(LOCK_EX)`, when it does not block. -/
def Kernel.lockEx (k : Kernel) (p : Nat) : Option Kernel :=
  if k.ex = none ∧ k.sh = [] then some { k with ex := some p } else none

/-- `flock(LOCK_SH)`, when it does not block. -/
def Kernel.lockSh (k : Kernel) (p : Nat) : Option Kernel :=
  if k.ex = none then some { k with sh := p :: k.sh } else none

/-- The process ends, or is killed: its lock and its process id are free. -/
def Kernel.exit (k : Kernel) (p pid : Nat) : Kernel :=
  { k with ex := if k.ex = some p then none else k.ex,
           sh := k.sh.filter (· ≠ p),
           owner := Function.update k.owner pid none }

/-! ## The calls -/

/-- Where an append stands, with its local variables. -/
inductive AppendPc
  | started
  | locked
  | reading (fd : Nat) (buf : Text)
  | loaded (existing : Text)
  | writing (fd : Nat) (existing rest : Text)   -- `rest` is still to be written
  | written (existing : Text)
  | renamed
  deriving DecidableEq, Repr

inductive QueryPc
  | started
  | locked
  | reading (fd : Nat) (buf : Text)
  | answered (found : Bool)
  deriving DecidableEq, Repr

inductive MergePc
  | started
  | admitted (ls : List Text)                     -- past the gates, peer file read
  | reading (ls : List Text) (fd : Nat) (buf : Text)
  | loaded (ls : List Text) (log : Text)          -- `existing` is loaded
  | appending (fd : Nat) (hashes : List Text) (written rest : Text)
  deriving DecidableEq, Repr

/-- A call that a process makes. -/
inductive Call
  | append (a : AppendArgs)
  | query (hash : UInt64)
  | merge (c : MergeCall)
  deriving DecidableEq, Repr

inductive Task
  | append (a : AppendArgs) (pc : AppendPc)
  | query (hash : UInt64) (pc : QueryPc)
  | merge (c : MergeCall) (pc : MergePc)
  deriving DecidableEq, Repr

/-- What a call has done when it is over. -/
inductive Outcome
  | appended (a : AppendArgs)
  | answered (hash : UInt64) (found : Bool)
  | merged (c : MergeCall) (hashes : List Text)
  deriving DecidableEq, Repr

inductive Proc
  | idle
  | running (pid : Nat) (task : Task)
  | ended (o : Outcome)
  | killed
  deriving DecidableEq, Repr

def Call.task : Call → Task
  | .append a => .append a .started
  | .query hash => .query hash .started
  | .merge c => .merge c .started

/-- The scheduler's choices for a process: it starts a call under a process id, makes
its next step (`n` bounds the bytes of a read or a write), or is killed. -/
inductive Act
  | start (pid : Nat) (call : Call)
  | go (n : Nat)
  | kill
  deriving DecidableEq, Repr

/-- The lines of a text that are terminated. -/
def closedPart (buf : Text) : Text :=
  buf.take (buf.length - (Delimited.lastLine newline buf).length)

/-- The next step of `atomic_quarantine_append`. The `fsync` between the last write and
the rename changes nothing that a process can see. -/
def moveAppend (k : Kernel) (p pid : Nat) (a : AppendArgs) (n : Nat) :
    AppendPc → Option (Kernel × Proc)
  | .started => (k.lockEx p).map fun k' => (k', .running pid (.append a .locked))
  | .locked =>
    -- the lock is held, the log is read from its start
    match k.log with
    | some fd => some (k, .running pid (.append a (.reading fd [])))
    | none => some (k, .running pid (.append a (.loaded [])))
  | .reading fd buf =>
    match k.read fd buf n with
    | [] => some (k, .running pid (.append a (.loaded buf)))
    | chunk => some (k, .running pid (.append a (.reading fd (buf ++ chunk))))
  | .loaded existing =>
    -- the temporary file is this process's own
    let opened := k.openTmp pid
    some (opened.1,
      .running pid (.append a (.writing opened.2 existing (withHeader existing ++ a.entry))))
  | .writing fd existing rest =>
    if rest = [] then some (k, .running pid (.append a (.written existing)))
    else some (k.write fd (rest.take (n + 1)),
      .running pid (.append a (.writing fd existing (rest.drop (n + 1)))))
  | .written _ => (k.rename p pid a).map fun k' => (k', .running pid (.append a .renamed))
  | .renamed => some (k.exit p pid, .ended (.appended a))

/-- The next step of `is_quarantined`. The loop over the lines stops at the first line
with the hash, so it reads on only when the lines read so far have none. -/
def moveQuery (k : Kernel) (p pid : Nat) (hash : UInt64) (n : Nat) :
    QueryPc → Option (Kernel × Proc)
  | .started => (k.lockSh p).map fun k' => (k', .running pid (.query hash .locked))
  | .locked =>
    match k.log with
    | some fd => some (k, .running pid (.query hash (.reading fd [])))
    | none => some (k, .running pid (.query hash (.answered false)))
  | .reading fd buf =>
    -- only whole lines are looked at before the end of the file
    if isRecorded (closedPart buf) hash then
      some (k, .running pid (.query hash (.answered true)))
    else match k.read fd buf n with
      | [] => some (k, .running pid (.query hash (.answered (isRecorded buf hash))))
      | chunk => some (k, .running pid (.query hash (.reading fd (buf ++ chunk))))
  | .answered found => some (k.exit p pid, .ended (.answered hash found))

/-- The next step of `merge_peer_signatures_guarded`. It takes no lock. -/
def moveMerge (k : Kernel) (p pid : Nat) (c : MergeCall) (n : Nat) :
    MergePc → Option (Kernel × Proc)
  | .started =>
    match c.admitted with
    | none => some (k.exit p pid, .ended (.merged c []))
    | some ls => some (k, .running pid (.merge c (.admitted ls)))
  | .admitted ls =>
    match k.log with
    | some fd => some (k, .running pid (.merge c (.reading ls fd [])))
    | none => some (k, .running pid (.merge c (.loaded ls [])))
  | .reading ls fd buf =>
    match k.read fd buf n with
    | [] => some (k, .running pid (.merge c (.loaded ls buf)))
    | chunk => some (k, .running pid (.merge c (.reading ls fd (buf ++ chunk))))
  | .loaded ls log =>
    -- opening for append makes the log where there is none
    let opened := k.openLog
    let hashes := c.imports log ls
    some (opened.1, .running pid (.merge c (.appending opened.2 hashes [] (c.output hashes))))
  | .appending fd hashes written rest =>
    if rest = [] then some (k.exit p pid, .ended (.merged c hashes))
    -- any part of what is left may be written at once
    else some (k.write fd (rest.take (n + 1)),
      .running pid (.merge c
        (.appending fd hashes (written ++ rest.take (n + 1)) (rest.drop (n + 1)))))

def moveTask (k : Kernel) (p pid n : Nat) : Task → Option (Kernel × Proc)
  | .append a pc => moveAppend k p pid a n pc
  | .query hash pc => moveQuery k p pid hash n pc
  | .merge c pc => moveMerge k p pid c n pc

/-- A move of process `p`. -/
def move (k : Kernel) (p : Nat) : Proc → Act → Option (Kernel × Proc)
  | .idle, .start pid call =>
    if k.owner pid = none then
      some ({ k with owner := Function.update k.owner pid (some p) }, .running pid call.task)
    else none
  | .running pid task, .go n => moveTask k p pid n task
  | .running pid _, .kill => some (k.exit p pid, .killed)
  | _, _ => none

/-! ## The system -/

abbrev Sys := Interleaving.Config Kernel Nat Proc

abbrev Event := Nat × Act

def step : Sys → Event → Option Sys := Interleaving.step move

/-- Nothing has started; the log is absent, or is inode 0 with this text. -/
def init (log : Option Text) : Sys where
  shared :=
    { data := fun _ => log.getD []
      next := 1
      log := log.map fun _ => 0
      tmp := fun _ => none
      ex := none
      sh := []
      owner := fun _ => none
      renames := [] }
  proc := fun _ => .idle

end Swayam.LogSystem
