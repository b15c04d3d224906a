import Swayam.Lib.Interleaving
import Swayam.HiveMind
import Swayam.Pipeline.Runner

/-!
# SWAYAM — a workspace ledger among processes

`QuarantineRegistry` and `HiveMind` keep a ledger each, with the same calls: one
appends an entry under `LOCK_EX`, with one `write` that may move any part of it; the
other reads the whole ledger under `LOCK_SH`, in chunks of at most 4096 bytes. Here
the calls are cut into the system calls that other processes can see.

A process makes one call. Every system call may fail, and the process may be killed
between any two of them; the kernel then drops its lock.

* `Moved` — what a step does;
* `locks_step` — a writer is alone, and readers are among themselves;
* `ledger_eq_of_reads` — while a reader holds its lock, the ledger stays as it is.
-/

namespace Swayam.Ledger

open Interleaving Machine

/-! ## The kernel -/

structure Kernel where
  ledger : Option Text
  ex     : Option Nat      -- the process that holds `LOCK_EX`
  sh     : List Nat        -- the processes that hold `LOCK_SH`
  deriving DecidableEq, Repr

/-- What a reader would read. -/
def Kernel.text (k : Kernel) : Text := k.ledger.getD []

/-- The lock of the process is let go. -/
def Kernel.unlock (k : Kernel) (p : Nat) : Kernel :=
  { k with ex := if k.ex = some p then none else k.ex, sh := k.sh.filter (· ≠ p) }

/-! ## The calls -/

inductive Call
  | append (entry : Text)      -- `ban_mutation`, `register_mutation_hash`
  | query                      -- `is_banned`, `is_assimilated`
  deriving DecidableEq, Repr

/-- Where a process stands, with the results of its system calls so far. -/
inductive Pc
  | idle
  | opening (call : Call)
  | opened (call : Call)
  | locked (entry : Text)                            -- with `LOCK_EX`
  | written (entry : Text) (io : LedgerWriteIO)      -- with `LOCK_EX`
  | reading (reads : List (Option Text))             -- with `LOCK_SH`
  | appended (entry : Text) (io : LedgerWriteIO)     -- the call is over
  | queried (io : LedgerIO)                          -- the call is over
  | killed
  deriving DecidableEq, Repr

/-- The choices of the environment: a process starts a call, makes its next system call, which
succeeds or not and moves so many bytes, or is killed. -/
inductive Act
  | start (call : Call)
  | go (ok : Bool) (n : Nat)
  | kill
  deriving DecidableEq, Repr

/-- The bytes of the reads so far. -/
def joined (reads : List (Option Text)) : Text := reads.flatMap (·.getD [])

/-- The next `read`: empty at the end, else between 1 and 4096 bytes. -/
def Kernel.read (k : Kernel) (reads : List (Option Text)) (n : Nat) : Text :=
  (k.text.drop (joined reads).length).take (min (n + 1) 4096)

/-- What of the entry reaches the ledger. -/
def bytesOf (io : LedgerWriteIO) (entry : Text) : Text :=
  match io.write with
  | some n => entry.take n
  | none => entry

/-- The next step of a process that makes a call. -/
def go (k : Kernel) (p : Nat) (ok : Bool) (n : Nat) : Pc → Option (Kernel × Pc)
  | .opening (.append entry) =>
    -- `O_CREAT`
    if ok then some ({ k with ledger := some k.text }, .opened (.append entry))
    else some (k, .appended entry ⟨false, false, none⟩)
  | .opening .query =>
    if ok then if k.ledger.isSome then some (k, .opened .query) else none
    else some (k, .queried ⟨false, false, []⟩)
  | .opened (.append entry) =>
    if ok then
      if k.ex = none ∧ k.sh = [] then some ({ k with ex := some p }, .locked entry) else none
    else some (k, .appended entry ⟨true, false, none⟩)
  | .opened .query =>
    if ok then if k.ex = none then some ({ k with sh := p :: k.sh }, .reading []) else none
    else some (k, .queried ⟨true, false, []⟩)
  | .locked entry =>
    let io : LedgerWriteIO := ⟨true, true, if ok then none else some n⟩
    some ({ k with ledger := some (k.text ++ bytesOf io entry) }, .written entry io)
  | .written entry io => some (k.unlock p, .appended entry io)
  | .reading reads =>
    if ok = false then some (k.unlock p, .queried ⟨true, true, reads ++ [none]⟩)
    else
      match k.read reads n with
      | [] => some (k.unlock p, .queried ⟨true, true, reads ++ [some []]⟩)
      | chunk => some (k, .reading (reads ++ [some chunk]))
  | _ => none

def move (k : Kernel) (p : Nat) : Pc → Act → Option (Kernel × Pc)
  | .idle, .start call => some (k, .opening call)
  | pc, .go ok n => go k p ok n pc
  | .idle, .kill => none
  | .appended _ _, .kill => none
  | .queried _, .kill => none
  | .killed, .kill => none
  -- a process that is killed loses its lock
  | _, .kill => some (k.unlock p, .killed)
  | _, .start _ => none

abbrev Sys := Interleaving.Config Kernel Nat Pc

abbrev Event := Nat × Act

def step : Sys → Event → Option Sys := Interleaving.step move

/-- No process has started, and this is in the ledger. -/
def start (ledger : Option Text) : Sys := ⟨⟨ledger, none, []⟩, fun _ => .idle⟩

/-! ## What a step does -/

/-- The process holds `LOCK_EX`. -/
def Pc.Writes : Pc → Prop
  | .locked _ => True
  | .written _ _ => True
  | _ => False

/-- The process holds `LOCK_SH`. -/
def Pc.Reads : Pc → Prop
  | .reading _ => True
  | _ => False

/-- The call is over. -/
def Pc.Over : Pc → Prop
  | .appended _ _ => True
  | .queried _ => True
  | .killed => True
  | _ => False

/-- The process has written these bytes. -/
def Pc.wrote : Pc → Option Text
  | .written entry io => if io.opens && io.flock then some (bytesOf io entry) else none
  | .appended entry io => if io.opens && io.flock then some (bytesOf io entry) else none
  | _ => none

/-- What a query reports of its failures. -/
def Pc.Fails : Pc → Prop
  | .queried io => io.opens = false ∨ io.flock = false ∨ none ∈ io.reads
  | _ => True

/-- What a step of process `p` does to the kernel and to itself. -/
inductive Moved (k : Kernel) (p : Nat) : Pc → Kernel → Pc → Prop
  | silent (pc pc' : Pc) (hlive : ¬ pc.Over) (hfree : ¬ pc.Writes ∧ ¬ pc.Reads)
      (hfree' : ¬ pc'.Writes ∧ ¬ pc'.Reads) (hfails : pc'.Fails)
      (hopened : pc' = .opened .query → k.ledger ≠ none) (hwrote : pc'.wrote = none) :
      Moved k p pc k pc'
  | created (entry : Text) :
      Moved k p (.opening (.append entry)) { k with ledger := some k.text }
        (.opened (.append entry))
  | lockedEx (entry : Text) (hfree : k.ex = none ∧ k.sh = []) :
      Moved k p (.opened (.append entry)) { k with ex := some p } (.locked entry)
  | lockedSh (hopen : k.ex = none) :
      Moved k p (.opened .query) { k with sh := p :: k.sh } (.reading [])
  | wrote (entry : Text) (io : LedgerWriteIO) (hio : io.opens = true ∧ io.flock = true) :
      Moved k p (.locked entry) { k with ledger := some (k.text ++ bytesOf io entry) }
        (.written entry io)
  | read (reads : List (Option Text)) (n : Nat) (hchunk : k.read reads n ≠ []) :
      Moved k p (.reading reads) k (.reading (reads ++ [some (k.read reads n)]))
  | finished (reads : List (Option Text)) (n : Nat) (hend : k.read reads n = []) :
      Moved k p (.reading reads) (k.unlock p) (.queried ⟨true, true, reads ++ [some []]⟩)
  | unlocked (pc pc' : Pc) (hlive : ¬ pc.Over) (hover : pc'.Over) (hfails : pc'.Fails)
      (hwrote : pc'.wrote = pc.wrote ∨ pc' = .killed) : Moved k p pc (k.unlock p) pc'

section Moves

variable {k k' : Kernel} {p : Nat} {pc pc' : Pc}

/-- A call's own step is one of the moves. -/
theorem go_moved {ok : Bool} {n : Nat} (h : go k p ok n pc = some (k', pc')) :
    Moved k p pc k' pc' := by
  cases pc with
  | opening call =>
    cases call with
    | append entry =>
      simp only [go] at h
      split at h
      · obtain ⟨rfl, rfl⟩ := Prod.mk.inj (Option.some.inj h)
        exact .created entry
      · obtain ⟨rfl, rfl⟩ := Prod.mk.inj (Option.some.inj h)
        exact .silent _ _ id ⟨id, id⟩ ⟨id, id⟩ trivial (fun heq => absurd heq (by simp)) rfl
    | query =>
      simp only [go] at h
      split at h
      · split at h
        · -- a reader opens a ledger that is there
          rename_i hsome
          obtain ⟨rfl, rfl⟩ := Prod.mk.inj (Option.some.inj h)
          exact .silent _ _ id ⟨id, id⟩ ⟨id, id⟩ trivial
            (fun _ => Option.isSome_iff_ne_none.mp hsome) rfl
        · exact absurd h (by simp)
      · obtain ⟨rfl, rfl⟩ := Prod.mk.inj (Option.some.inj h)
        exact .silent _ _ id ⟨id, id⟩ ⟨id, id⟩ (Or.inl rfl) (fun heq => absurd heq (by simp)) rfl
  | opened call =>
    cases call with
    | append entry =>
      simp only [go] at h
      split at h
      · split at h
        · -- the exclusive lock waits for everybody
          rename_i hfree
          obtain ⟨rfl, rfl⟩ := Prod.mk.inj (Option.some.inj h)
          exact .lockedEx entry hfree
        · exact absurd h (by simp)
      · obtain ⟨rfl, rfl⟩ := Prod.mk.inj (Option.some.inj h)
        exact .silent _ _ id ⟨id, id⟩ ⟨id, id⟩ trivial (fun heq => absurd heq (by simp)) rfl
    | query =>
      simp only [go] at h
      split at h
      · split at h
        · -- the shared one for writers only
          rename_i hopen
          obtain ⟨rfl, rfl⟩ := Prod.mk.inj (Option.some.inj h)
          exact .lockedSh hopen
        · exact absurd h (by simp)
      · obtain ⟨rfl, rfl⟩ := Prod.mk.inj (Option.some.inj h)
        exact .silent _ _ id ⟨id, id⟩ ⟨id, id⟩ (Or.inr (Or.inl rfl))
          (fun heq => absurd heq (by simp)) rfl
  | locked entry =>
    obtain ⟨rfl, rfl⟩ := Prod.mk.inj (Option.some.inj h)
    exact .wrote entry _ ⟨rfl, rfl⟩
  | written entry io =>
    obtain ⟨rfl, rfl⟩ := Prod.mk.inj (Option.some.inj h)
    exact .unlocked _ _ id trivial trivial (Or.inl rfl)
  | reading reads =>
    simp only [go] at h
    split at h
    · obtain ⟨rfl, rfl⟩ := Prod.mk.inj (Option.some.inj h)
      exact .unlocked _ _ id trivial (Or.inr (Or.inr (by simp))) (Or.inl rfl)
    · split at h
      · -- an empty read ends the query
        rename_i hend
        obtain ⟨rfl, rfl⟩ := Prod.mk.inj (Option.some.inj h)
        exact .finished reads n hend
      · rename_i hchunk
        obtain ⟨rfl, rfl⟩ := Prod.mk.inj (Option.some.inj h)
        exact .read reads n hchunk
  | _ => exact absurd h (by simp [go])

/-- So is every act. -/
theorem move_moved {act : Act} (h : move k p pc act = some (k', pc')) : Moved k p pc k' pc' := by
  cases act with
  | start call =>
    cases pc with
    | idle =>
      obtain ⟨rfl, rfl⟩ := Prod.mk.inj (Option.some.inj h)
      exact .silent _ _ id ⟨id, id⟩ ⟨id, id⟩ trivial (fun heq => absurd heq (by simp)) rfl
    | _ => exact absurd h (by simp [move])
  | go ok n =>
    have hgo : go k p ok n pc = some (k', pc') := by
      rw [← h]
      cases pc <;> rfl
    exact go_moved hgo
  | kill =>
    have hkilled : ¬ pc.Over ∧ k' = k.unlock p ∧ pc' = .killed := by
      cases pc with
      | idle => exact absurd h (by simp [move])
      | appended entry io => exact absurd h (by simp [move])
      | queried io => exact absurd h (by simp [move])
      | killed => exact absurd h (by simp [move])
      | _ =>
        obtain ⟨rfl, rfl⟩ := Prod.mk.inj (Option.some.inj h)
        exact ⟨id, rfl, rfl⟩
    obtain ⟨hlive, rfl, rfl⟩ := hkilled
    exact .unlocked _ _ hlive trivial trivial (Or.inr rfl)

/-- **The ledger only grows.** -/
theorem Moved.grows (h : Moved k p pc k' pc') : k.text <+: k'.text := by
  cases h with
  | wrote entry io => exact List.prefix_append _ _
  | _ => exact List.prefix_rfl

/-- And it stays unless a process creates it, or writes. -/
theorem Moved.ledger_or (h : Moved k p pc k' pc') :
    k'.ledger = k.ledger ∨ k'.ledger = some k.text ∨ pc.Writes := by
  cases h with
  | created entry => exact Or.inr (Or.inl rfl)
  | wrote entry io => exact Or.inr (Or.inr trivial)
  | _ => exact Or.inl rfl

/-- What the mover does to the locks of the others. -/
theorem Moved.ex_of_ne (h : Moved k p pc k' pc') {q : Nat} (hne : q ≠ p) (hex : k.ex = some q) :
    k'.ex = some q := by
  cases h with
  | lockedEx entry hfree => exact absurd (hfree.1.symm.trans hex) (by simp)
  | finished reads n =>
    show (if k.ex = some p then none else k.ex) = some q
    rw [hex, if_neg (by simpa using hne)]
  | unlocked =>
    show (if k.ex = some p then none else k.ex) = some q
    rw [hex, if_neg (by simpa using hne)]
  | _ => exact hex

/-- Nobody takes another's shared lock. -/
theorem Moved.sh_of_ne (h : Moved k p pc k' pc') {q : Nat} (hne : q ≠ p) (hsh : q ∈ k.sh) :
    q ∈ k'.sh := by
  cases h with
  | lockedSh => exact List.mem_cons_of_mem p hsh
  | finished reads n => exact List.mem_filter.mpr ⟨hsh, by simpa using hne⟩
  | unlocked => exact List.mem_filter.mpr ⟨hsh, by simpa using hne⟩
  | _ => exact hsh

/-- The ledger is never removed. -/
theorem Moved.ledger_ne_none (h : Moved k p pc k' pc') (hledger : k.ledger ≠ none) :
    k'.ledger ≠ none := by
  cases h with
  | created entry => exact Option.some_ne_none _
  | wrote entry io => exact Option.some_ne_none _
  | _ => exact hledger

end Moves

/-! ## The locks -/

/-- The process has the ledger open to read it. -/
def Pc.Sees (pc : Pc) : Prop := pc = .opened .query ∨ pc.Reads

/-- A writer is alone; who writes or reads holds the lock for it. -/
structure Locks (s : Sys) : Prop where
  ex    : ∀ p, (s.proc p).Writes → s.shared.ex = some p
  sh    : ∀ p, (s.proc p).Reads → p ∈ s.shared.sh
  alone : s.shared.ex ≠ none → s.shared.sh = []
  sees  : ∀ p, (s.proc p).Sees → s.shared.ledger ≠ none

/-- At the start nobody holds a lock. -/
theorem locks_start (ledger : Option Text) : Locks (start ledger) where
  ex _ h := h.elim
  sh _ h := h.elim
  alone h := absurd rfl h
  sees _ h := by
    rcases h with h | h
    · exact absurd h (by simp [start])
    · exact h.elim

/-- Letting a lock go keeps an exclusive one alone. -/
theorem Locks.alone_unlock {s : Sys} (h : Locks s) {p : Nat}
    (hex : (s.shared.unlock p).ex ≠ none) : (s.shared.unlock p).sh = [] := by
  have hheld : s.shared.ex ≠ none := by
    intro hfree
    rw [Kernel.unlock, hfree] at hex
    exact hex (by simp)
  rw [Kernel.unlock, h.alone hheld]
  rfl

/-- **Step lemma.** -/
theorem locks_step {s s' : Sys} {e : Event} (h : Locks s) (hs : step s e = some s') :
    Locks s' := by
  obtain ⟨p, act⟩ := e
  obtain ⟨k', pc', hmove, rfl⟩ := step_eq_some.mp hs
  have hmoved := move_moved hmove
  generalize hpc : s.proc p = pc at hmoved
  -- what held of the mover before its move
  have hex : pc.Writes → s.shared.ex = some p := fun hw => h.ex p (hpc ▸ hw)
  have hsees : pc.Sees → s.shared.ledger ≠ none := fun hw => h.sees p (hpc ▸ hw)
  refine ⟨forall_update (P := fun q (pc : Pc) => pc.Writes → k'.ex = some q) ?_ fun q hne hw =>
      hmoved.ex_of_ne hne (h.ex q hw),
    forall_update (P := fun q (pc : Pc) => pc.Reads → q ∈ k'.sh) ?_ fun q hne hr =>
      hmoved.sh_of_ne hne (h.sh q hr), ?_,
    forall_update (P := fun _ (pc : Pc) => pc.Sees → k'.ledger ≠ none) ?_ fun q _ hw =>
      hmoved.ledger_ne_none (h.sees q hw)⟩
  · -- the mover writes only with the lock it has just got or had
    intro hw
    cases hmoved with
    | silent _ _ _ _ hfree => exact absurd hw hfree.1
    | created => exact hw.elim
    | lockedEx => rfl
    | lockedSh => exact hw.elim
    | wrote => exact hex trivial
    | read => exact hw.elim
    | finished => exact hw.elim
    | unlocked _ _ _ hover =>
      cases pc' <;> first | exact hw.elim | exact hover.elim
  · -- the same for readers
    intro hr
    cases hmoved with
    | silent _ _ _ _ hfree => exact absurd hr hfree.2
    | created => exact hr.elim
    | lockedEx => exact hr.elim
    | lockedSh => exact List.mem_cons_self
    | wrote => exact hr.elim
    | read => exact h.sh p (hpc ▸ trivial)
    | finished => exact hr.elim
    | unlocked _ _ _ hover =>
      cases pc' <;> first | exact hr.elim | exact hover.elim
  · -- under the exclusive lock nobody has a shared one
    intro hnone
    cases hmoved with
    | lockedEx entry hfree => exact hfree.2
    | lockedSh hopen => exact absurd hopen hnone
    | finished => exact h.alone_unlock hnone
    | unlocked => exact h.alone_unlock hnone
    | _ => exact h.alone hnone
  · intro hw
    cases hmoved with
    | silent _ _ _ _ hfree' _ hopened =>
      rcases hw with heq | hr
      · exact hopened heq
      · exact absurd hr hfree'.2
    | lockedSh => exact hsees (Or.inl rfl)
    | read => exact hsees (Or.inr trivial)
    | created => exact Option.some_ne_none _
    | wrote => exact Option.some_ne_none _
    | lockedEx =>
      rcases hw with heq | hr
      · exact absurd heq (by simp)
      · exact hr.elim
    | finished =>
      rcases hw with heq | hr
      · exact absurd heq (by simp)
      · exact hr.elim
    | unlocked _ _ _ hover =>
      rcases hw with heq | hr
      · rw [heq] at hover
        exact hover.elim
      · cases pc' <;> first | exact hr.elim | exact hover.elim

/-- **While a reader holds its lock, the ledger stays as it is.** -/
theorem ledger_eq_of_reads {s s' : Sys} {e : Event} (h : Locks s) (hs : step s e = some s') {q : Nat}
    (hq : (s.proc q).Reads) : s'.shared.ledger = s.shared.ledger := by
  obtain ⟨p, act⟩ := e
  obtain ⟨k', pc', hmove, rfl⟩ := step_eq_some.mp hs
  rcases (move_moved hmove).ledger_or with hsame | hcreated | hwrites
  · exact hsame
  · obtain ⟨t, ht⟩ := Option.ne_none_iff_exists'.mp (h.sees q (Or.inr hq))
    rw [show k'.ledger = some s.shared.text from hcreated, Kernel.text, ht]
    rfl
  · -- no writer next to a reader
    have hex := h.ex p hwrites
    have halone := h.alone (by rw [hex]; simp)
    have hsh := h.sh q hq
    rw [halone] at hsh
    exact absurd hsh List.not_mem_nil

end Swayam.Ledger
