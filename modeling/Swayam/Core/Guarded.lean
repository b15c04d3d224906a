import Mathlib.Logic.Function.Basic
import Swayam.Lib.Machine
import Swayam.Core.Append

/-!
# SWAYAM — `run_guarded_mutation` in many processes

A call checks the log, then waits for the lease, then forks. The check is not
repeated once the lease is held, so the lease orders the forks but not the
checks: a call that was cleared before another call's record is not stopped
by it.

* `forksFresh_of_noStaleClearance` — in a run in which no record catches a
  cleared call with its own content, every fork is of a content that the log
  does not report; and wherever a record does catch one, four further steps
  lead to a fork of a recorded content.
* `staleClearance_iff` — on a log whose last line is complete, a record catches
  a cleared call exactly when the two contents have the same hash.
-/

namespace Swayam.Guarded

open Machine Delimited

/-! ## The machine -/

/-- The arguments of a call: the path of the mutation source, and its content. -/
structure MutationFile where
  path    : Text
  content : Text
  deriving DecidableEq, Repr

/-- What `waitpid` reports of the child. -/
inductive WaitStatus
  | exited (code : Nat)
  | signaled (signalNum : Nat)
  deriving DecidableEq, Repr

/-- Where a call of `run_guarded_mutation` stands. -/
inductive CallPc
  | started
  | cleared                        -- `is_quarantined` answered false
  | leased                         -- the `MutationLease` is constructed
  | forked
  | reaped (status : WaitStatus)
  | recorded                       -- `quarantine` has returned
  | returned (result : Bool)
  deriving DecidableEq, Repr

/-- The log, the call that holds the cross-process lock of the lease, and the calls.
Each call is one process. -/
structure State where
  log    : Option Text
  holder : Option Nat
  pc     : Nat → CallPc

/-- The call `p` moves to `pc`. -/
def State.setPc (s : State) (p : Nat) (pc : CallPc) : State :=
  { s with pc := Function.update s.pc p pc }

@[simp] theorem State.setPc_log (s : State) (p : Nat) (pc : CallPc) :
    (s.setPc p pc).log = s.log := rfl

@[simp] theorem State.setPc_holder (s : State) (p : Nat) (pc : CallPc) :
    (s.setPc p pc).holder = s.holder := rfl

@[simp] theorem State.setPc_self (s : State) (p : Nat) (pc : CallPc) :
    (s.setPc p pc).pc p = pc := by
  simp [State.setPc]

theorem State.setPc_of_ne (s : State) {p q : Nat} (pc : CallPc) (h : q ≠ p) :
    (s.setPc p pc).pc q = s.pc q := by
  simp [State.setPc, h]

inductive Act
  | check (p : Nat)
  | acquire (p : Nat)
  | fork (p : Nat)
  | wait (p : Nat) (status : WaitStatus)
  | record (p : Nat) (now : Int)
  | leave (p : Nat)
  deriving DecidableEq, Repr

/-- Nothing runs and nobody holds the lease. -/
def start (log : Option Text) : State := ⟨log, none, fun _ => .started⟩

/-- The log after `quarantine` has recorded the mutation. -/
def recordedLog (file : MutationFile) (signalNum : Nat) (now : Int) (log : Option Text) :
    Option Text :=
  (quarantine .clean file.path file.content signalNum now ⟨log, none, none⟩).log

/-- What a call returns after its last step, at which the lease is destroyed. -/
def result : CallPc → Option Bool
  | .reaped (.exited code) => some (code = 0)
  | .recorded => some false
  | _ => none

/-- One step of `run_guarded_mutation` in one of the processes. -/
def step (files : Nat → MutationFile) (s : State) : Act → Option State
  | .check p =>
    if s.pc p = .started then
      some (s.setPc p
        (if isQuarantined (files p).content s.log then .returned false else .cleared))
    else none
  | .acquire p =>
    -- `flock(LOCK_EX)` blocks while another process holds the lock
    if s.pc p = .cleared ∧ s.holder = none then
      some ({ s with holder := some p }.setPc p .leased)
    else none
  | .fork p => if s.pc p = .leased then some (s.setPc p .forked) else none
  | .wait p status => if s.pc p = .forked then some (s.setPc p (.reaped status)) else none
  | .record p now =>
    match s.pc p with
    | .reaped (.signaled signalNum) =>
      some ({ s with log := recordedLog (files p) signalNum now s.log }.setPc p .recorded)
    | _ => none
  | .leave p =>
    match result (s.pc p) with
    | some r => some ({ s with holder := none }.setPc p (.returned r))
    | none => none

/-- The property of a step: a fork is of a content that the log does not report. -/
def ForksFresh (files : Nat → MutationFile) (s : State) (a : Act) : Prop :=
  ∀ p, a = .fork p → s.pc p = .leased → isQuarantined (files p).content s.log = false

/-- The condition on a step: a record is not about to make the log report the content
of a call that has passed its check and not yet taken its lease. -/
def NoStaleClearance (files : Nat → MutationFile) (s : State) (a : Act) : Prop :=
  ∀ q now signalNum, a = .record q now → s.pc q = .reaped (.signaled signalNum) →
    ∀ p, s.pc p = .cleared →
      isQuarantined (files p).content (recordedLog (files q) signalNum now s.log) = false

/-! ## What one step does -/

variable {files : Nat → MutationFile} {s s' : State}

/-- What each step of a call asks for and does. -/
theorem step_check {p : Nat} : step files s (.check p) = some s' ↔ s.pc p = .started ∧
    s' = s.setPc p
      (if isQuarantined (files p).content s.log then .returned false else .cleared) :=
  guarded_eq_some

theorem step_acquire {p : Nat} : step files s (.acquire p) = some s' ↔
    (s.pc p = .cleared ∧ s.holder = none) ∧ s' = { s with holder := some p }.setPc p .leased :=
  guarded_eq_some

theorem step_fork {p : Nat} :
    step files s (.fork p) = some s' ↔ s.pc p = .leased ∧ s' = s.setPc p .forked :=
  guarded_eq_some

theorem step_wait {p : Nat} {status : WaitStatus} :
    step files s (.wait p status) = some s' ↔
      s.pc p = .forked ∧ s' = s.setPc p (.reaped status) :=
  guarded_eq_some

theorem step_record {p : Nat} {now : Int} : step files s (.record p now) = some s' ↔
    ∃ signalNum, s.pc p = .reaped (.signaled signalNum) ∧
      s' = { s with log := recordedLog (files p) signalNum now s.log }.setPc p .recorded := by
  simp only [step]
  split
  · rename_i n hpc
    rw [Option.some.injEq]
    constructor
    · intro h
      exact ⟨n, hpc, h.symm⟩
    · rintro ⟨m, hm, h⟩
      rw [hpc, CallPc.reaped.injEq, WaitStatus.signaled.injEq] at hm
      rw [h, hm]
  · rename_i hpc
    constructor
    · intro h
      exact absurd h (by simp)
    · rintro ⟨n, hn, -⟩
      exact absurd hn (hpc n)

theorem step_leave {p : Nat} : step files s (.leave p) = some s' ↔
    ∃ r, result (s.pc p) = some r ∧ s' = { s with holder := none }.setPc p (.returned r) := by
  simp only [step]
  cases hr : result (s.pc p) with
  | none => simp
  | some r => simp [eq_comm]

/-! ## The lease -/

/-- The stages of a call at which its lease exists. -/
def HoldsLease : CallPc → Prop
  | .leased | .forked | .reaped _ | .recorded => True
  | _ => False

/-- A lease has the lock. -/
def LeaseInv (s : State) : Prop := ∀ p, HoldsLease (s.pc p) → s.holder = some p

/-- A call that is about to return has its lease. -/
theorem holdsLease_of_result {pc : CallPc} {r : Bool} (h : result pc = some r) :
    HoldsLease pc := by
  cases pc with
  | reaped status => exact trivial
  | recorded => exact trivial
  | started => exact absurd h (by simp [result])
  | cleared => exact absurd h (by simp [result])
  | leased => exact absurd h (by simp [result])
  | forked => exact absurd h (by simp [result])
  | returned b => exact absurd h (by simp [result])

/-- Moving one call on keeps the lease, if the call may be where it goes. -/
theorem leaseInv_setPc {p : Nat} {pc : CallPc} (hinv : LeaseInv s)
    (hlease : HoldsLease pc → s.holder = some p) : LeaseInv (s.setPc p pc) := by
  intro q hq
  rw [State.setPc_holder]
  rcases eq_or_ne q p with rfl | hne
  · rw [State.setPc_self] at hq
    exact hlease hq
  · rw [State.setPc_of_ne s pc hne] at hq
    exact hinv q hq

/-- One step keeps the lease with its holder. -/
theorem leaseInv_step (a : Act) (hinv : LeaseInv s) (h : step files s a = some s') :
    LeaseInv s' := by
  cases a with
  | check p =>
    obtain ⟨-, rfl⟩ := step_check.mp h
    refine leaseInv_setPc hinv fun hl => ?_
    split at hl
    · exact hl.elim
    · exact hl.elim
  | acquire p =>
    obtain ⟨⟨hpc, hfree⟩, rfl⟩ := step_acquire.mp h
    refine leaseInv_setPc (fun q hq => ?_) fun _ => rfl
    -- a second lease would have had the lock
    have hheld : s.holder = some q := hinv q hq
    rw [hfree] at hheld
    exact absurd hheld (by simp)
  | fork p =>
    obtain ⟨hpc, rfl⟩ := step_fork.mp h
    exact leaseInv_setPc hinv fun _ => hinv p (by rw [hpc]; trivial)
  | wait p status =>
    obtain ⟨hpc, rfl⟩ := step_wait.mp h
    exact leaseInv_setPc hinv fun _ => hinv p (by rw [hpc]; trivial)
  | record p now =>
    obtain ⟨n, hpc, rfl⟩ := step_record.mp h
    exact leaseInv_setPc (fun q hq => hinv q hq) fun _ => hinv p (by rw [hpc]; trivial)
  | leave p =>
    obtain ⟨r, hr, rfl⟩ := step_leave.mp h
    have hheld : s.holder = some p := hinv p (holdsLease_of_result hr)
    intro q hq
    rcases eq_or_ne q p with rfl | hne
    · rw [State.setPc_self] at hq
      exact hq.elim
    · rw [State.setPc_of_ne _ _ hne] at hq
      have hboth : some q = some p := (hinv q hq).symm.trans hheld
      exact absurd (Option.some.inj hboth) hne

/-! ## The clearance -/

/-- A call between its check and its fork has a content that the log does not report. -/
def FreshInv (files : Nat → MutationFile) (s : State) : Prop :=
  ∀ p, s.pc p = .cleared ∨ s.pc p = .leased → isQuarantined (files p).content s.log = false

/-- And a clearance with what the log says. -/
theorem freshInv_setPc {p : Nat} {pc : CallPc} (hinv : FreshInv files s)
    (hfresh : pc = .cleared ∨ pc = .leased → isQuarantined (files p).content s.log = false) :
    FreshInv files (s.setPc p pc) := by
  intro q hq
  rw [State.setPc_log]
  rcases eq_or_ne q p with rfl | hne
  · rw [State.setPc_self] at hq
    exact hfresh hq
  · rw [State.setPc_of_ne s pc hne] at hq
    exact hinv q hq

/-- **Step lemma.** A step that meets the condition keeps every clearance true. -/
theorem freshInv_step (a : Act) (hlease : LeaseInv s) (hinv : FreshInv files s)
    (hok : NoStaleClearance files s a) (h : step files s a = some s') : FreshInv files s' := by
  cases a with
  | check p =>
    obtain ⟨-, rfl⟩ := step_check.mp h
    -- the answer of the check is the very fact that the invariant keeps
    cases hq : isQuarantined (files p).content s.log with
    | true => exact freshInv_setPc hinv (by simp)
    | false => exact freshInv_setPc hinv fun _ => hq
  | acquire p =>
    obtain ⟨⟨hpc, -⟩, rfl⟩ := step_acquire.mp h
    have hlocked : FreshInv files { s with holder := some p } := hinv
    exact freshInv_setPc hlocked fun _ => hinv p (Or.inl hpc)
  | fork p =>
    obtain ⟨-, rfl⟩ := step_fork.mp h
    exact freshInv_setPc hinv (by simp)
  | wait p status =>
    obtain ⟨-, rfl⟩ := step_wait.mp h
    exact freshInv_setPc hinv (by simp)
  | record p now =>
    obtain ⟨n, hpc, rfl⟩ := step_record.mp h
    refine freshInv_setPc (fun q hq => ?_) (by simp)
    rcases hq with hcleared | hleased
    · exact hok p now n rfl hpc q hcleared
    · -- the lease is with the call that records, and that call has forked
      have hp : s.holder = some p := hlease p (by rw [hpc]; trivial)
      have hq : s.holder = some q := hlease q (by rw [hleased]; trivial)
      have hsame : q = p := Option.some.inj (hq.symm.trans hp)
      rw [hsame, hpc] at hleased
      exact absurd hleased (by simp)
  | leave p =>
    obtain ⟨r, -, rfl⟩ := step_leave.mp h
    have hfree : FreshInv files { s with holder := none } := hinv
    exact freshInv_setPc hfree (by simp)

/-! ## Forks of recorded contents -/

/-- A cleared call behind a record of its content: once the lease is given back, it
takes the lease and forks. -/
theorem fork_after_record {p q : Nat} {now : Int} {n : Nat} (hq : s.pc q = .reaped (.signaled n))
    (hp : s.pc p = .cleared)
    (hstale : isQuarantined (files p).content (recordedLog (files q) n now s.log) = true) :
    ∃ t, exec (step files) s [.record q now, .leave q, .acquire p] = some t ∧
      ¬ ForksFresh files t (.fork p) := by
  have hne : p ≠ q := by
    rintro rfl
    rw [hp] at hq
    exact absurd hq (by simp)
  obtain ⟨s₁, hs₁⟩ : ∃ s₁, s₁ =
    { s with log := recordedLog (files q) n now s.log }.setPc q .recorded := ⟨_, rfl⟩
  obtain ⟨s₂, hs₂⟩ : ∃ s₂, s₂ = { s₁ with holder := none }.setPc q (.returned false) := ⟨_, rfl⟩
  -- the record, the end of that call, and the lease of the cleared one
  have hrecord : step files s (.record q now) = some s₁ := step_record.mpr ⟨n, hq, hs₁⟩
  have hleave : step files s₁ (.leave q) = some s₂ := by
    refine step_leave.mpr ⟨false, ?_, hs₂⟩
    rw [hs₁, State.setPc_self]
    rfl
  have hwaiting : s₂.pc p = .cleared := by
    rw [hs₂, State.setPc_of_ne _ _ hne, hs₁]
    exact (State.setPc_of_ne _ _ hne).trans hp
  have hlog : s₂.log = recordedLog (files q) n now s.log := by
    rw [hs₂, hs₁]
    rfl
  have hacquire : step files s₂ (.acquire p) =
      some ({ s₂ with holder := some p }.setPc p .leased) :=
    step_acquire.mpr ⟨⟨hwaiting, by rw [hs₂]; rfl⟩, rfl⟩
  refine ⟨{ s₂ with holder := some p }.setPc p .leased, ?_, ?_⟩
  · rw [exec_cons, hrecord, Option.bind_some, exec_cons, hleave, Option.bind_some, exec_cons,
      hacquire, Option.bind_some, exec_nil]
  · intro h
    have hfresh := h p rfl (State.setPc_self _ _ _)
    rw [State.setPc_log, hlog, hstale] at hfresh
    exact absurd hfresh (by simp)

/-- **Forks are of unrecorded contents, and when they are not.** From any log: in a run
whose steps all meet `NoStaleClearance`, no fork is of a content that the log
reports at that moment; and a record that does not meet it can be followed, three
steps later, by a fork of a content that the log reports. -/
theorem forksFresh_of_noStaleClearance (files : Nat → MutationFile) (log : Option Text) :
    (∀ as, StepsMeet (step files) (NoStaleClearance files) (start log) as →
      StepsMeet (step files) (ForksFresh files) (start log) as) ∧
    (∀ as s q now, exec (step files) (start log) as = some s →
      ¬ NoStaleClearance files s (.record q now) →
      ∃ p t, exec (step files) (start log) (as ++ [.record q now, .leave q, .acquire p]) =
          some t ∧
        ¬ ForksFresh files t (.fork p)) := by
  constructor
  · intro as hmeet
    refine stepsMeet_of_invariant (I := fun s => LeaseInv s ∧ FreshInv files s) ?_ ?_ ?_ hmeet
    · rintro s a s' ⟨hlease, hfresh⟩ hok hs
      exact ⟨leaseInv_step a hlease hs, freshInv_step a hlease hfresh hok hs⟩
    · rintro s a ⟨-, hfresh⟩ - p - hleased
      exact hfresh p (Or.inr hleased)
    · exact ⟨fun p hp => False.elim hp, fun p hp => absurd hp (by simp [start])⟩
  · intro as s q now hrun hstale
    unfold NoStaleClearance at hstale
    push Not at hstale
    obtain ⟨q', now', n, hact, hq, p, hp, hreported⟩ := hstale
    obtain ⟨rfl, rfl⟩ := Act.record.inj hact
    rw [ne_eq, Bool.not_eq_false] at hreported
    obtain ⟨t, ht, hnot⟩ := fork_after_record hq hp hreported
    refine ⟨p, t, ?_, hnot⟩
    rw [exec_append, hrun]
    exact ht

/-- A record catches the cleared calls with its own content hash, and no other: on a log
whose last line is complete, and with a path of one line. -/
theorem staleClearance_iff {file other : MutationFile} {log : Option Text} {n : Nat} {now : Int}
    (hclosed : lastLine newline (log.getD []) = []) (hpath : newline ∉ file.path)
    (hfresh : isQuarantined other.content log = false) :
    isQuarantined other.content (recordedLog file n now log) = true ↔
      structuralHash other.content = structuralHash file.content := by
  have hclosed' : lastLine newline (withHeader (log.getD [])) = [] := by
    rw [lastLine_withHeader]
    exact hclosed
  rw [← Bool.not_eq_true, isQuarantined_iff] at hfresh
  rw [recordedLog, quarantine, atomicQuarantineAppend_clean, isQuarantined_iff]
  show _ ∈ hashFields (appendedLog log _) ↔ _
  rw [appendedLog, hashFields_append_quarantineEntry hclosed' _ _ _ hpath, hashFields_withHeader,
    List.mem_append, List.mem_singleton, hashText_injective.eq_iff]
  constructor
  · -- what the log reported before is not the content, so it is the new hash
    rintro (hold | hnew)
    · exact absurd hold hfresh
    · exact hnew
  · exact Or.inr

/-! ### Two calls of one mutation -/

/-- Calls 0 and 1 run one mutation, the others another. -/
def sameMutation : Nat → MutationFile := fun p =>
  if p ≤ 1 then ⟨ascii "m.cpp", ascii "bad"⟩ else ⟨ascii "n.cpp", ascii "other"⟩

/-- Both calls pass the check; the first runs, crashes and is recorded; the second takes
the lease. -/
def staleRun : List Act :=
  [.check 0, .check 1, .acquire 0, .fork 0, .wait 0 (.signaled 11), .record 0 1700000000,
   .leave 0, .acquire 1]

/-- **The window between check and fork is open**: the second call forks a mutation that
the first has just recorded. -/
theorem forksFresh_fails_after_record :
    ¬ ∀ (files : Nat → MutationFile) (log : Option Text) (as : List Act),
        (exec (step files) (start log) as).isSome = true →
        StepsMeet (step files) (ForksFresh files) (start log) as := by
  intro h
  have hmeet := h sameMutation none (staleRun ++ [.fork 1]) (by decide)
  have hview : (exec (step sameMutation) (start none) staleRun).map
      (fun t => (t.pc 1, isQuarantined (sameMutation 1).content t.log)) =
        some (.leased, true) := by decide
  obtain ⟨t, hrun, ht⟩ := Option.map_eq_some_iff.mp hview
  obtain ⟨hleased, hreported⟩ := Prod.mk.inj ht
  have hfresh := hmeet staleRun (.fork 1) [] t rfl hrun 1 rfl hleased
  rw [hreported] at hfresh
  exact absurd hfresh (by simp)

end Swayam.Guarded
