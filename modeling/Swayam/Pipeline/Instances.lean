import Mathlib.Logic.Function.Basic
import Swayam.Lib.Machine
import Swayam.Pipeline.Daemon
import Swayam.Pipeline.StatusFile

/-!
# SWAYAM — Instances of `main`

Any number of instances of the daemon on one lock file and one `status.json`. The
lock is tried once, without waiting; an instance that does not get it writes
`quarantined` behind that, whoever has it by then. What each instance writes is
what its run of `main` writes, and the opening and the flushes of a write
interleave with those of the others. The mutations that they execute leave the file
alone; `Daemon.lean` has one run with a mutation that writes there.

* `writes_outcome`, `writes_refused` — the outcomes of a run of `main`, and of one
  without the lock;
* `lockInv_step`, `todoInv_step`, `recordOk_step` — what one step keeps;
* `recordedOutcome_of_refused` — an instance without the lock can only turn the record
  into `quarantined`: any other outcome on record was written under the lock.
-/

namespace Swayam.Instances

open Machine Pipeline Stages

/-! ## What an instance writes -/

structure Instance where
  stdHash : StdHash
  env     : DaemonEnv
  world   : World

/-- The statuses of its run of `main`, with the lock or without. -/
def Instance.writes (x : Instance) (locked : Bool) : List Status :=
  (endState (main x.stdHash { x.env with flock := locked } x.world.start)).statuses

/-- The run gets to its `flock`, and only a holder can make that fail. -/
def Instance.Asks (x : Instance) : Prop :=
  x.env.sigaction = true ∧ x.env.lockOpens = true ∧ x.env.flock = true

instance (x : Instance) : Decidable x.Asks := inferInstanceAs (Decidable (_ ∧ _ ∧ _))

section Writes

variable {stdHash : StdHash} {env : DaemonEnv} {w : World} {p : Text → Prop}

/-- Every status so far has such an outcome. -/
def Outcomes (p : Text → Prop) (w : World) : Prop := ∀ status ∈ w.statuses, p status.outcome

theorem outcomes_nil (h : w.statuses = []) : Outcomes p w := by
  intro status hmem
  rw [h] at hmem
  exact absurd hmem List.not_mem_nil

/-- One more status with such an outcome. -/
theorem outcomes_concat {w' : World} {outcome reason : Text} (h : Outcomes p w)
    (hstatuses : w'.statuses = w.statuses ++ [⟨outcome, reason⟩]) (hp : p outcome) :
    Outcomes p w' := by
  intro status hmem
  rw [hstatuses, List.mem_append, List.mem_singleton] at hmem
  rcases hmem with hmem | rfl
  · exact h status hmem
  · exact hp

/-- A write leaves at most its own status. -/
theorem outcomes_leave {outcome reason : Text} (h : Outcomes p w) (hp : p outcome)
    (write : StatusWrite) : Outcomes p (write.leave ⟨outcome, reason⟩ w) := by
  cases write with
  | lands => exact outcomes_concat h rfl hp
  | unopened => exact h
  | cut n => exact h

theorem outcomes_exit {outcome reason : Text} {code : Nat} (h : Outcomes p w) (hp : p outcome) :
    Outcomes p (endState (env.exit outcome reason code w)) := by
  rw [endState_exit]
  exact outcomes_leave h hp _

theorem outcomes_writeStatus {env : CycleEnv} {outcome reason : Text} (h : Outcomes p w)
    (hp : p outcome) : Outcomes p (endState (env.writeStatus outcome reason w)) := by
  rw [CycleEnv.writeStatus, endState_writeStatusFile]
  exact outcomes_leave h hp _

theorem outcomes_assimilate {env : CycleEnv} {evolvedCode : Text} (hnil : w.statuses = []) :
    Outcomes IsOutcome (endState (assimilate stdHash env evolvedCode w)) := by
  obtain ⟨w', hstatuses, -, -, hrun⟩ := assimilate_meets stdHash env evolvedCode w
  have hw' : Outcomes IsOutcome w' := outcomes_nil (hstatuses.trans hnil)
  cases hgate : firstObstacle (assimilateGates env) with
  | pass =>
    rw [hgate] at hrun
    rw [hrun]
    exact outcomes_writeStatus hw' (Or.inl rfl)
  | stop =>
    rw [hgate] at hrun
    exact hrun.elim
  | fault f =>
    rw [hgate] at hrun
    rw [hrun]
    exact hw'

/-- A cycle writes outcomes only. -/
theorem outcomes_orchestrateEvolution {env : CycleEnv} (hnil : w.statuses = []) :
    Outcomes IsOutcome (endState (orchestrateEvolution stdHash env w)) := by
  obtain ⟨w', ⟨hstatuses, -⟩, hrun⟩ := orchestrateEvolution_meets stdHash env w
  have hnil' : w'.statuses = [] := hstatuses.trans hnil
  -- nothing is written in front of the last write of the gate's branch
  cases hgate : cycleGate stdHash env with
  | pass =>
    rw [hgate] at hrun
    obtain ⟨_, ⟨evolvedCode, rfl⟩, hrun⟩ := hrun
    rw [hrun]
    exact outcomes_assimilate hnil'
  | stop =>
    rw [hgate] at hrun
    obtain ⟨_, ⟨reason, rfl⟩, hrun⟩ := hrun
    rw [hrun]
    exact outcomes_writeStatus (outcomes_nil hnil') (Or.inr rfl)
  | fault f =>
    rw [hgate] at hrun
    rw [hrun]
    exact outcomes_nil hnil'

/-- And so does main behind it. -/
theorem outcomes_runCycle (hnil : w.statuses = []) :
    Outcomes IsOutcome (endState (runCycle stdHash env w)) := by
  have hcycle : Outcomes IsOutcome (endState (orchestrateEvolution stdHash env.cycle w)) :=
    outcomes_orchestrateEvolution hnil
  rw [runCycle_run]
  cases hrun : orchestrateEvolution stdHash env.cycle w with
  | ok u w' =>
    rw [hrun] at hcycle
    exact outcomes_exit hcycle (Or.inl rfl)
  | error f w' =>
    rw [hrun] at hcycle
    -- the two handlers of main, and an exception that neither gets
    cases f with
    | exception what => exact outcomes_exit hcycle (Or.inr rfl)
    | unknown => exact outcomes_exit hcycle (Or.inr rfl)
    | terminate => exact hcycle

/-- A run that does not get to its cycle has no other outcome than `quarantined`. -/
theorem outcomes_of_not_reached (hreached : ¬ env.ReachesCycle) (hnil : w.statuses = []) :
    Outcomes (· = quarantined) (endState (main stdHash env w)) := by
  have hend : endState (main stdHash env w) = w ∨ ∃ reason code,
      endState (main stdHash env w) = endState (env.exit quarantined reason code w) :=
    main_of_not_reached hreached
  rcases hend with h | ⟨reason, code, h⟩
  · rw [h]
    exact outcomes_nil hnil
  · rw [h]
    exact outcomes_exit (outcomes_nil hnil) rfl

/-- **The outcomes of a run** are `published` and `quarantined`. -/
theorem writes_outcome (x : Instance) (locked : Bool) :
    ∀ status ∈ x.writes locked, IsOutcome status.outcome := by
  by_cases hreached : DaemonEnv.ReachesCycle { x.env with flock := locked }
  · unfold Instance.writes
    rw [main_of_reached hreached]
    exact outcomes_runCycle rfl
  · intro status hmem
    exact Or.inr (outcomes_of_not_reached hreached rfl status hmem)

/-- **An instance without the lock** writes `quarantined` and nothing else. -/
theorem writes_refused (x : Instance) :
    ∀ status ∈ x.writes false, status.outcome = quarantined := by
  refine outcomes_of_not_reached ?_ rfl
  rintro ⟨-, -, hflock, -⟩
  exact Bool.false_ne_true hflock

end Writes

/-! ## The machine -/

/-- Where an instance stands: which statuses it has still to write, and how much of the one
it writes is in the file. -/
inductive InstancePc
  | started
  | running (locked : Bool) (todo : List Status)
  | writing (locked : Bool) (status : Status) (done : Nat) (todo : List Status)
  | exited
  deriving DecidableEq, Repr

structure State (ι : Type*) where
  holder : Option ι         -- the instance that has the lock
  file   : Text             -- `status.json`, empty while it is absent
  held   : Option Text      -- the record: the outcome last written under the lock
  pc     : ι → InstancePc

inductive Act (ι : Type*)
  | attempt (i : ι)
  | openStatus (i : ι)
  | flush (i : ι) (n : Nat)
  | close (i : ι)
  | leave (i : ι)
  | die (i : ι)
  deriving DecidableEq, Repr

/-- The instance that moves. -/
def Act.mover {ι : Type*} : Act ι → ι
  | .attempt i | .openStatus i | .flush i _ | .close i | .leave i | .die i => i

variable {ι : Type*}

/-- No instance has started, and there is no status. -/
def start : State ι := ⟨none, [], none, fun _ => .started⟩

variable [DecidableEq ι]

/-- The instance `i` moves to `pc`. -/
def State.setPc (s : State ι) (i : ι) (pc : InstancePc) : State ι :=
  { s with pc := Function.update s.pc i pc }

/-- What the record of the outcome written under the lock becomes with a flush of `i`. -/
def State.record (s : State ι) (i : ι) (outcome : Text) (done : Nat) : Option Text :=
  if done = 0 ∧ s.holder = some i then some outcome else s.held

/-- Whether the stream can flush `n` bytes behind the first `done` of the text. -/
def FlushOk (text : Text) (done n : Nat) : Prop :=
  0 < n ∧ done + n ≤ text.length ∧ min streamBuffer text.length ≤ done + n

instance (text : Text) (done n : Nat) : Decidable (FlushOk text done n) :=
  inferInstanceAs (Decidable (_ ∧ _ ∧ _))

/-- One step of an instance, or its death. -/
def step (fleet : ι → Instance) (s : State ι) : Act ι → Option (State ι)
  | .attempt i =>
    match s.pc i with
    | .started =>
      -- `LOCK_NB`: the instance is told at once
      if (fleet i).Asks ∧ s.holder = none then
        some ({ s with holder := some i }.setPc i (.running true ((fleet i).writes true)))
      else some (s.setPc i (.running false ((fleet i).writes false)))
    | _ => none
  | .openStatus i =>
    match s.pc i with
    | .running locked (status :: todo) =>
      -- `std::ofstream` truncates, and the first flush is still to come
      some ({ s with file := [] }.setPc i (.writing locked status 0 todo))
    | _ => none
  | .flush i n =>
    match s.pc i with
    | .writing locked status done todo =>
      if FlushOk (statusText status) done n then
        some ({ s with
          file := writeAt s.file done (((statusText status).drop done).take n)
          held := s.record i status.outcome done }.setPc i
            (.writing locked status (done + n) todo))
      else none
    | _ => none
  | .close i =>
    -- what is not in the file by now has failed: the stream is not looked at
    match s.pc i with
    | .writing locked _ _ todo => some (s.setPc i (.running locked todo))
    | _ => none
  | .leave i =>
    match s.pc i with
    | .running locked [] =>
      -- `LOCK_UN`, or the end of a process that never had the lock
      some ({ s with holder := if locked then none else s.holder }.setPc i .exited)
    | _ => none
  | .die i =>
    -- the system drops the lock of a process with it
    some ({ s with holder := s.holder.filter fun j => j ≠ i }.setPc i .exited)

/-! ## What one step does -/

section Steps

variable {fleet : ι → Instance} {s s' : State ι} {i : ι}

@[simp] theorem setPc_self (pc : InstancePc) : (s.setPc i pc).pc i = pc := by
  simp [State.setPc]

theorem setPc_of_ne {q : ι} (pc : InstancePc) (h : q ≠ i) : (s.setPc i pc).pc q = s.pc q := by
  simp [State.setPc, h]

/-- The one try of the lock: it is free, or the instance goes on without it. -/
theorem step_attempt (h : step fleet s (.attempt i) = some s') :
    s.pc i = .started ∧
      (s.holder = none ∧
          s' = { s with holder := some i }.setPc i (.running true ((fleet i).writes true)) ∨
        s' = s.setPc i (.running false ((fleet i).writes false))) := by
  rw [step] at h
  split at h
  · rename_i hpc
    refine ⟨hpc, ?_⟩
    split at h
    · rename_i hfree
      exact Or.inl ⟨hfree.2, (Option.some.inj h).symm⟩
    · exact Or.inr (Option.some.inj h).symm
  · exact absurd h (by simp)

/-- The next status is opened, which empties the file. -/
theorem step_openStatus (h : step fleet s (.openStatus i) = some s') :
    ∃ locked status todo, s.pc i = .running locked (status :: todo) ∧
      s' = { s with file := [] }.setPc i (.writing locked status 0 todo) := by
  rw [step] at h
  split at h
  · rename_i locked status todo hpc
    exact ⟨locked, status, todo, hpc, (Option.some.inj h).symm⟩
  · exact absurd h (by simp)

/-- A flush puts the next bytes at the offset of the writer. -/
theorem step_flush {n : Nat} (h : step fleet s (.flush i n) = some s') :
    ∃ locked status done todo, s.pc i = .writing locked status done todo ∧
      FlushOk (statusText status) done n ∧
      s' = { s with
        file := writeAt s.file done (((statusText status).drop done).take n)
        held := s.record i status.outcome done }.setPc i
          (.writing locked status (done + n) todo) := by
  rw [step] at h
  split at h
  · rename_i locked status done todo hpc
    obtain ⟨hok, rfl⟩ := guarded_eq_some.mp h
    exact ⟨locked, status, done, todo, hpc, hok, rfl⟩
  · exact absurd h (by simp)

/-- A status that is written in full is closed. -/
theorem step_close (h : step fleet s (.close i) = some s') :
    ∃ locked status done todo, s.pc i = .writing locked status done todo ∧
      s' = s.setPc i (.running locked todo) := by
  rw [step] at h
  split at h
  · rename_i locked status done todo hpc
    exact ⟨locked, status, done, todo, hpc, (Option.some.inj h).symm⟩
  · exact absurd h (by simp)

/-- An instance that has nothing left to write lets the lock go. -/
theorem step_leave (h : step fleet s (.leave i) = some s') :
    ∃ locked, s.pc i = .running locked [] ∧
      s' = { s with holder := if locked then none else s.holder }.setPc i .exited := by
  rw [step] at h
  split at h
  · rename_i locked hpc
    exact ⟨locked, hpc, (Option.some.inj h).symm⟩
  · exact absurd h (by simp)

/-- So does one that dies, at any time. -/
theorem step_die (h : step fleet s (.die i) = some s') :
    s' = { s with holder := s.holder.filter fun j => j ≠ i }.setPc i .exited :=
  (Option.some.inj h).symm

end Steps

/-! ## The lock -/

/-- The instance has got the lock, and not given it back. -/
def InLock : InstancePc → Prop
  | .running true _ | .writing true _ _ _ => True
  | _ => False

/-- The instance has asked for the lock in vain, or could not ask. -/
def Refused : InstancePc → Prop
  | .running false _ | .writing false _ _ _ => True
  | _ => False

section Places

variable {locked : Bool} {status : Status} {done : Nat} {todo : List Status}

@[simp] theorem inLock_running : InLock (.running locked todo) ↔ locked = true := by
  cases locked with
  | true => exact iff_of_true trivial rfl
  | false => exact iff_of_false id (by simp)

@[simp] theorem inLock_writing : InLock (.writing locked status done todo) ↔ locked = true := by
  cases locked with
  | true => exact iff_of_true trivial rfl
  | false => exact iff_of_false id (by simp)

@[simp] theorem refused_running : Refused (.running locked todo) ↔ locked = false := by
  cases locked with
  | true => exact iff_of_false id (by simp)
  | false => exact iff_of_true trivial rfl

@[simp] theorem refused_writing : Refused (.writing locked status done todo) ↔ locked = false := by
  cases locked with
  | true => exact iff_of_false id (by simp)
  | false => exact iff_of_true trivial rfl

/-- An instance that was refused has not got the lock. -/
theorem not_inLock_of_refused {pc : InstancePc} (h : Refused pc) : ¬ InLock pc := by
  cases pc with
  | started | exited => exact h.elim
  | running locked todo =>
    rw [refused_running.mp h]
    exact id
  | writing locked status done todo =>
    rw [refused_writing.mp h]
    exact id

end Places

section Lock

variable {fleet : ι → Instance} {s s' : State ι} {i : ι}

/-- The instances with the lock are the one that has it. -/
def LockInv (s : State ι) : Prop := ∀ i, s.holder = some i ↔ InLock (s.pc i)

/-- An instance that goes on, with the lock or without. -/
theorem lockInv_setPc {pc : InstancePc} (hinv : LockInv s) (hlock : InLock (s.pc i) ↔ InLock pc) :
    LockInv (s.setPc i pc) := by
  intro q
  rcases eq_or_ne q i with rfl | hne
  · rw [setPc_self]
    exact (hinv q).trans hlock
  · rw [setPc_of_ne pc hne]
    exact hinv q

/-- **The lock, step by step.** -/
theorem lockInv_step (a : Act ι) (hinv : LockInv s) (h : step fleet s a = some s') :
    LockInv s' := by
  cases a with
  | attempt i =>
    obtain ⟨hpc, ⟨hfree, rfl⟩ | rfl⟩ := step_attempt h
    · intro q
      rcases eq_or_ne q i with rfl | hne
      · rw [setPc_self]
        exact iff_of_true rfl trivial
      · -- nobody else had it
        rw [setPc_of_ne _ hne]
        refine iff_of_false (fun hq => hne (Option.some.inj hq).symm) fun hin => ?_
        have hq : s.holder = some q := (hinv q).mpr hin
        rw [hfree] at hq
        exact absurd hq (by simp)
    · exact lockInv_setPc hinv (by rw [hpc]; exact iff_of_false id id)
  | openStatus i =>
    obtain ⟨locked, status, todo, hpc, rfl⟩ := step_openStatus h
    exact lockInv_setPc (fun q => hinv q) (by simp [hpc])
  | flush i n =>
    obtain ⟨locked, status, done, todo, hpc, -, rfl⟩ := step_flush h
    exact lockInv_setPc (fun q => hinv q) (by simp [hpc])
  | close i =>
    obtain ⟨locked, status, done, todo, hpc, rfl⟩ := step_close h
    exact lockInv_setPc hinv (by simp [hpc])
  | leave i =>
    obtain ⟨locked, hpc, rfl⟩ := step_leave h
    cases locked with
    | false => exact lockInv_setPc hinv (by rw [hpc]; exact iff_of_false id id)
    | true =>
      -- whoever has the lock behind this would have had it with `i`
      have hheld : s.holder = some i := (hinv i).mpr (by rw [hpc]; trivial)
      intro q
      refine iff_of_false (by simp [State.setPc]) ?_
      rcases eq_or_ne q i with rfl | hne
      · rw [setPc_self]
        exact id
      · rw [setPc_of_ne _ hne]
        intro hin
        have hq : some i = some q := hheld.symm.trans ((hinv q).mpr hin)
        exact hne (Option.some.inj hq).symm
  | die i =>
    obtain rfl := step_die h
    intro q
    show s.holder.filter _ = some q ↔ _
    rw [Option.filter_eq_some_iff]
    rcases eq_or_ne q i with rfl | hne
    · rw [setPc_self]
      exact iff_of_false (by simp) id
    · rw [setPc_of_ne _ hne]
      simpa [hne] using hinv q

end Lock

/-! ## What is still to be written -/

/-- What an instance may write, with the lock or without. -/
def MayWrite (locked : Bool) (outcome : Text) : Prop :=
  IsOutcome outcome ∧ (locked = false → outcome = quarantined)

/-- What an instance has to write is what it may write. -/
theorem writes_mayWrite (x : Instance) (locked : Bool) :
    ∀ status ∈ x.writes locked, MayWrite locked status.outcome := by
  intro status hmem
  refine ⟨writes_outcome x locked status hmem, ?_⟩
  rintro rfl
  exact writes_refused x status hmem

/-- An instance writes only what it may, and has flushed nothing or a good part. -/
def PcOk : InstancePc → Prop
  | .running locked todo => ∀ status ∈ todo, MayWrite locked status.outcome
  | .writing locked status done todo =>
    (∀ st ∈ status :: todo, MayWrite locked st.outcome) ∧
      (done = 0 ∨ min streamBuffer (statusText status).length ≤ done)
  | .started | .exited => True

section Todo

variable {fleet : ι → Instance} {s s' : State ι} {i : ι}

def TodoInv (s : State ι) : Prop := ∀ i, PcOk (s.pc i)

theorem todoInv_setPc {pc : InstancePc} (hinv : TodoInv s) (hok : PcOk pc) :
    TodoInv (s.setPc i pc) := by
  intro q
  rcases eq_or_ne q i with rfl | hne
  · rw [setPc_self]
    exact hok
  · rw [setPc_of_ne pc hne]
    exact hinv q

/-- **What is left to write** is what the instance may write, in every state. -/
theorem todoInv_step (a : Act ι) (hinv : TodoInv s) (h : step fleet s a = some s') :
    TodoInv s' := by
  cases a with
  | attempt i =>
    obtain ⟨-, ⟨-, rfl⟩ | rfl⟩ := step_attempt h
    · exact todoInv_setPc hinv (writes_mayWrite (fleet i) true)
    · exact todoInv_setPc hinv (writes_mayWrite (fleet i) false)
  | openStatus i =>
    obtain ⟨locked, status, todo, hpc, rfl⟩ := step_openStatus h
    have hok : PcOk (.running locked (status :: todo)) := hpc ▸ hinv i
    exact todoInv_setPc hinv ⟨hok, Or.inl rfl⟩
  | flush i n =>
    obtain ⟨locked, status, done, todo, hpc, ⟨-, -, hflushed⟩, rfl⟩ := step_flush h
    have hok : PcOk (.writing locked status done todo) := hpc ▸ hinv i
    exact todoInv_setPc hinv ⟨hok.1, Or.inr hflushed⟩
  | close i =>
    obtain ⟨locked, status, done, todo, hpc, rfl⟩ := step_close h
    have hok : PcOk (.writing locked status done todo) := hpc ▸ hinv i
    exact todoInv_setPc hinv fun st hst => hok.1 st (List.mem_cons_of_mem _ hst)
  | leave i =>
    obtain ⟨locked, -, rfl⟩ := step_leave h
    exact todoInv_setPc hinv trivial
  | die i =>
    obtain rfl := step_die h
    exact todoInv_setPc hinv trivial

end Todo

/-! ## What is on record -/

/-- The file records nothing, what was written under the lock, or `quarantined`. -/
def RecordOk (held : Option Text) (file : Text) : Prop :=
  Blank file ∨ ∃ outcome, IsOutcome outcome ∧ (held = some outcome ∨ outcome = quarantined) ∧
    outcomeMark outcome <+: file

/-- The record is that of the holder, or `quarantined`, or none. -/
theorem RecordOk.recorded {held : Option Text} {file : Text} (h : RecordOk held file) :
    recordedOutcome file = none ∨ recordedOutcome file = held ∨
      recordedOutcome file = some quarantined := by
  rcases h with hblank | ⟨outcome, houtcome, hwho, hmark⟩
  · exact Or.inl (recordedOutcome_of_blank hblank)
  · have hrecorded : recordedOutcome file = some outcome := recordedOutcome_of_mark houtcome hmark
    rcases hwho with rfl | rfl
    · exact Or.inr (Or.inl hrecorded)
    · exact Or.inr (Or.inr hrecorded)

/-- A first flush puts its outcome on record, whatever lay there. -/
theorem mark_firstFlush {status : Status} {n : Nat} (houtcome : IsOutcome status.outcome)
    (hok : FlushOk (statusText status) 0 n) (file : Text) :
    outcomeMark status.outcome <+:
      writeAt file 0 (((statusText status).drop 0).take n) := by
  have hn : min streamBuffer (statusText status).length ≤ n := by
    have := hok.2.2
    omega
  rw [List.drop_zero]
  exact (mark_prefix_flush houtcome hn).trans (prefix_writeAt_zero file _)

/-- A later flush lies behind every outcome. -/
theorem streamBuffer_le_of_later {text : Text} {done n : Nat} (hok : FlushOk text done n)
    (hdone : min streamBuffer text.length ≤ done) : streamBuffer ≤ done := by
  obtain ⟨hpos, hle, -⟩ := hok
  omega

/-- A flush behind the first buffer leaves the outcome alone. -/
theorem recordOk_later {held : Option Text} {file : Text} {done : Nat} (h : RecordOk held file)
    (hdone : streamBuffer ≤ done) (bytes : Text) : RecordOk held (writeAt file done bytes) := by
  unfold streamBuffer at hdone
  rcases h with hblank | ⟨outcome, houtcome, hwho, hmark⟩
  · exact Or.inl (blank_writeAt hblank (by omega) bytes)
  · have hle : (outcomeMark outcome).length ≤ 32 := houtcome.length_le
    exact Or.inr ⟨outcome, houtcome, hwho, mark_writeAt hmark (by omega) bytes⟩

/-- And leaves what is on record. -/
theorem recordedOutcome_later {held : Option Text} {file : Text} {done : Nat}
    (h : RecordOk held file) (hdone : streamBuffer ≤ done) (bytes : Text) :
    recordedOutcome (writeAt file done bytes) = recordedOutcome file := by
  unfold streamBuffer at hdone
  rcases h with hblank | ⟨outcome, houtcome, -, hmark⟩
  · rw [recordedOutcome_of_blank hblank,
      recordedOutcome_of_blank (blank_writeAt hblank (by omega) bytes)]
  · have hle : (outcomeMark outcome).length ≤ 32 := houtcome.length_le
    rw [recordedOutcome_of_mark houtcome hmark,
      recordedOutcome_of_mark houtcome (mark_writeAt hmark (by omega) bytes)]

section Record

variable {fleet : ι → Instance} {s s' : State ι} {i : ι}

structure Inv (s : State ι) : Prop where
  lock   : LockInv s
  todo   : TodoInv s
  record : RecordOk s.held s.file

theorem record_later {outcome : Text} {done : Nat} (h : 0 < done) :
    s.record i outcome done = s.held := by
  rw [State.record, if_neg]
  omega

/-- An instance without the lock does not change what the holder has on record. -/
theorem record_of_not_holder {outcome : Text} {done : Nat} (h : s.holder ≠ some i) :
    s.record i outcome done = s.held := by
  rw [State.record, if_neg]
  exact fun hfirst => h hfirst.2

/-- **A flush keeps the record in order**: the first of the holder becomes the record of the
lock, the first of another instance says `quarantined`, and a later one does not reach it. -/
theorem recordOk_flush {locked : Bool} {status : Status} {done n : Nat} {todo : List Status}
    (hinv : Inv s) (hpc : s.pc i = .writing locked status done todo)
    (hok : FlushOk (statusText status) done n) :
    RecordOk (s.record i status.outcome done)
      (writeAt s.file done (((statusText status).drop done).take n)) := by
  have hpcOk : PcOk (.writing locked status done todo) := hpc ▸ hinv.todo i
  obtain ⟨hmay, hdone⟩ := hpcOk
  obtain ⟨houtcome, hrefused⟩ := hmay status (List.mem_cons_self ..)
  rcases hdone with rfl | hdone
  · -- the first flush covers the start of the file, whoever wrote there
    refine Or.inr ⟨status.outcome, houtcome, ?_, mark_firstFlush houtcome hok s.file⟩
    cases locked with
    | true =>
      have hholder : s.holder = some i := (hinv.lock i).mpr (by simp [hpc])
      left
      rw [State.record, if_pos ⟨rfl, hholder⟩]
    | false => exact Or.inr (hrefused rfl)
  · -- a later one comes behind the longest outcome there is
    have hlater : streamBuffer ≤ done := streamBuffer_le_of_later hok hdone
    rw [record_later (by unfold streamBuffer at hlater; omega)]
    exact recordOk_later hinv.record hlater _

/-- **The record, step by step.** -/
theorem recordOk_step (a : Act ι) (hinv : Inv s) (h : step fleet s a = some s') :
    RecordOk s'.held s'.file := by
  cases a with
  | attempt i =>
    obtain ⟨-, ⟨-, rfl⟩ | rfl⟩ := step_attempt h
    · exact hinv.record
    · exact hinv.record
  | openStatus i =>
    obtain ⟨locked, status, todo, -, rfl⟩ := step_openStatus h
    exact Or.inl rfl
  | flush i n =>
    obtain ⟨locked, status, done, todo, hpc, hok, rfl⟩ := step_flush h
    exact recordOk_flush hinv hpc hok
  | close i =>
    obtain ⟨locked, status, done, todo, -, rfl⟩ := step_close h
    exact hinv.record
  | leave i =>
    obtain ⟨locked, -, rfl⟩ := step_leave h
    exact hinv.record
  | die i =>
    obtain rfl := step_die h
    exact hinv.record

omit [DecidableEq ι] in
theorem inv_start : Inv (start : State ι) where
  lock := fun _ => iff_of_false (by simp [start]) id
  todo := fun _ => trivial
  record := Or.inl rfl

/-- **One step** keeps the three invariants. -/
theorem inv_step (a : Act ι) (hinv : Inv s) (h : step fleet s a = some s') : Inv s' where
  lock := lockInv_step a hinv.lock h
  todo := todoInv_step a hinv.todo h
  record := recordOk_step a hinv h

/-- And so does every run. -/
theorem inv_exec {as : List (Act ι)} (h : exec (step fleet) start as = some s) : Inv s :=
  exec_invariant (fun _ a _ hinv hs => inv_step a hinv hs) inv_start h

/-- **What a refused instance can do**: it leaves the record, empties the file for its own
write, or puts `quarantined` on record. -/
theorem refused_step (a : Act ι) (hinv : Inv s) (hrefused : Refused (s.pc a.mover))
    (h : step fleet s a = some s') :
    s'.holder = s.holder ∧ s'.held = s.held ∧
      (recordedOutcome s'.file = recordedOutcome s.file ∨ s'.file = [] ∨
        recordedOutcome s'.file = some quarantined) := by
  have hholder : s.holder ≠ some a.mover := fun hheld =>
    not_inLock_of_refused hrefused ((hinv.lock _).mp hheld)
  cases a with
  | attempt i =>
    obtain ⟨hpc, -⟩ := step_attempt h
    have hrefused' : Refused .started := hpc ▸ hrefused
    exact hrefused'.elim
  | openStatus i =>
    obtain ⟨locked, status, todo, -, rfl⟩ := step_openStatus h
    exact ⟨rfl, rfl, Or.inr (Or.inl rfl)⟩
  | flush i n =>
    obtain ⟨locked, status, done, todo, hpc, hok, rfl⟩ := step_flush h
    refine ⟨rfl, record_of_not_holder hholder, ?_⟩
    have hpcOk : PcOk (.writing locked status done todo) := hpc ▸ hinv.todo i
    have hunlocked : locked = false := refused_writing.mp (hpc ▸ hrefused)
    obtain ⟨hmay, hdone⟩ := hpcOk
    obtain ⟨houtcome, hquarantined⟩ := hmay status (List.mem_cons_self ..)
    rcases hdone with rfl | hdone
    · -- its outcome is on record now
      right; right
      have hfile := recordedOutcome_of_mark houtcome (mark_firstFlush houtcome hok s.file)
      rw [← hquarantined hunlocked]
      exact hfile
    · exact Or.inl (recordedOutcome_later hinv.record (streamBuffer_le_of_later hok hdone) _)
  | close i =>
    obtain ⟨locked, status, done, todo, -, rfl⟩ := step_close h
    exact ⟨rfl, rfl, Or.inl rfl⟩
  | leave i =>
    obtain ⟨locked, hpc, rfl⟩ := step_leave h
    obtain rfl : locked = false := refused_running.mp (hpc ▸ hrefused)
    exact ⟨rfl, rfl, Or.inl rfl⟩
  | die i =>
    obtain rfl := step_die h
    refine ⟨?_, rfl, Or.inl rfl⟩
    show s.holder.filter _ = s.holder
    -- its death leaves the lock to the one that has it
    cases hheld : s.holder with
    | none => rfl
    | some j =>
      have hne : j ≠ i := fun heq => hholder (heq ▸ hheld)
      rw [Option.filter_some, if_pos (by simpa using hne)]

end Record

/-! ## Only the holder speaks -/

/-- No step of a refused instance changes what is on record. -/
def OnlyHolderSpeaks (fleet : ι → Instance) : Prop :=
  ∀ as s a s', exec (step fleet) start as = some s → Refused (s.pc a.mover) →
    step fleet s a = some s' → recordedOutcome s'.file = recordedOutcome s.file

/-- **Who is on record.** In every run, the outcome on record is the one last written under the
lock, or `quarantined`, or there is none; and a refused instance leaves the lock and what was
written under it, and the record too, but that it empties the file for its own write and
turns it into `quarantined`. -/
theorem recordedOutcome_of_refused (fleet : ι → Instance) (as : List (Act ι)) (s : State ι)
    (h : exec (step fleet) start as = some s) :
    (recordedOutcome s.file = none ∨ recordedOutcome s.file = s.held ∨
      recordedOutcome s.file = some quarantined) ∧
    ∀ a s', Refused (s.pc a.mover) → step fleet s a = some s' →
      s'.holder = s.holder ∧ s'.held = s.held ∧
        (recordedOutcome s'.file = recordedOutcome s.file ∨ s'.file = [] ∨
          recordedOutcome s'.file = some quarantined) := by
  have hinv := inv_exec h
  exact ⟨hinv.record.recorded, fun a s' hrefused hs => refused_step a hinv hrefused hs⟩

/-- Two instances in which nothing fails. -/
def twoInstances : Bool → Instance := fun _ => ⟨fun _ => 7, .working acceptedSource, .fresh none⟩

/-- The one publishes, and still has the lock when the other asks for it. -/
def contentionRun : List (Act Bool) :=
  [.attempt true, .openStatus true, .flush true 29, .close true, .openStatus true,
   .flush true 29, .close true, .attempt false, .openStatus false]

/-- Behind that run the other has emptied the file, and is about to write. -/
private theorem contentionRun_view :
    (exec (step twoInstances) start contentionRun).map
        (fun s => (s.held, recordedOutcome s.file, s.pc false)) =
      some (some published, none,
        .writing false ⟨quarantined, ascii "concurrent instance detected"⟩ 0 []) := by
  decide

theorem recordedOutcome_of_refused_contention :
    ∃ s, exec (step twoInstances) start contentionRun = some s ∧
      s.held = some published ∧ Refused (s.pc false) ∧
      (recordedOutcome s.file = none ∨ recordedOutcome s.file = s.held ∨
        recordedOutcome s.file = some quarantined) ∧
      ∀ a s', Refused (s.pc a.mover) → step twoInstances s a = some s' →
        s'.holder = s.holder ∧ s'.held = s.held ∧
          (recordedOutcome s'.file = recordedOutcome s.file ∨ s'.file = [] ∨
            recordedOutcome s'.file = some quarantined) := by
  obtain ⟨s, hrun, hview⟩ := Option.map_eq_some_iff.mp contentionRun_view
  obtain ⟨hheld, -, hpc⟩ : s.held = some published ∧ recordedOutcome s.file = none ∧
      s.pc false = .writing false ⟨quarantined, ascii "concurrent instance detected"⟩ 0 [] := by
    simpa using hview
  refine ⟨s, hrun, hheld, by rw [hpc]; trivial, ?_⟩
  exact recordedOutcome_of_refused twoInstances contentionRun s hrun

/-- **The other overwrites what the holder has published**, while the holder still has the
lock. -/
theorem onlyHolderSpeaks_fails :
    (∃ s, exec (step twoInstances) start (contentionRun ++ [.flush false 75]) = some s ∧
      s.holder = some true ∧ s.held = some published ∧
      recordedOutcome s.file = some quarantined) ∧
    ¬ OnlyHolderSpeaks twoInstances := by
  have hview : (exec (step twoInstances) start (contentionRun ++ [.flush false 75])).map
      (fun s => (s.holder, s.held, recordedOutcome s.file)) =
        some (some true, some published, some quarantined) := by
    decide
  obtain ⟨s', hrun', hview'⟩ := Option.map_eq_some_iff.mp hview
  obtain ⟨hholder, hheld, hrecorded'⟩ : s'.holder = some true ∧ s'.held = some published ∧
      recordedOutcome s'.file = some quarantined := by
    simpa using hview'
  refine ⟨⟨s', hrun', hholder, hheld, hrecorded'⟩, fun honly => ?_⟩
  -- the last step turns an empty record into `quarantined`
  obtain ⟨s, hrun, hstep⟩ := exec_concat_eq_some hrun'
  have hbefore := contentionRun_view
  rw [hrun] at hbefore
  obtain ⟨-, hrecorded, hpc⟩ : s.held = some published ∧ recordedOutcome s.file = none ∧
      s.pc false = .writing false ⟨quarantined, ascii "concurrent instance detected"⟩ 0 [] := by
    simpa using hbefore
  have hrefused : Refused (s.pc (Act.mover (.flush false 75))) := by
    show Refused (s.pc false)
    rw [hpc]
    trivial
  have hsame := honly contentionRun s (.flush false 75) s' hrun hrefused hstep
  rw [hrecorded, hrecorded'] at hsame
  exact absurd hsame (by simp)

end Swayam.Instances
