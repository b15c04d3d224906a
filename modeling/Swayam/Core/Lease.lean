import Mathlib.Logic.Function.Basic
import Swayam.Lib.Machine

/-!
# SWAYAM — `MutationLease`

A lease is taken at two levels: `CrossProcessGuard` opens the lock file and
waits for an exclusive `flock`, then `lock_mutation_state` marks the
`AtomicGuard` under its mutex. The destructor clears the mark in its body, and
the members behind it release the lock. Any number of processes, guards on the
one lock file, and leases on them interleave at these steps; a process may die
at any of them, and the system then drops its lock.

* `heldInv_step`, `markInv_step`, `mutexInv_step` — what one step keeps;
* `leases_exclude` — in every run at most one lease exists, a guard is marked only
  for a lease on it, and `lock_mutation_state` never throws;
* `enter_enabled` — and a lease that has the lock never waits for the mutex.
-/

namespace Swayam.Lease

open Machine

/-! ## The machine -/

/-- Where the construction and the destruction of a lease stand. -/
inductive LeasePc
  | idle
  | opened        -- the lock file is open
  | flocked       -- `xp_guard_` is constructed
  | entered       -- `lock_mutation_state` has locked `core_mutex_`
  | clear         -- `is_mutating_.load()` was false
  | throwing      -- it was true
  | stored        -- `is_mutating_.store(true)`
  | leased        -- `lock_mutation_state` has returned
  | unlocked      -- `unlock_mutation_state` has returned
  | destroyed     -- `xp_guard_` is released
  | failed        -- the constructor has thrown
  deriving DecidableEq, Repr

/-- The leases, the guards they are constructed on, and the processes of the guards. -/
structure Site (ι γ π : Type*) where
  guard : ι → γ
  home  : γ → π

structure State (ι γ π : Type*) where
  holder     : Option ι        -- the lease whose file description has the `flock`
  coreMutex  : γ → Option ι
  isMutating : γ → Bool
  dead       : π → Bool
  pc         : ι → LeasePc

inductive Act (ι π : Type*)
  | openLock (l : ι)
  | openFails (l : ι)
  | flock (l : ι)
  | flockFails (l : ι)
  | enter (l : ι)
  | load (l : ι)
  | store (l : ι)
  | leave (l : ι)
  | unwind (l : ι)
  | unlock (l : ι)
  | release (l : ι)
  | kill (p : π)
  deriving DecidableEq, Repr

variable {ι γ π : Type*}

/-- No lease has been constructed, and every process is alive. -/
def start : State ι γ π := ⟨none, fun _ => none, fun _ => false, fun _ => false, fun _ => .idle⟩

/-- The process of the lease is alive. -/
def Site.Live (site : Site ι γ π) (s : State ι γ π) (l : ι) : Prop :=
  s.dead (site.home (site.guard l)) = false

instance (site : Site ι γ π) (s : State ι γ π) (l : ι) : Decidable (site.Live s l) :=
  inferInstanceAs (Decidable (_ = false))

/-- The lease `l` moves to `pc`. -/
def State.setPc [DecidableEq ι] (s : State ι γ π) (l : ι) (pc : LeasePc) : State ι γ π :=
  { s with pc := Function.update s.pc l pc }

/-- One step of a constructor or destructor, or the death of a process. -/
def step [DecidableEq ι] [DecidableEq γ] [DecidableEq π] (site : Site ι γ π)
    (s : State ι γ π) : Act ι π → Option (State ι γ π)
  | .openLock l =>
    if site.Live s l ∧ s.pc l = .idle then some (s.setPc l .opened) else none
  | .openFails l =>
    if site.Live s l ∧ s.pc l = .idle then some (s.setPc l .failed) else none
  | .flock l =>
    -- blocks while another file description has the lock
    if site.Live s l ∧ s.pc l = .opened ∧ s.holder = none then
      some ({ s with holder := some l }.setPc l .flocked)
    else none
  | .flockFails l =>
    if site.Live s l ∧ s.pc l = .opened then some (s.setPc l .failed) else none
  | .enter l =>
    if site.Live s l ∧ s.pc l = .flocked ∧ s.coreMutex (site.guard l) = none then
      some ({ s with
        coreMutex := Function.update s.coreMutex (site.guard l) (some l) }.setPc l .entered)
    else none
  | .load l =>
    if site.Live s l ∧ s.pc l = .entered then
      some (s.setPc l (if s.isMutating (site.guard l) then .throwing else .clear))
    else none
  | .store l =>
    if site.Live s l ∧ s.pc l = .clear then
      some ({ s with
        isMutating := Function.update s.isMutating (site.guard l) true }.setPc l .stored)
    else none
  | .leave l =>
    if site.Live s l ∧ s.pc l = .stored then
      some ({ s with
        coreMutex := Function.update s.coreMutex (site.guard l) none }.setPc l .leased)
    else none
  | .unwind l =>
    -- the exception leaves the `lock_guard` and the constructed member `xp_guard_`
    if site.Live s l ∧ s.pc l = .throwing then
      some ({ s with
        coreMutex := Function.update s.coreMutex (site.guard l) none
        holder := none }.setPc l .failed)
    else none
  | .unlock l =>
    if site.Live s l ∧ s.pc l = .leased then
      some ({ s with
        isMutating := Function.update s.isMutating (site.guard l) false }.setPc l .unlocked)
    else none
  | .release l =>
    if site.Live s l ∧ s.pc l = .unlocked then
      some ({ s with holder := none }.setPc l .destroyed)
    else none
  | .kill p =>
    some { s with
      dead := Function.update s.dead p true
      holder := s.holder.filter fun l => site.home (site.guard l) ≠ p }

/-! ## Stages -/

/-- The stages at which a lease has the lock. -/
def InLock : LeasePc → Prop
  | .flocked | .entered | .clear | .throwing | .stored | .leased | .unlocked => True
  | _ => False

/-- The stages at which a lease has the mutex of its guard. -/
def InMutex : LeasePc → Prop
  | .entered | .clear | .throwing | .stored => True
  | _ => False

/-- The stages between the `store` of `lock_mutation_state` and that of
`unlock_mutation_state`. -/
def Marking : LeasePc → Prop
  | .stored | .leased => True
  | _ => False

/-- Whoever has the mark to clear is under the lock, -/
theorem inLock_of_marking {pc : LeasePc} (h : Marking pc) : InLock pc := by
  cases pc with
  | stored | leased => exact trivial
  | idle | opened | flocked | entered | clear | throwing | unlocked | destroyed | failed =>
    exact h.elim

/-- and so is whoever is in the mutex. -/
theorem inLock_of_inMutex {pc : LeasePc} (h : InMutex pc) : InLock pc := by
  cases pc with
  | entered | clear | throwing | stored => exact trivial
  | idle | opened | flocked | leased | unlocked | destroyed | failed => exact h.elim

/-- The lease exists: its constructor has returned, and its destructor has not. -/
def Site.Exists (site : Site ι γ π) (s : State ι γ π) (l : ι) : Prop :=
  site.Live s l ∧ (s.pc l = .leased ∨ s.pc l = .unlocked)

/-! ## What one step does -/

section Steps

variable {site : Site ι γ π} {s s' : State ι γ π}

/-- Who is alive behind a death was alive before it, and is of another process. -/
theorem live_of_update [DecidableEq π] {p q : π}
    (h : Function.update s.dead p true q = false) : q ≠ p ∧ s.dead q = false := by
  rcases eq_or_ne q p with rfl | hne
  · rw [Function.update_self] at h
    exact absurd h (by simp)
  · rw [Function.update_of_ne hne] at h
    exact ⟨hne, h⟩

variable [DecidableEq ι]

@[simp] theorem setPc_self (l : ι) (pc : LeasePc) : (s.setPc l pc).pc l = pc := by
  simp [State.setPc]

theorem setPc_of_ne {l q : ι} (pc : LeasePc) (h : q ≠ l) : (s.setPc l pc).pc q = s.pc q := by
  simp [State.setPc, h]

variable [DecidableEq γ] [DecidableEq π]

theorem step_openLock {l : ι} : step site s (.openLock l) = some s' ↔
    (site.Live s l ∧ s.pc l = .idle) ∧ s' = s.setPc l .opened :=
  guarded_eq_some

theorem step_openFails {l : ι} : step site s (.openFails l) = some s' ↔
    (site.Live s l ∧ s.pc l = .idle) ∧ s' = s.setPc l .failed :=
  guarded_eq_some

theorem step_flock {l : ι} : step site s (.flock l) = some s' ↔
    (site.Live s l ∧ s.pc l = .opened ∧ s.holder = none) ∧
      s' = { s with holder := some l }.setPc l .flocked :=
  guarded_eq_some

theorem step_flockFails {l : ι} : step site s (.flockFails l) = some s' ↔
    (site.Live s l ∧ s.pc l = .opened) ∧ s' = s.setPc l .failed :=
  guarded_eq_some

theorem step_enter {l : ι} : step site s (.enter l) = some s' ↔
    (site.Live s l ∧ s.pc l = .flocked ∧ s.coreMutex (site.guard l) = none) ∧
      s' = { s with
        coreMutex := Function.update s.coreMutex (site.guard l) (some l) }.setPc l .entered :=
  guarded_eq_some

theorem step_load {l : ι} : step site s (.load l) = some s' ↔
    (site.Live s l ∧ s.pc l = .entered) ∧
      s' = s.setPc l (if s.isMutating (site.guard l) then .throwing else .clear) :=
  guarded_eq_some

theorem step_store {l : ι} : step site s (.store l) = some s' ↔
    (site.Live s l ∧ s.pc l = .clear) ∧
      s' = { s with
        isMutating := Function.update s.isMutating (site.guard l) true }.setPc l .stored :=
  guarded_eq_some

theorem step_leave {l : ι} : step site s (.leave l) = some s' ↔
    (site.Live s l ∧ s.pc l = .stored) ∧
      s' = { s with
        coreMutex := Function.update s.coreMutex (site.guard l) none }.setPc l .leased :=
  guarded_eq_some

theorem step_unwind {l : ι} : step site s (.unwind l) = some s' ↔
    (site.Live s l ∧ s.pc l = .throwing) ∧
      s' = { s with
        coreMutex := Function.update s.coreMutex (site.guard l) none
        holder := none }.setPc l .failed :=
  guarded_eq_some

theorem step_unlock {l : ι} : step site s (.unlock l) = some s' ↔
    (site.Live s l ∧ s.pc l = .leased) ∧
      s' = { s with
        isMutating := Function.update s.isMutating (site.guard l) false }.setPc l .unlocked :=
  guarded_eq_some

theorem step_release {l : ι} : step site s (.release l) = some s' ↔
    (site.Live s l ∧ s.pc l = .unlocked) ∧ s' = { s with holder := none }.setPc l .destroyed :=
  guarded_eq_some

theorem step_kill {p : π} : step site s (.kill p) = some s' ↔ s' = { s with
    dead := Function.update s.dead p true
    holder := s.holder.filter fun l => site.home (site.guard l) ≠ p } := by
  rw [step, Option.some.injEq, eq_comm]

end Steps

/-! ## The lock -/

section Lock

variable {site : Site ι γ π} {s s' : State ι γ π}

/-- A live lease at these stages has the lock. -/
def HeldInv (site : Site ι γ π) (s : State ι γ π) : Prop :=
  ∀ l, site.Live s l → InLock (s.pc l) → s.holder = some l

/-- Two live leases that have the lock are one. -/
theorem HeldInv.unique (hinv : HeldInv site s) {l q : ι} (hl : site.Live s l)
    (hq : site.Live s q) (hlock : InLock (s.pc l)) (hlock' : InLock (s.pc q)) : l = q := by
  have hboth : some l = some q := (hinv l hl hlock).symm.trans (hinv q hq hlock')
  exact Option.some.inj hboth

variable [DecidableEq ι]

/-- Moving one site on keeps the lock with its holder. -/
theorem heldInv_setPc {l : ι} {pc : LeasePc} (hinv : HeldInv site s)
    (hlock : site.Live s l → InLock pc → s.holder = some l) : HeldInv site (s.setPc l pc) := by
  intro q hlive hq
  rcases eq_or_ne q l with rfl | hne
  · rw [setPc_self] at hq
    exact hlock hlive hq
  · rw [setPc_of_ne pc hne] at hq
    exact hinv q hlive hq

/-- A lease that goes on within the lock. -/
theorem heldInv_within {l : ι} {pc : LeasePc} (hinv : HeldInv site s)
    (hlock : InLock (s.pc l)) : HeldInv site (s.setPc l pc) :=
  heldInv_setPc hinv fun hlive _ => hinv l hlive hlock

/-- A lease that gives the lock back. -/
theorem heldInv_release {l : ι} {pc : LeasePc} (hinv : HeldInv site s) (hlive : site.Live s l)
    (hlock : InLock (s.pc l)) (hpc : ¬ InLock pc) (coreMutex : γ → Option ι) :
    HeldInv site ({ s with coreMutex := coreMutex, holder := none }.setPc l pc) := by
  intro q hq hin
  rcases eq_or_ne q l with rfl | hne
  · rw [setPc_self] at hin
    exact absurd hin hpc
  · rw [setPc_of_ne pc hne] at hin
    exact absurd (hinv.unique hq hlive hin hlock) hne

variable [DecidableEq γ] [DecidableEq π]

/-- **The lock, step by step.** -/
theorem heldInv_step (a : Act ι π) (hinv : HeldInv site s) (h : step site s a = some s') :
    HeldInv site s' := by
  cases a with
  | openLock l =>
    obtain ⟨-, rfl⟩ := step_openLock.mp h
    exact heldInv_setPc hinv fun _ hin => hin.elim
  | openFails l =>
    obtain ⟨-, rfl⟩ := step_openFails.mp h
    exact heldInv_setPc hinv fun _ hin => hin.elim
  | flock l =>
    obtain ⟨⟨-, -, hfree⟩, rfl⟩ := step_flock.mp h
    refine heldInv_setPc (fun q hlive hin => ?_) fun _ _ => rfl
    -- a second holder would have had the lock before
    have hheld : s.holder = some q := hinv q hlive hin
    rw [hfree] at hheld
    exact absurd hheld (by simp)
  | flockFails l =>
    obtain ⟨-, rfl⟩ := step_flockFails.mp h
    exact heldInv_setPc hinv fun _ hin => hin.elim
  | enter l =>
    obtain ⟨⟨-, hpc, -⟩, rfl⟩ := step_enter.mp h
    exact heldInv_within (fun q hq => hinv q hq) (by rw [hpc]; trivial)
  | load l =>
    obtain ⟨⟨-, hpc⟩, rfl⟩ := step_load.mp h
    exact heldInv_within hinv (by rw [hpc]; trivial)
  | store l =>
    obtain ⟨⟨-, hpc⟩, rfl⟩ := step_store.mp h
    exact heldInv_within (fun q hq => hinv q hq) (by rw [hpc]; trivial)
  | leave l =>
    obtain ⟨⟨-, hpc⟩, rfl⟩ := step_leave.mp h
    exact heldInv_within (fun q hq => hinv q hq) (by rw [hpc]; trivial)
  | unwind l =>
    obtain ⟨⟨hlive, hpc⟩, rfl⟩ := step_unwind.mp h
    exact heldInv_release hinv hlive (by rw [hpc]; trivial) id _
  | unlock l =>
    obtain ⟨⟨-, hpc⟩, rfl⟩ := step_unlock.mp h
    exact heldInv_within (fun q hq => hinv q hq) (by rw [hpc]; trivial)
  | release l =>
    obtain ⟨⟨hlive, hpc⟩, rfl⟩ := step_release.mp h
    exact heldInv_release hinv hlive (by rw [hpc]; trivial) id s.coreMutex
  | kill p =>
    obtain rfl := step_kill.mp h
    intro l hlive hin
    -- a survivor that has the lock keeps it
    obtain ⟨hne, hbefore⟩ := live_of_update hlive
    show s.holder.filter _ = some l
    rw [hinv l hbefore hin, Option.filter_some, if_pos (by simpa using hne)]

end Lock

/-! ## The mark and the mutex -/

section Mark

variable {site : Site ι γ π} {s s' : State ι γ π}

/-- The guard of a live process is marked only for a lease on it. -/
def MarkInv (site : Site ι γ π) (s : State ι γ π) : Prop :=
  ∀ g, s.dead (site.home g) = false → s.isMutating g = true →
    ∃ l, site.guard l = g ∧ Marking (s.pc l)

/-- The mutex of a live process's guard is locked by a lease on it. -/
def MutexInv (site : Site ι γ π) (s : State ι γ π) : Prop :=
  ∀ g l, s.dead (site.home g) = false → s.coreMutex g = some l →
    site.guard l = g ∧ InMutex (s.pc l)

variable [DecidableEq ι]

/-- And the mark. -/
theorem markInv_setPc {l : ι} {pc : LeasePc} (hinv : MarkInv site s)
    (hmark : Marking (s.pc l) → Marking pc) : MarkInv site (s.setPc l pc) := by
  intro g hlive hset
  obtain ⟨q, hq, hmarking⟩ := hinv g hlive hset
  refine ⟨q, hq, ?_⟩
  rcases eq_or_ne q l with rfl | hne
  · rw [setPc_self]
    exact hmark hmarking
  · rw [setPc_of_ne pc hne]
    exact hmarking

/-- And the mutex. -/
theorem mutexInv_setPc {l : ι} {pc : LeasePc} (hinv : MutexInv site s)
    (hmutex : InMutex (s.pc l) → InMutex pc) : MutexInv site (s.setPc l pc) := by
  intro g q hlive hlocked
  obtain ⟨hq, hin⟩ := hinv g q hlive hlocked
  refine ⟨hq, ?_⟩
  rcases eq_or_ne q l with rfl | hne
  · rw [setPc_self]
    exact hmutex hin
  · rw [setPc_of_ne pc hne]
    exact hin

variable [DecidableEq γ]

/-- The guard of a lease is set to `b`: the other guards keep their leases. -/
theorem markInv_update {l : ι} {pc : LeasePc} {b : Bool} (hinv : MarkInv site s)
    (hmark : b = true → Marking pc) : MarkInv site
      ({ s with isMutating := Function.update s.isMutating (site.guard l) b }.setPc l pc) := by
  intro g hlive hset
  have hbit : Function.update s.isMutating (site.guard l) b g = true := hset
  rcases eq_or_ne g (site.guard l) with rfl | hne
  · rw [Function.update_self] at hbit
    refine ⟨l, rfl, ?_⟩
    rw [setPc_self]
    exact hmark hbit
  · rw [Function.update_of_ne hne] at hbit
    obtain ⟨q, hq, hmarking⟩ := hinv g hlive hbit
    have hother : q ≠ l := by
      rintro rfl
      exact hne hq.symm
    refine ⟨q, hq, ?_⟩
    rw [setPc_of_ne pc hother]
    exact hmarking

/-- The mutex of a lease's guard is given to `o`: the other guards keep theirs. -/
theorem mutexInv_update {l : ι} {pc : LeasePc} {o holder : Option ι} (hinv : MutexInv site s)
    (hmutex : ∀ q, o = some q → q = l ∧ InMutex pc) : MutexInv site
      ({ s with
        coreMutex := Function.update s.coreMutex (site.guard l) o
        holder := holder }.setPc l pc) := by
  intro g q hlive hlocked
  have howner : Function.update s.coreMutex (site.guard l) o g = some q := hlocked
  rcases eq_or_ne g (site.guard l) with rfl | hne
  · rw [Function.update_self] at howner
    obtain ⟨rfl, hin⟩ := hmutex q howner
    refine ⟨rfl, ?_⟩
    rw [setPc_self]
    exact hin
  · rw [Function.update_of_ne hne] at howner
    obtain ⟨hq, hin⟩ := hinv g q hlive howner
    have hother : q ≠ l := by
      rintro rfl
      exact hne hq.symm
    refine ⟨hq, ?_⟩
    rw [setPc_of_ne pc hother]
    exact hin

variable [DecidableEq π]

/-- **The mark, step by step.** -/
theorem markInv_step (a : Act ι π) (hinv : MarkInv site s) (h : step site s a = some s') :
    MarkInv site s' := by
  cases a with
  | openLock l =>
    obtain ⟨⟨-, hpc⟩, rfl⟩ := step_openLock.mp h
    exact markInv_setPc hinv (by rw [hpc]; exact False.elim)
  | openFails l =>
    obtain ⟨⟨-, hpc⟩, rfl⟩ := step_openFails.mp h
    exact markInv_setPc hinv (by rw [hpc]; exact False.elim)
  | flock l =>
    obtain ⟨⟨-, hpc, -⟩, rfl⟩ := step_flock.mp h
    exact markInv_setPc (fun g hg => hinv g hg) (by simp only [hpc]; exact False.elim)
  | flockFails l =>
    obtain ⟨⟨-, hpc⟩, rfl⟩ := step_flockFails.mp h
    exact markInv_setPc hinv (by rw [hpc]; exact False.elim)
  | enter l =>
    obtain ⟨⟨-, hpc, -⟩, rfl⟩ := step_enter.mp h
    exact markInv_setPc (fun g hg => hinv g hg) (by simp only [hpc]; exact False.elim)
  | load l =>
    obtain ⟨⟨-, hpc⟩, rfl⟩ := step_load.mp h
    exact markInv_setPc hinv (by rw [hpc]; exact False.elim)
  | store l =>
    -- from here on the mark is this lease's to clear
    obtain ⟨-, rfl⟩ := step_store.mp h
    exact markInv_update hinv fun _ => trivial
  | leave l =>
    obtain ⟨-, rfl⟩ := step_leave.mp h
    exact markInv_setPc (fun g hg => hinv g hg) fun _ => trivial
  | unwind l =>
    obtain ⟨⟨-, hpc⟩, rfl⟩ := step_unwind.mp h
    exact markInv_setPc (fun g hg => hinv g hg) (by simp only [hpc]; exact False.elim)
  | unlock l =>
    obtain ⟨-, rfl⟩ := step_unlock.mp h
    exact markInv_update hinv fun hno => absurd hno (by simp)
  | release l =>
    obtain ⟨⟨-, hpc⟩, rfl⟩ := step_release.mp h
    exact markInv_setPc (fun g hg => hinv g hg) (by simp only [hpc]; exact False.elim)
  | kill p =>
    -- the mark dies with its process
    obtain rfl := step_kill.mp h
    intro g hlive hset
    exact hinv g (live_of_update hlive).2 hset

/-- **The mutex, step by step.** -/
theorem mutexInv_step (a : Act ι π) (hinv : MutexInv site s) (h : step site s a = some s') :
    MutexInv site s' := by
  cases a with
  | openLock l =>
    obtain ⟨⟨-, hpc⟩, rfl⟩ := step_openLock.mp h
    exact mutexInv_setPc hinv (by rw [hpc]; exact False.elim)
  | openFails l =>
    obtain ⟨⟨-, hpc⟩, rfl⟩ := step_openFails.mp h
    exact mutexInv_setPc hinv (by rw [hpc]; exact False.elim)
  | flock l =>
    obtain ⟨⟨-, hpc, -⟩, rfl⟩ := step_flock.mp h
    exact mutexInv_setPc (fun g q hg => hinv g q hg) (by simp only [hpc]; exact False.elim)
  | flockFails l =>
    obtain ⟨⟨-, hpc⟩, rfl⟩ := step_flockFails.mp h
    exact mutexInv_setPc hinv (by rw [hpc]; exact False.elim)
  | enter l =>
    obtain ⟨-, rfl⟩ := step_enter.mp h
    exact mutexInv_update hinv fun q hq => ⟨(Option.some.inj hq).symm, trivial⟩
  | load l =>
    obtain ⟨-, rfl⟩ := step_load.mp h
    refine mutexInv_setPc hinv fun _ => ?_
    split
    · exact trivial
    · exact trivial
  | store l =>
    obtain ⟨-, rfl⟩ := step_store.mp h
    exact mutexInv_setPc (fun g q hg => hinv g q hg) fun _ => trivial
  | leave l =>
    obtain ⟨-, rfl⟩ := step_leave.mp h
    exact mutexInv_update hinv fun q hq => absurd hq (by simp)
  | unwind l =>
    obtain ⟨-, rfl⟩ := step_unwind.mp h
    exact mutexInv_update hinv fun q hq => absurd hq (by simp)
  | unlock l =>
    obtain ⟨⟨-, hpc⟩, rfl⟩ := step_unlock.mp h
    exact mutexInv_setPc (fun g q hg => hinv g q hg) (by simp only [hpc]; exact False.elim)
  | release l =>
    obtain ⟨⟨-, hpc⟩, rfl⟩ := step_release.mp h
    exact mutexInv_setPc (fun g q hg => hinv g q hg) (by simp only [hpc]; exact False.elim)
  | kill p =>
    -- a dead process is in no mutex: the invariant speaks of the living
    obtain rfl := step_kill.mp h
    intro g l hlive hlocked
    exact hinv g l (live_of_update hlive).2 hlocked

end Mark

/-! ## The dead branch -/

section Runs

variable {site : Site ι γ π} {s s' : State ι γ π}

/-- A lease that has the lock and has not marked its guard finds it unmarked. -/
theorem unmarked_of_inLock (hheld : HeldInv site s) (hmark : MarkInv site s) {l : ι}
    (hlive : site.Live s l) (hlock : InLock (s.pc l)) (hnot : ¬ Marking (s.pc l)) :
    s.isMutating (site.guard l) = false := by
  by_contra hset
  rw [Bool.not_eq_false] at hset
  obtain ⟨q, hq, hmarking⟩ := hmark (site.guard l) hlive hset
  -- the marking lease lives in the same process, and has the lock too
  have hliveq : site.Live s q := by
    rw [Site.Live, hq]
    exact hlive
  have hsame : q = l := hheld.unique hliveq hlive (inLock_of_marking hmarking) hlock
  exact hnot (hsame ▸ hmarking)

variable [DecidableEq ι] [DecidableEq γ] [DecidableEq π]

/-- `lock_mutation_state` does not throw. -/
theorem noThrow_step (a : Act ι π) (hheld : HeldInv site s) (hmark : MarkInv site s)
    (hinv : ∀ l, s.pc l ≠ .throwing) (h : step site s a = some s') (l : ι) :
    s'.pc l ≠ .throwing := by
  have hset : ∀ (t : State ι γ π) (q : ι) (pc : LeasePc), t.pc = s.pc → pc ≠ .throwing →
      (t.setPc q pc).pc l ≠ .throwing := by
    intro t q pc hsame hpc
    rcases eq_or_ne l q with rfl | hne
    · rw [setPc_self]
      exact hpc
    · rw [setPc_of_ne pc hne, hsame]
      exact hinv l
  cases a with
  | openLock q => obtain ⟨-, rfl⟩ := step_openLock.mp h; exact hset _ q _ rfl (by simp)
  | openFails q => obtain ⟨-, rfl⟩ := step_openFails.mp h; exact hset _ q _ rfl (by simp)
  | flock q => obtain ⟨-, rfl⟩ := step_flock.mp h; exact hset _ q _ rfl (by simp)
  | flockFails q => obtain ⟨-, rfl⟩ := step_flockFails.mp h; exact hset _ q _ rfl (by simp)
  | enter q => obtain ⟨-, rfl⟩ := step_enter.mp h; exact hset _ q _ rfl (by simp)
  | load q =>
    obtain ⟨⟨hlive, hpc⟩, rfl⟩ := step_load.mp h
    -- the only step that could get there
    have hunmarked : s.isMutating (site.guard q) = false :=
      unmarked_of_inLock hheld hmark hlive (by rw [hpc]; trivial) (by rw [hpc]; exact id)
    rw [hunmarked]
    exact hset s q _ rfl (by simp)
  | store q => obtain ⟨-, rfl⟩ := step_store.mp h; exact hset _ q _ rfl (by simp)
  | leave q => obtain ⟨-, rfl⟩ := step_leave.mp h; exact hset _ q _ rfl (by simp)
  | unwind q => obtain ⟨-, rfl⟩ := step_unwind.mp h; exact hset _ q _ rfl (by simp)
  | unlock q => obtain ⟨-, rfl⟩ := step_unlock.mp h; exact hset _ q _ rfl (by simp)
  | release q => obtain ⟨-, rfl⟩ := step_release.mp h; exact hset _ q _ rfl (by simp)
  | kill p => obtain rfl := step_kill.mp h; exact hinv l

/-! ## Whole runs -/

/-- The invariant of the leases. -/
structure LeaseInv (site : Site ι γ π) (s : State ι γ π) : Prop where
  held    : HeldInv site s
  mark    : MarkInv site s
  mutex   : MutexInv site s
  noThrow : ∀ l, s.pc l ≠ .throwing

/-- One step of any site, or the death of a process, keeps all three. -/
theorem leaseInv_step {a : Act ι π} (hinv : LeaseInv site s) (h : step site s a = some s') :
    LeaseInv site s' where
  held := heldInv_step a hinv.held h
  mark := markInv_step a hinv.mark h
  mutex := mutexInv_step a hinv.mutex h
  noThrow := noThrow_step a hinv.held hinv.mark hinv.noThrow h

/-- So every run does. -/
theorem leaseInv_exec {as : List (Act ι π)} (h : exec (step site) start as = some s) :
    LeaseInv site s := by
  refine exec_invariant (fun s a s' => leaseInv_step) ?_ h
  refine ⟨fun _ _ hin => hin.elim, fun _ _ hset => ?_, fun _ _ _ hlocked => ?_, fun _ => ?_⟩
  · exact absurd hset (by simp [start])
  · exact absurd hlocked (by simp [start])
  · simp [start]

/-- **The lock comes first**: in every run, a live lease that has it finds the mutex of its
guard free, so it never waits a second time. -/
theorem enter_enabled {as : List (Act ι π)} (h : exec (step site) start as = some s) {l : ι}
    (hlive : site.Live s l) (hpc : s.pc l = .flocked) :
    ∃ s', step site s (.enter l) = some s' := by
  have hinv := leaseInv_exec h
  refine ⟨_, step_enter.mpr ⟨⟨hlive, hpc, ?_⟩, rfl⟩⟩
  cases hmutex : s.coreMutex (site.guard l) with
  | none => rfl
  | some q =>
    exfalso
    obtain ⟨hq, hin⟩ := hinv.mutex _ _ hlive hmutex
    have hliveq : site.Live s q := by
      rw [Site.Live, hq]
      exact hlive
    have hsame : q = l :=
      hinv.held.unique hliveq hlive (inLock_of_inMutex hin) (by rw [hpc]; trivial)
    rw [hsame, hpc] at hin
    exact hin

end Runs

/-- **A lease excludes every other, and is never refused by its own guard.** In every run of any
number of processes, guards and leases, with deaths at any step: at most one lease exists; the
guard of a live process is marked only between the two stores of a lease on it; and
`lock_mutation_state` never throws. -/
theorem leases_exclude [DecidableEq ι] [DecidableEq γ] [DecidableEq π] (site : Site ι γ π)
    (as : List (Act ι π)) (s : State ι γ π) (h : exec (step site) start as = some s) :
    (∀ l q, site.Exists s l → site.Exists s q → l = q) ∧
    (∀ g, s.dead (site.home g) = false → s.isMutating g = true →
      ∃ l, site.guard l = g ∧ Marking (s.pc l)) ∧
    ∀ l, s.pc l ≠ .throwing := by
  have hinv := leaseInv_exec h
  have hlock : ∀ l, site.Exists s l → InLock (s.pc l) := by
    rintro l ⟨-, hpc | hpc⟩
    · rw [hpc]
      trivial
    · rw [hpc]
      trivial
  refine ⟨fun l q hl hq => ?_, hinv.mark, hinv.noThrow⟩
  exact hinv.held.unique hl.1 hq.1 (hlock l hl) (hlock q hq)

/-- Leases 0 and 1 on the guard of process 0, leases 2 and 3 on that of process 1. -/
def twoProcesses : Site Nat Nat Nat := ⟨fun l => l / 2, id⟩

/-- Process 0 dies with its lease; the one that waits for the lock gets it. -/
def deathRun : List (Act Nat Nat) :=
  [.openLock 0, .openLock 2, .flock 0, .enter 0, .load 0, .store 0, .leave 0, .kill 0,
   .flock 2, .enter 2, .load 2, .store 2, .leave 2]

/-- A process dies with the lease, another takes it. -/
theorem leases_exclude_deathRun :
    ∃ s, exec (step twoProcesses) start deathRun = some s ∧ s.pc 2 = .leased ∧
      (∀ l q, twoProcesses.Exists s l → twoProcesses.Exists s q → l = q) ∧
      (∀ g, s.dead (twoProcesses.home g) = false → s.isMutating g = true →
        ∃ l, twoProcesses.guard l = g ∧ Marking (s.pc l)) ∧
      ∀ l, s.pc l ≠ .throwing := by
  have hview : (exec (step twoProcesses) start deathRun).map (fun t => t.pc 2) =
      some .leased := by decide
  obtain ⟨s, hrun, hleased⟩ := Option.map_eq_some_iff.mp hview
  exact ⟨s, hrun, hleased, leases_exclude twoProcesses deathRun s hrun⟩

end Swayam.Lease
