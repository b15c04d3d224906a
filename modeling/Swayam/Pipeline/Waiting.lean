import Swayam.Pipeline.Runner

/-!
# SWAYAM — `enforce_timeout`

The polling loop, over the outcomes of its `waitpid` calls in their order. A
poll that finds the child running counts a tick; one that a signal interrupts
is repeated and counts nothing. Behind the last tick the loop kills the process
group and waits once more, this time blocking, and that call is not repeated.

* `count_running_le` — the ticks are bounded, however the polls come out;
* `result_iff` — the result is true exactly when a poll has seen exit status 0, and
  `enforceTimeout_childEnd`, it is what the runner makes of the end of the child;
* `returns_iff` — the loop comes to an end;
* `reapsAndBounds_iff` — the child is reaped as well, unless the time runs out and
  a signal interrupts the blocking wait.
-/

namespace Swayam.Pipeline

/-! ## The loop -/

/-- What `waitpid(pid, &status, WNOHANG)` returns. -/
inductive Poll
  | running                        -- 0
  | interrupted                    -- -1 with `EINTR`
  | exited (code : Nat)
  | signaled (signalNum : Nat)
  | failed                         -- -1 with anything else
  deriving DecidableEq, Repr

/-- What `waitpid(pid, &status, 0)` returns behind the kill. -/
inductive BlockingWait
  | reaps
  | interrupted                    -- -1 with `EINTR`
  deriving DecidableEq, Repr

/-- What the function returns, and what has become of its child by then. -/
structure Returned where
  result   : Bool
  childEnd : ChildEnd
  reaped   : Bool
  deriving DecidableEq, Repr

/-- The `do` loop from `timeout_counter` on: the polls that it makes of these, and what it returns,
if it does. -/
def enforceTimeoutLoop (maxTicks : Nat) (blocking : BlockingWait) :
    Nat → List Poll → List Poll × Option Returned
  | _, [] => ([], none)
  | timeoutCounter, .running :: polls =>
    if timeoutCounter + 1 > maxTicks then
      -- SIGTERM, SIGKILL, and one blocking wait
      ([.running], some ⟨false, .timedOut, blocking = .reaps⟩)
    else
      let (made, returned) := enforceTimeoutLoop maxTicks blocking (timeoutCounter + 1) polls
      (.running :: made, returned)
  | timeoutCounter, .interrupted :: polls =>
    let (made, returned) := enforceTimeoutLoop maxTicks blocking timeoutCounter polls
    (.interrupted :: made, returned)
  | _, .exited code :: _ => ([.exited code], some ⟨code = 0, .exited code, true⟩)
  | _, .signaled signalNum :: _ => ([.signaled signalNum], some ⟨false, .signaled signalNum, true⟩)
  | _, .failed :: _ => ([.failed], some ⟨false, .lost, false⟩)

/-- `enforce_timeout`, on these outcomes of its calls. -/
def enforceTimeoutRun (maxTimeoutMs : Nat) (blocking : BlockingWait) (polls : List Poll) :
    List Poll × Option Returned :=
  enforceTimeoutLoop (maxTimeoutMs / 100) blocking 0 polls

/-- What the callers see of it. -/
theorem enforceTimeout_childEnd {maxTicks : Nat} {blocking : BlockingWait}
    {timeoutCounter : Nat} {polls : List Poll} {r : Returned}
    (h : (enforceTimeoutLoop maxTicks blocking timeoutCounter polls).2 = some r) :
    r.result = enforceTimeout r.childEnd := by
  induction polls generalizing timeoutCounter with
  | nil => exact absurd h (by simp [enforceTimeoutLoop])
  | cons poll polls ih =>
    cases poll with
    | running =>
      rw [enforceTimeoutLoop] at h
      split at h
      · cases h
        rfl
      · exact ih h
    | interrupted => exact ih h
    | exited code =>
      cases h
      simp [enforceTimeout]
    | signaled signalNum =>
      cases h
      rfl
    | failed =>
      cases h
      rfl

/-! ## Its polls -/

section Polls

variable {maxTicks : Nat} {blocking : BlockingWait} {timeoutCounter : Nat} {polls : List Poll}

/-- A poll that ends the loop. -/
def Poll.ends : Poll → Bool
  | .running => false
  | .interrupted => false
  | _ => true

/-- The polls in front of the first that finds the child's end. -/
def beforeEnd (polls : List Poll) : List Poll := polls.takeWhile fun poll => !poll.ends

theorem beforeEnd_running : beforeEnd (.running :: polls) = .running :: beforeEnd polls := rfl

theorem beforeEnd_interrupted :
    beforeEnd (.interrupted :: polls) = .interrupted :: beforeEnd polls := rfl

/-- Nothing is in front of an end, -/
theorem beforeEnd_of_ends {poll : Poll} (h : poll.ends = true) : beforeEnd (poll :: polls) = [] :=
  List.takeWhile_cons_of_neg (by simp [h])

/-- and the loop makes no poll behind it. -/
theorem polls_of_ends {poll : Poll} (h : poll.ends = true) :
    (enforceTimeoutLoop maxTicks blocking timeoutCounter (poll :: polls)).1 = [poll] := by
  cases poll with
  | running => exact absurd h (by simp [Poll.ends])
  | interrupted => exact absurd h (by simp [Poll.ends])
  | _ => rfl

variable (blocking polls) in
/-- **The ticks are bounded**: each one counts, and the one behind the last returns. -/
theorem count_running_le (h : timeoutCounter ≤ maxTicks) :
    timeoutCounter + (enforceTimeoutLoop maxTicks blocking timeoutCounter polls).1.count .running
      ≤ maxTicks + 1 := by
  induction polls generalizing timeoutCounter with
  | nil =>
    simp only [enforceTimeoutLoop, List.count_nil]
    omega
  | cons poll polls ih =>
    cases poll with
    | running =>
      rw [enforceTimeoutLoop]
      split
      · simp only [List.count_singleton_self]
        omega
      · -- below the limit: one tick more, and the rest by induction
        rename_i htick
        have hrest := ih (show timeoutCounter + 1 ≤ maxTicks by omega)
        simp only [List.count_cons_self]
        omega
    | interrupted =>
      -- an interrupted call does not count
      have hrest := ih h
      show timeoutCounter + (Poll.interrupted ::
        (enforceTimeoutLoop maxTicks blocking timeoutCounter polls).1).count .running ≤ maxTicks + 1
      rw [List.count_cons_of_ne (by simp)]
      exact hrest
    | _ =>
      -- the last poll is the one that has found the end
      rw [polls_of_ends rfl, List.count_cons_of_ne (by simp), List.count_nil]
      omega

/-- **The result is that of the last poll**: true exactly when it saw exit status 0. -/
theorem result_iff {r : Returned}
    (h : (enforceTimeoutLoop maxTicks blocking timeoutCounter polls).2 = some r) :
    r.result = true ↔
      Poll.exited 0 ∈ (enforceTimeoutLoop maxTicks blocking timeoutCounter polls).1 := by
  induction polls generalizing timeoutCounter with
  | nil => exact absurd h (by simp [enforceTimeoutLoop])
  | cons poll polls ih =>
    cases poll with
    | running =>
      rw [enforceTimeoutLoop] at h ⊢
      split
      · rename_i htick
        rw [if_pos htick] at h
        cases h
        simp
      · rename_i htick
        rw [if_neg htick] at h
        rw [List.mem_cons, ih h]
        simp
    | interrupted =>
      rw [enforceTimeoutLoop] at h ⊢
      rw [List.mem_cons, ih h]
      simp
    | exited code =>
      -- the loop ends here, on the exit code alone
      cases h
      simp only [enforceTimeoutLoop, List.mem_singleton, Poll.exited.injEq, decide_eq_true_eq]
      exact eq_comm
    | signaled signalNum =>
      cases h
      simp [enforceTimeoutLoop]
    | failed =>
      cases h
      simp [enforceTimeoutLoop]

/-- **The loop comes to an end** as soon as there is an end to be seen, or ticks enough. -/
theorem returns_iff (h : timeoutCounter ≤ maxTicks) :
    (enforceTimeoutLoop maxTicks blocking timeoutCounter polls).2.isSome = true ↔
      (∃ poll ∈ polls, poll.ends = true) ∨ maxTicks < timeoutCounter + polls.count .running := by
  induction polls generalizing timeoutCounter with
  | nil =>
    simp only [enforceTimeoutLoop, List.count_nil]
    simpa using h
  | cons poll polls ih =>
    cases poll with
    | running =>
      rw [enforceTimeoutLoop, List.count_cons_self]
      split
      · have hlast : maxTicks < timeoutCounter + (polls.count .running + 1) := by omega
        simp [hlast]
      · have hshift : maxTicks < timeoutCounter + (polls.count .running + 1) ↔
            maxTicks < timeoutCounter + 1 + polls.count .running := by omega
        rw [hshift]
        simpa [Poll.ends] using ih (show timeoutCounter + 1 ≤ maxTicks by omega)
    | interrupted =>
      have hskip : (Poll.interrupted :: polls).count .running = polls.count .running :=
        List.count_cons_of_ne (by simp)
      rw [enforceTimeoutLoop, hskip]
      simpa [Poll.ends] using ih h
    | exited code => simp [enforceTimeoutLoop, Poll.ends]
    | signaled signalNum => simp [enforceTimeoutLoop, Poll.ends]
    | failed => simp [enforceTimeoutLoop, Poll.ends]

variable (blocking) in
/-- **When the time runs out**, the blocking wait decides whether the child is reaped. -/
theorem reaped_of_runsOut (h : timeoutCounter ≤ maxTicks)
    (hout : maxTicks < timeoutCounter + (beforeEnd polls).count .running) :
    (enforceTimeoutLoop maxTicks blocking timeoutCounter polls).2 =
      some ⟨false, .timedOut, blocking = .reaps⟩ := by
  induction polls generalizing timeoutCounter with
  | nil =>
    -- no poll is left, so the ticks cannot run out
    simp only [beforeEnd, List.takeWhile_nil, List.count_nil] at hout
    omega
  | cons poll polls ih =>
    cases poll with
    | running =>
      rw [beforeEnd_running, List.count_cons_self] at hout
      rw [enforceTimeoutLoop]
      split
      · rfl
      · exact ih (by omega) (by omega)
    | interrupted =>
      rw [beforeEnd_interrupted, List.count_cons_of_ne (by simp)] at hout
      exact ih h hout
    | _ =>
      -- the child has ended before the time is out
      rw [beforeEnd_of_ends rfl, List.count_nil] at hout
      omega

/-- **And when it does not**, the poll that found the end has reaped the child. -/
theorem reaped_of_inTime (hlive : Poll.failed ∉ polls)
    (hin : timeoutCounter + (beforeEnd polls).count .running ≤ maxTicks) {r : Returned}
    (hr : (enforceTimeoutLoop maxTicks blocking timeoutCounter polls).2 = some r) :
    r.reaped = true := by
  induction polls generalizing timeoutCounter with
  | nil => exact absurd hr (by simp [enforceTimeoutLoop])
  | cons poll polls ih =>
    rw [List.mem_cons, not_or] at hlive
    cases poll with
    | running =>
      rw [beforeEnd_running, List.count_cons_self] at hin
      rw [enforceTimeoutLoop, if_neg (by omega)] at hr
      exact ih hlive.2 (by omega) hr
    | interrupted =>
      rw [beforeEnd_interrupted, List.count_cons_of_ne (by simp)] at hin
      exact ih hlive.2 hin hr
    | exited code =>
      cases hr
      rfl
    | signaled signalNum =>
      cases hr
      rfl
    | failed => exact absurd rfl hlive.1

end Polls

/-! ## Reaping -/

/-- The ticks are bounded, the result is exact, and the child is reaped when the function
returns. -/
structure ReapsAndBounds (maxTimeoutMs : Nat) (run : List Poll × Option Returned) : Prop where
  bounded : run.1.count .running ≤ maxTimeoutMs / 100 + 1
  exact   : ∀ r, run.2 = some r → (r.result = true ↔ Poll.exited 0 ∈ run.1)
  reaped  : ∀ r, run.2 = some r → r.reaped = true

/-- **`enforce_timeout` reaps its child, when it does.** For every time limit and every sequence of
outcomes for a live child: the polls that find it running are bounded, the result is true
exactly when a poll saw exit status 0, and the child is reaped whenever the function returns, if
and only if the polls in front of the child's end stay within the limit, or no signal interrupts
the blocking wait. -/
theorem reapsAndBounds_iff (maxTimeoutMs : Nat) (blocking : BlockingWait) (polls : List Poll)
    (hlive : Poll.failed ∉ polls) :
    ReapsAndBounds maxTimeoutMs (enforceTimeoutRun maxTimeoutMs blocking polls) ↔
      ((beforeEnd polls).count .running ≤ maxTimeoutMs / 100 ∨ blocking ≠ .interrupted) := by
  constructor
  · intro h
    by_cases hout : (beforeEnd polls).count .running ≤ maxTimeoutMs / 100
    · exact Or.inl hout
    · right
      intro hinterrupted
      -- out of time with the wait interrupted, it returns without the child
      have hreturned := reaped_of_runsOut blocking (Nat.zero_le (maxTimeoutMs / 100))
        (by omega : maxTimeoutMs / 100 < 0 + (beforeEnd polls).count .running)
      have hreaped := h.reaped _ hreturned
      rw [hinterrupted] at hreaped
      exact absurd hreaped (by decide)
  · intro hcondition
    have hbounded := count_running_le blocking polls
      (Nat.zero_le (maxTimeoutMs / 100))
    refine ⟨by rw [enforceTimeoutRun]; omega, fun r hr => result_iff hr, fun r hr => ?_⟩
    by_cases hin : (beforeEnd polls).count .running ≤ maxTimeoutMs / 100
    · exact reaped_of_inTime hlive (by omega) hr
    · -- out of time: the blocking wait has come back
      have hwait := hcondition.resolve_left hin
      have hreturned := reaped_of_runsOut blocking (Nat.zero_le (maxTimeoutMs / 100))
        (by omega : maxTimeoutMs / 100 < 0 + (beforeEnd polls).count .running)
      rw [enforceTimeoutRun, hreturned] at hr
      obtain rfl := Option.some.inj hr
      cases blocking with
      | reaps => rfl
      | interrupted => exact absurd rfl hwait

/-- Two ticks, an interrupted poll, and the end. -/
theorem reapsAndBounds_iff_inTime :
    ReapsAndBounds 3000 (enforceTimeoutRun 3000 .interrupted
        [.running, .interrupted, .running, .exited 0]) ↔
      ((beforeEnd [.running, .interrupted, .running, .exited 0]).count .running ≤ 3000 / 100 ∨
        BlockingWait.interrupted ≠ .interrupted) :=
  reapsAndBounds_iff 3000 .interrupted [.running, .interrupted, .running, .exited 0] (by decide)

/-- **The child is not reaped** when a signal arrives in the blocking wait: no time is left, and
the function returns behind its first tick. -/
theorem reapsAndBounds_fails :
    ¬ ∀ (maxTimeoutMs : Nat) (blocking : BlockingWait) (polls : List Poll),
        Poll.failed ∉ polls →
        ReapsAndBounds maxTimeoutMs (enforceTimeoutRun maxTimeoutMs blocking polls) := by
  intro h
  have hreaped := (h 0 .interrupted [.running] (by decide)).reaped _ rfl
  exact absurd hreaped (by decide)

end Swayam.Pipeline
