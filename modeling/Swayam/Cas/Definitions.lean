import Mathlib.Data.List.DropRight
import Swayam.Lib.Interleaving
import Swayam.Text

/-!
# SWAYAM — `cas_commit.sh`

Any number of runs of the script update one file through the Contents API. A
run is a loop of at most six attempts: GET the file, hand its content to the
transform, PUT the result with the sha that the GET gave. What a run does
between the GET and the PUT touches nothing that another run can see, so a run
has two kinds of steps, and the schedule interleaves them.

The transforms are arbitrary (`none` is a rejection), `sha` is an arbitrary
function of the content, and an `Api` says what may happen to a PUT. A command
that fails between the GET and the PUT leaves nothing behind that another run
can see, so `fail` stands for it wherever it happens in an attempt.

Behind a PUT that is answered 200 or 201 the script prints the new content, and
`set -e` makes the end of the run that of the `echo` (`exitStatus`).
-/

namespace Swayam.Cas

/-! ## The shell -/

/-- `$(…)`: bash drops the NUL bytes of the output and its trailing newlines. -/
def commandSubst (output : Text) : Text :=
  (output.filter (· ≠ 0)).rdropWhile (· = newline)

/-! ## The Contents API -/

structure Commit where
  author  : Nat
  content : Text
  deriving DecidableEq, Repr

/-- The file, and the commits to it since the start, the oldest first. -/
structure Remote where
  file    : Option Text
  commits : List Commit
  deriving DecidableEq, Repr

/-- The runs that have changed the file, in the order of the changes. -/
def Remote.authors (m : Remote) : List Nat := m.commits.map Commit.author

/-- The contents that the file has had since the start. -/
def Remote.contents (m : Remote) : List Text := m.commits.map Commit.content

/-- A PUT that takes effect. -/
def Remote.commit (m : Remote) (author : Nat) (content : Text) : Remote :=
  ⟨some content, m.commits ++ [⟨author, content⟩]⟩

/-- What `$sha` holds after a GET: the sha of the content, nothing after a 404. -/
def shaOf (sha : Text → Text) : Option Text → Text
  | some content => sha content
  | none => []

/-- Whether the API takes a PUT: with a sha, when it is the current one; without, when
the file is absent. -/
def accepts (sha : Text → Text) (file : Option Text) (requestSha : Text) : Bool :=
  match file with
  | some content => requestSha ≠ [] && requestSha = sha content
  | none => requestSha = []

/-- `[[ "$status" == "200" || "$status" == "201" ]]` -/
def success (status : Nat) : Bool := status = 200 || status = 201

/-- What may happen to a PUT: whether its sha was accepted, whether it takes effect, and
the status of the answer. -/
abbrev Api := Bool → Bool → Nat → Bool

/-- A PUT takes effect exactly when its sha is accepted, and the answer says so. -/
def reliable : Api := fun accepted applied status =>
  applied = accepted && success status = applied

/-- A PUT takes effect only when its sha is accepted; the answer may be anything. -/
def unreliable : Api := fun accepted applied _ => !applied || accepted

/-! ## The script -/

/-- Where a run stands. -/
inductive Run
  | getting (attempt : Nat)
  | putting (attempt : Nat) (requestSha newContent : Text)
  | exited (code : Nat)                     -- 0 behind an answer of 200 or 201
  deriving DecidableEq, Repr

/-- The choices of the environment for a run. -/
inductive Act
  | get                                     -- the GET is answered 200 or 404
  | fail                                    -- another status, or a command in front fails
  | put (applied : Bool) (status : Nat)
  deriving DecidableEq, Repr

/-- `for attempt in 1 2 3 4 5 6` -/
def maxAttempts : Nat := 6

/-- What the loop does with the status of a PUT: it is done, or makes the next attempt while there
is one. Where a run stands is given by `getting` and `exited`. -/
def afterStatus {ρ : Type*} (getting exited : Nat → ρ) (attempt status : Nat) : ρ :=
  if success status then exited 0
  else if attempt < maxAttempts then getting (attempt + 1)
  else exited 1

/-- What a run does with the status of its PUT. -/
def afterPut : Nat → Nat → Run := afterStatus .getting .exited

/-- One step of a run. -/
def move (api : Api) (transform : Nat → Text → Option Text) (sha : Text → Text) (m : Remote)
    (r : Nat) : Run → Act → Option (Remote × Run)
  | .getting attempt, .get =>
    -- `$(...)` of the file's content
    let oldContent := commandSubst (m.file.getD [])
    match transform r oldContent with
    | none => some (m, .exited 1)
    | some output => some (m, .putting attempt (shaOf sha m.file) (commandSubst output))
  | .getting _, .fail => some (m, .exited 1)
  | .putting attempt requestSha newContent, .put applied status =>
    if api (accepts sha m.file requestSha) applied status then
      -- whether the content was applied is not what the status says
      some (if applied then m.commit r newContent else m, afterPut attempt status)
    else none
  | _, _ => none

abbrev Sys := Interleaving.Config Remote Nat Run

def step (api : Api) (transform : Nat → Text → Option Text) (sha : Text → Text) :
    Sys → Nat × Act → Option Sys :=
  Interleaving.step (move api transform sha)

/-- Every run is about to make its first GET. -/
def start (file : Option Text) : Sys := ⟨⟨file, []⟩, fun _ => .getting 1⟩

end Swayam.Cas
