import Swayam.Lib.LexicalPath
import Swayam.Text

/-!
# SWAYAM — what `publish_successful_mutation` stages

`SwayamGitCortex.hpp` puts one file into a commit, by the path that it is given. The
path is looked at before, letter by letter: it may have letters, digits, dots,
slashes and underscores, and does not start with a hyphen. What its components
mean is not looked at, so that `..` and a slash in front get through.

* `of_staged`, `staged_of_accepted` — `git add` gets the path when it was accepted,
  and no other;
* `staysInside_iff` — a path is one of the repository when it has no slash in front,
  and no part of it leaves more directories than it enters;
* `stagesInside_iff` — when nothing else is staged for a path.
-/

namespace Swayam.PublishPath

open Delimited LexicalPath

/-! ## The check -/

def slash : Byte := asciiByte '/'
def dot : Byte := asciiByte '.'
def hyphen : Byte := asciiByte '-'
def underscore : Byte := asciiByte '_'

/-- `std::isalnum`, in the "C" locale. -/
def isAlnum (c : Byte) : Bool :=
  isDigit c || (65 ≤ c.toNat && c.toNat ≤ 90) || (97 ≤ c.toNat && c.toNat ≤ 122)

/-- `ok` of the loop. -/
def isPathByte (c : Byte) : Bool := isAlnum c || c == dot || c == slash || c == underscore

/-- `looks_like_a_safe_relative_path` -/
def looksLikeASafeRelativePath (path : Text) : Bool :=
  if path = [] ∨ path.head? = some hyphen then false
  else path.all isPathByte

/-! ## `publish_successful_mutation` -/

def publisherName : Text := ascii "swayam-publisher-bot-yansh[bot]"

/-- The git commands for a path, in order. -/
def publishCommands (mutationFile : Text) : List (List Text) :=
  [[ascii "git", ascii "config", ascii "--local", ascii "user.name", publisherName],
   [ascii "git", ascii "config", ascii "--local", ascii "user.email",
     publisherName ++ ascii "@users.noreply.github.com"],
   [ascii "git", ascii "add", ascii "--", mutationFile],
   [ascii "git", ascii "commit", ascii "-m",
     ascii "[VENOMICA-AUTONOMY] Autonomous Mutation Assimilated"],
   [ascii "git", ascii "push", ascii "origin", ascii "HEAD:main"]]

/-- The commands run one after the other, up to the first that does not exit with 0: whether all
of them did, and those that ran. -/
def runGitCommands (exits : List Text → Bool) : List (List Text) → Bool × List (List Text)
  | [] => (true, [])
  | command :: rest =>
    if exits command = false then (false, [command])
    else
      let (success, ran) := runGitCommands exits rest
      (success, command :: ran)

/-- `publish_successful_mutation`: what it returns, and the commands that ran. -/
def publishSuccessfulMutation (exits : List Text → Bool) (mutationFile : Text) :
    Bool × List (List Text) :=
  if looksLikeASafeRelativePath mutationFile = false then (false, [])
  else runGitCommands exits (publishCommands mutationFile)

/-- The path that is staged. -/
def Staged (exits : List Text → Bool) (mutationFile path : Text) : Prop :=
  [ascii "git", ascii "add", ascii "--", path] ∈ (publishSuccessfulMutation exits mutationFile).2

/-! ## Where a path leads -/

/-- The components of a path; empty ones mean nothing. -/
def components (path : Text) : List Text := lines slash path

/-- What a component does: `.` and nothing stay, `..` leaves a directory. -/
def componentStep (component : Text) : Step :=
  if component = [] ∨ component = [dot] then .stay
  else if component = [dot, dot] then .leave
  else .enter

/-- A path of the repository: relative, and nowhere on its way outside of the root. -/
structure StaysInside (path : Text) : Prop where
  relative : path.head? ≠ some slash
  resolves : (resolve componentStep [] (components path)).isSome = true

/-- No slash in front, and in each initial part no more `..` than names. -/
structure KeepsCount (path : Text) : Prop where
  noSlash : path.head? ≠ some slash
  counts  : ∀ front, front <+: components path →
    left componentStep front ≤ entered componentStep front

/-- The law for any path. -/
theorem staysInside_iff (path : Text) : StaysInside path ↔ KeepsCount path := by
  have hlaw := resolve_isSome_iff componentStep [] (components path)
  simp only [List.length_nil, Nat.zero_add] at hlaw
  constructor
  · intro h
    exact ⟨h.relative, hlaw.mp h.resolves⟩
  · intro h
    exact ⟨h.noSlash, hlaw.mpr h.counts⟩

/-! ## What is staged -/

/-- The commands that run are an initial part of the list. -/
theorem ran_of_commands (exits : List Text → Bool) (commands : List (List Text)) :
    (runGitCommands exits commands).2 <+: commands := by
  induction commands with
  | nil => exact List.prefix_rfl
  | cons command rest ih =>
    rw [runGitCommands]
    split
    · exact List.cons_prefix_cons.mpr ⟨rfl, List.nil_prefix⟩
    · exact List.cons_prefix_cons.mpr ⟨rfl, ih⟩

/-- **Only an accepted path is staged**, and no other. -/
theorem of_staged {exits : List Text → Bool} {mutationFile path : Text}
    (h : Staged exits mutationFile path) :
    path = mutationFile ∧ looksLikeASafeRelativePath mutationFile = true := by
  unfold Staged publishSuccessfulMutation at h
  split at h
  · simp at h
  · rename_i haccepted
    refine ⟨?_, by simpa using haccepted⟩
    have hmem := (ran_of_commands exits (publishCommands mutationFile)).subset h
    simp only [publishCommands, List.mem_cons, List.cons.injEq, List.not_mem_nil, or_false,
      and_true, true_and, reduceCtorEq, and_false, false_or] at hmem
    -- of the commands of this length one adds a path
    rcases hmem with hpath | ⟨hcommit, -⟩ | ⟨hpush, -⟩
    · exact hpath
    · exact absurd hcommit (by decide)
    · exact absurd hpush (by decide)

/-- It is staged when nothing fails in front. -/
theorem staged_of_accepted {mutationFile : Text}
    (h : looksLikeASafeRelativePath mutationFile = true) :
    Staged (fun _ => true) mutationFile mutationFile := by
  rw [Staged, publishSuccessfulMutation, if_neg (by simp [h])]
  simp [runGitCommands, publishCommands]

/-- What the check is for: an accepted path, and whatever is staged for it, is one of the
repository. -/
structure StagesInside (path : Text) : Prop where
  accepted : looksLikeASafeRelativePath path = true → StaysInside path
  staged   : ∀ exits added, Staged exits path added → StaysInside added

/-- **Only files of the repository are staged** for an accepted path exactly when it keeps its
counts. -/
theorem stagesInside_iff {path : Text} (h : looksLikeASafeRelativePath path = true) :
    StagesInside path ↔ KeepsCount path := by
  constructor
  · intro hinside
    exact (staysInside_iff path).mp (hinside.accepted h)
  · intro hcount
    have hstays : StaysInside path := (staysInside_iff path).mpr hcount
    refine ⟨fun _ => hstays, fun exits added hstaged => ?_⟩
    obtain ⟨rfl, -⟩ := of_staged hstaged
    exact hstays

/-- A generated source. -/
theorem stagesInside_generated :
    looksLikeASafeRelativePath (ascii "src/generated/mut_1.cpp") = true ∧
      (StagesInside (ascii "src/generated/mut_1.cpp") ↔
        KeepsCount (ascii "src/generated/mut_1.cpp")) :=
  ⟨by decide, stagesInside_iff (by decide)⟩

/-- Letters, dots and a slash are enough to leave the repository. -/
theorem parent_path_staged : ¬ StagesInside (ascii "../x") := by
  intro h
  have hresolves := (h.accepted (by decide)).resolves
  exact absurd hresolves (by decide)

end Swayam.PublishPath
