import Mathlib.Data.List.Infix
import Swayam.Pipeline.StatusFile
import Swayam.SafeExtract.Written

/-!
# SWAYAM — the two workflows

`sandboxed-mutation.yml` runs the daemon in a container and uploads what it leaves
under `mutation-output`; `sign-and-open-pr.yml` downloads that, extracts it over a
checkout, and offers `src/generated` and `rationale.md` in a pull request.

Files are given by the components of their paths. What the environment decides (which
commands fail, what a copy leaves behind when it fails, what is ignored) is part of a
job's environment. What is downloaded is what was uploaded, and the mutation that the
daemon executes leaves its files alone (`main` of `Daemon.lean`).
-/

namespace Swayam.Publication

open SafeExtract

/-- The components of a relative path. -/
abbrev Place := List Str

/-- A directory with all that is below it. -/
abbrev Files := Place → Option Text

structure File where
  place   : Place
  content : Text
  deriving DecidableEq, Repr

def find (files : List File) (place : Place) : Option Text :=
  (files.find? (·.place = place)).map File.content

/-- `mutation-output` -/
def outputDir : Str := "mutation-output".toList

/-- `src` -/
def srcDir : Str := "src".toList

/-- `src/generated` -/
def generatedDir : Place := [srcDir, "generated".toList]

/-- `rationale.md` -/
def rationalePlace : Place := ["rationale.md".toList]

def metaPlace (name : Str) : Place := ["meta".toList, name]

/-! ## `sandboxed-mutation.yml` -/

/-- The step with the container: whether `docker run` exits with 0, what `jq -r .outcome` prints
for a status, if it exits with 0, and whether the rationale can be moved. -/
structure SandboxEnv where
  exits : Bool
  jq    : Text → Option Text
  moves : Bool

/-- What the step leaves under `mutation-output`, when it succeeds. -/
def sandboxStep (env : SandboxEnv) (files : List File) : Option (List File) :=
  if env.exits = false then none
  else
    match (find files (metaPlace "status.json".toList)).bind env.jq with
    | none => none
    | some outcome =>
      if outcome = Pipeline.published then
        match find files (metaPlace "rationale.md".toList) with
        | none => none
        | some rationale =>
          if env.moves = false then none
          else
            let others := files.filter fun f =>
              f.place ≠ metaPlace "rationale.md".toList ∧ f.place ≠ rationalePlace
            some (⟨rationalePlace, rationale⟩ :: others)
      -- nothing to publish this cycle: the step succeeds all the same
      else if outcome = Pipeline.quarantined then some files
      else none

/-- Below `src`. -/
def inSrc (place : Place) : Bool := place.head? = some srcDir

/-- A name on the way starts with a dot. -/
def hidden (place : Place) : Bool := place.any fun comp => comp.head? = some '.'

/-- What `upload-artifact` uploads. -/
def uploaded (files : List File) : List File :=
  files.filter fun f => (inSrc f.place || f.place = rationalePlace) && !hidden f.place

/-! ## The archive -/

/-- A member of the archive, with its content. -/
structure Entry where
  member  : Member
  content : Text
  deriving DecidableEq, Repr

/-- The archive of these files; `extraction` is what becomes of each when it is extracted. -/
def archiveOf (extraction : Place → Extraction) (files : List File) : List Entry :=
  files.map fun f => ⟨⟨joinSep f.place, f.content.length, extraction f.place⟩, f.content⟩

/-- `--allow "src/generated/*.h" "rationale.md"` -/
def allowed : List Str := ["src/generated/*.h".toList, "rationale.md".toList]

/-- The entries that `safe_extract` extracts, when it does not raise. -/
def extractedEntries (entries : List Entry) : List Entry :=
  entries.filter fun e => matched allowed e.member.filename && !e.member.isDir

/-! ## `sign-and-open-pr.yml` -/

/-- What `cp … || true` does with one file. -/
inductive Copy
  | whole
  | part (n : Nat)
  | skipped
  deriving DecidableEq, Repr

/-- The target of a copy. -/
def Copy.apply (copy : Copy) (source target : Option Text) : Option Text :=
  match source, copy with
  | none, _ => target
  | some content, .whole => some content
  | some content, .part n => some (content.take n)
  | some _, .skipped => target

structure PublishEnv where
  cwd       : Str
  fetches   : Bool             -- the artifact is found and downloaded, and is a zip archive
  token     : Bool
  rateLimit : Bool             -- `cas_increment.sh` exits with 0
  copied    : Place → Copy
  ignored   : Place → Bool     -- by `.gitignore`
  adds      : Bool
  commits   : Bool
  pushes    : Bool

/-- The checkout behind the extraction: of two entries at one place the later one stays. -/
def extracted (main : Files) (entries : List Entry) : Files
  | [] => main []
  | comp :: place =>
    if comp = outputDir then
      -- of two entries at one place the later one is found
      match (extractedEntries entries).reverse.find? fun e =>
          keptComponents e.member.filename = place with
      | some e => some e.content
      | none => main (comp :: place)
    else main (comp :: place)

/-- A file below `src/generated`. -/
def inGenerated (place : Place) : Bool :=
  generatedDir.isPrefixOf place && generatedDir.length < place.length

/-- The glob `src/generated/*` leaves out the names that start with a dot. -/
def globbed (place : Place) : Bool :=
  inGenerated place && ((place.getD generatedDir.length []).head? ≠ some '.')

/-- The checkout behind both copies. -/
def workTree (env : PublishEnv) (main : Files) (entries : List Entry) : Files := fun place =>
  let checkout := extracted main entries
  if globbed place || place = rationalePlace then
    (env.copied place).apply (checkout (outputDir :: place)) (checkout place)
  else checkout place

/-- `git add src/generated/ rationale.md`: an ignored file is added only if it is tracked. -/
def committed (env : PublishEnv) (main : Files) (entries : List Entry) : Files := fun place =>
  if (inGenerated place || place = rationalePlace) &&
      ((main place).isSome || !env.ignored place) then
    workTree env main entries place
  else main place

/-- The tree of the branch that is pushed, from which the pull request is opened. The check for
duplicates, with its `|| true`, stops nothing. -/
def publishJob (env : PublishEnv) (main : Files) (archive : Except Str (List Entry)) :
    Option Files :=
  if env.fetches = false then none
  else
    match (safeExtract env.cwd (archive.map (·.map Entry.member)) "mutation-output/".toList
        allowed).result with
    | .error _ => none
    | .ok () =>
      -- the steps in their order, each failing the job
      if env.token && env.rateLimit && env.adds && env.commits && env.pushes then
        some (committed env main (archive.toOption.getD []))
      else none

/-! ## What is extracted -/

end Swayam.Publication
