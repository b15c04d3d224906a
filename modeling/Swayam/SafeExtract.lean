import Mathlib.Data.List.Basic

/-!
# SWAYAM — `safe_extract.py`

The extraction of a downloaded archive, over its member list. Resource limits
are checked in a pass of their own before anything is extracted; the guards on
the names are checked in the loop that extracts, one member at a time.

The functions of `posixpath`, `fnmatch` and `zipfile` that the script calls are
given as they are documented. What `ZipFile.extract` does with a member (the
disk may be full, the data damaged, the name taken) is part of the member.

* `extractMembers_spec` — how the loop ends: with all members passed, or at the first
  one that stops it;
* `allOrNothing_iff` — a run that raises has written nothing exactly when the pass in
  front rejects the archive, or no member up to the one that stops the loop has
  left a file.
-/

namespace Swayam.SafeExtract

/-- A Python string. -/
abbrev Str := List Char

/-! ## `posixpath` -/

/-- `path.split("/")` -/
def splitSep : Str → List Str
  | [] => [[]]
  | c :: cs =>
    if c = '/' then [] :: splitSep cs
    else match splitSep cs with
      | [] => [[c]]
      | comp :: comps => (c :: comp) :: comps

/-- `"/".join(comps)` -/
def joinSep (comps : List Str) : Str := List.intercalate ['/'] comps

/-- One component in the loop of `normpath`; the components so far are in reverse order. -/
def normComp (initialSlashes : Nat) (newComps : List Str) (comp : Str) : List Str :=
  if comp = [] ∨ comp = ['.'] then newComps
  else if comp ≠ ['.', '.'] ∨ (initialSlashes = 0 ∧ newComps = []) ∨
      newComps.head? = some ['.', '.'] then
    comp :: newComps
  else newComps.tail

/-- `os.path.normpath`: two slashes at the start are kept, three are one. -/
def normpath (path : Str) : Str :=
  if path = [] then ['.']
  else
    let initialSlashes :=
      if ['/', '/'].isPrefixOf path && !(['/', '/', '/'].isPrefixOf path) then 2
      else if ['/'].isPrefixOf path then 1
      else 0
    let comps := ((splitSep path).foldl (normComp initialSlashes) []).reverse
    let normed := List.replicate initialSlashes '/' ++ joinSep comps
    if normed = [] then ['.'] else normed

/-- `os.path.join` -/
def join (path tail : Str) : Str :=
  if ['/'].isPrefixOf tail then tail
  else if path = [] ∨ path.getLast? = some '/' then path ++ tail
  else path ++ '/' :: tail

/-- `os.path.abspath` in the working directory `cwd`. -/
def abspath (cwd path : Str) : Str :=
  normpath (if ['/'].isPrefixOf path then path else join cwd path)

/-! ## `fnmatch` -/

/-- The characters that a bracket expression lists: `a-z` is a range, and a hyphen at an end
stands for itself. -/
def inClass (c : Char) : Str → Bool
  | lo :: '-' :: hi :: rest => (lo ≤ c && c ≤ hi) || inClass c rest
  | x :: rest => c = x || inClass c rest
  | [] => false

/-- What a bracket expression matches; `!` in front negates it. -/
def matchesClass (c : Char) : Str → Bool
  | '!' :: stuff => !inClass c stuff
  | stuff => inClass c stuff

/-- The character, when the pattern starts with it. -/
def leading (c : Char) (pat : Str) : Str := if pat.head? = some c then [c] else []

/-- A bracket expression and the rest of the pattern behind its closing bracket, which is not
its first character. -/
def closeClass (pat : Str) : Option (Str × Str) :=
  let negation := leading '!' pat
  let first := leading ']' (pat.drop negation.length)
  let front := negation ++ first
  let body := (pat.drop front.length).takeWhile (· ≠ ']')
  match pat.drop (front ++ body).length with
  | _ :: rest => some (front ++ body, rest)
  | [] => none

/-- `fnmatch.fnmatch`, by the characters of the pattern. -/
def fnmatchFrom : Nat → Str → Str → Bool
  | 0, _, _ => false
  | _ + 1, [], name => name.isEmpty
  | n + 1, '*' :: pat, name => name.tails.any (fnmatchFrom n pat)
  | n + 1, '?' :: pat, name => !name.isEmpty && fnmatchFrom n pat name.tail
  -- without its end a bracket stands for itself
  | n + 1, '[' :: pat, name =>
    match closeClass pat, name with
    | some (stuff, rest), c :: name => matchesClass c stuff && fnmatchFrom n rest name
    | some _, [] => false
    | none, name => name.head? = some '[' && fnmatchFrom n pat name.tail
  | n + 1, p :: pat, name => name.head? = some p && fnmatchFrom n pat name.tail

def fnmatch (name pat : Str) : Bool := fnmatchFrom (pat.length + 1) pat name

/-! ## The archive -/

/-- What `zf.extract` does with a member: it returns, or raises, and then may have left a part
of the file behind. -/
inductive Extraction
  | returns
  | raises (error : Str) (leavesFile : Bool)
  deriving DecidableEq, Repr

/-- `ZipInfo`, with what its extraction does. -/
structure Member where
  filename   : Str
  fileSize   : Nat
  extraction : Extraction := .returns
  deriving DecidableEq, Repr

/-- `ZipInfo.is_dir` -/
def Member.isDir (m : Member) : Bool := m.filename.getLast? = some '/'

/-- What `zf.extract` writes: a directory member makes no file. -/
def Member.extracted (m : Member) : List Str :=
  match m.extraction with
  | .returns => if m.isDir then [] else [m.filename]
  | .raises _ leavesFile => if leavesFile && !m.isDir then [m.filename] else []

/-! ## `safe_extract` -/

/-- `is_safe_path` -/
def isSafePath (cwd baseDir targetPath : Str) : Bool :=
  (abspath cwd baseDir ++ ['/']).isPrefixOf (abspath cwd targetPath)

def maxMemberBytes : Nat := 10 * 1024 * 1024
def maxTotalBytes : Nat := 50 * 1024 * 1024
def maxMembers : Nat := 200

/-- `str(n)` -/
def decimal (n : Nat) : Str := Nat.toDigits 10 n

/-- The pre-scan: the error that it raises. -/
def preScan (i totalBytes : Nat) : List Member → Option Str
  | [] => none
  | m :: rest =>
    if maxMembers ≤ i then
      some ("[FATAL] Archive exceeds member count limit (".toList ++ decimal maxMembers ++ [')'])
    else if maxMemberBytes < m.fileSize then
      some ("[FATAL] Member exceeds size limit: ".toList ++ m.filename)
    else if maxTotalBytes < totalBytes + m.fileSize then
      some ("[FATAL] Archive exceeds total size limit (".toList ++ decimal maxTotalBytes ++
        " bytes)".toList)
    else preScan (i + 1) (totalBytes + m.fileSize) rest

/-- The guards on a name: the error that they raise. -/
def refusal (cwd extractTo filename : Str) : Option Str :=
  if ['/'].isPrefixOf filename ∨ ['\\'].isPrefixOf filename then
    some ("[FATAL] Zip-Slip attempt: Absolute path detected -> ".toList ++ filename)
  else if isSafePath cwd extractTo (join extractTo filename) = false then
    some ("[FATAL] Zip-Slip attempt: Directory traversal detected -> ".toList ++ filename)
  else none

/-- The loop over the allow-list. -/
def matched (allowedPatterns : List Str) (filename : Str) : Bool :=
  allowedPatterns.any (fnmatch filename)

/-- How a call ends, and the files that it has written under `extract_to`. -/
structure Outcome where
  result  : Except Str Unit
  written : List Str

/-- The extraction loop; `written` is what it has written so far. -/
def extractMembers (cwd extractTo : Str) (allowedPatterns : List Str) (written : List Str) :
    List Member → Outcome
  | [] => ⟨.ok (), written⟩
  | m :: rest =>
    match refusal cwd extractTo m.filename with
    -- what was extracted before stays
    | some error => ⟨.error error, written⟩
    | none =>
      -- a member of no allowed pattern is skipped, not refused
      if matched allowedPatterns m.filename = false then
        extractMembers cwd extractTo allowedPatterns written rest
      else match m.extraction with
        | .raises error _ => ⟨.error error, written ++ m.extracted⟩
        | .returns => extractMembers cwd extractTo allowedPatterns (written ++ m.extracted) rest

/-- `safe_extract`. An archive that does not open raises in front of everything. -/
def safeExtract (cwd : Str) (archive : Except Str (List Member)) (extractTo : Str)
    (allowedPatterns : List Str) : Outcome :=
  match archive with
  | .error error => ⟨.error error, []⟩
  | .ok infolist =>
    match preScan 0 0 infolist with
    | some error => ⟨.error error, []⟩
    | none => extractMembers cwd (abspath cwd extractTo) allowedPatterns [] infolist

/-! ## How the loop ends -/

/-- A run that raises has written nothing. -/
def AllOrNothing (outcome : Outcome) : Prop :=
  ∀ error, outcome.result = .error error → outcome.written = []

section Loop

variable (cwd extractTo : Str) (allowedPatterns : List Str)

/-- The loop stops at the member: its name is refused, or it is allowed and cannot be
extracted. -/
def Stops (m : Member) : Prop :=
  (refusal cwd extractTo m.filename).isSome = true ∨
    (matched allowedPatterns m.filename = true ∧ m.extraction ≠ .returns)

/-- The files that the loop writes when it gets to the member. -/
def leaves (m : Member) : List Str :=
  if refusal cwd extractTo m.filename = none ∧ matched allowedPatterns m.filename = true then
    m.extracted
  else []

/-- No member up to the first one that stops the loop leaves a file. -/
def CleanUpToStop (infolist : List Member) : Prop :=
  ∀ front m rest, infolist = front ++ m :: rest → Stops cwd extractTo allowedPatterns m →
    (∀ x ∈ front, ¬ Stops cwd extractTo allowedPatterns x) →
    ∀ x ∈ front ++ [m], leaves cwd extractTo allowedPatterns x = []

variable {cwd extractTo allowedPatterns}

/-- The loop goes on behind a member that does not stop it. -/
theorem extractMembers_cons_pass {m : Member} (h : ¬ Stops cwd extractTo allowedPatterns m)
    (written : List Str) (rest : List Member) :
    extractMembers cwd extractTo allowedPatterns written (m :: rest) =
      extractMembers cwd extractTo allowedPatterns
        (written ++ leaves cwd extractTo allowedPatterns m) rest := by
  rw [Stops, not_or, not_and, not_not, Option.not_isSome_iff_eq_none] at h
  obtain ⟨hname, hextracts⟩ := h
  rw [extractMembers, hname, leaves, hname]
  cases hmatched : matched allowedPatterns m.filename with
  | false => simp
  | true =>
    rw [hextracts hmatched]
    simp

/-- It raises at a member that does. -/
theorem extractMembers_cons_stop {m : Member} (h : Stops cwd extractTo allowedPatterns m)
    (written : List Str) (rest : List Member) :
    ∃ error, extractMembers cwd extractTo allowedPatterns written (m :: rest) =
      ⟨.error error, written ++ leaves cwd extractTo allowedPatterns m⟩ := by
  rw [extractMembers, leaves]
  cases hname : refusal cwd extractTo m.filename with
  | some error => exact ⟨error, by simp⟩
  | none =>
    -- the name passes, so the extraction fails
    rw [Stops, hname] at h
    obtain ⟨hmatched, hfails⟩ := h.resolve_left (by simp)
    cases hextraction : m.extraction with
    | returns => exact absurd hextraction hfails
    | raises error leavesFile => exact ⟨error, by simp [hmatched]⟩

variable (cwd extractTo allowedPatterns) in
/-- **The loop up to its end**: either every member passes, or it raises at the first that
does not, with what it has written so far. -/
theorem extractMembers_spec (infolist : List Member) (written : List Str) :
    (extractMembers cwd extractTo allowedPatterns written infolist =
        ⟨.ok (), written ++ infolist.flatMap (leaves cwd extractTo allowedPatterns)⟩ ∧
      ∀ x ∈ infolist, ¬ Stops cwd extractTo allowedPatterns x) ∨
    ∃ front m rest error, infolist = front ++ m :: rest ∧
      Stops cwd extractTo allowedPatterns m ∧
      (∀ x ∈ front, ¬ Stops cwd extractTo allowedPatterns x) ∧
      extractMembers cwd extractTo allowedPatterns written infolist =
        ⟨.error error, written ++ (front ++ [m]).flatMap (leaves cwd extractTo allowedPatterns)⟩ := by
  induction infolist generalizing written with
  | nil => exact Or.inl ⟨by simp [extractMembers], by simp⟩
  | cons m rest ih =>
    by_cases hstops : Stops cwd extractTo allowedPatterns m
    · obtain ⟨error, herror⟩ := extractMembers_cons_stop hstops written rest
      exact Or.inr ⟨[], m, rest, error, rfl, hstops, by simp, by simpa using herror⟩
    · rw [extractMembers_cons_pass hstops]
      -- the first member that stops is among the rest, or none does
      rcases ih (written ++ leaves cwd extractTo allowedPatterns m) with
        ⟨hrun, hpass⟩ | ⟨front, m', rest', error, rfl, hstops', hfront, hrun⟩
      · left
        refine ⟨by rw [hrun, List.flatMap_cons, List.append_assoc], ?_⟩
        intro x hx
        rcases List.mem_cons.mp hx with rfl | hx
        · exact hstops
        · exact hpass x hx
      · right
        refine ⟨m :: front, m', rest', error, rfl, hstops', ?_, ?_⟩
        · intro x hx
          rcases List.mem_cons.mp hx with rfl | hx
          · exact hstops
          · exact hfront x hx
        · rw [hrun, List.cons_append, List.flatMap_cons, List.append_assoc]

/-- Two first members that stop the loop are one. -/
theorem first_stop_unique {front front' rest rest' : List Member} {m m' : Member}
    (h : front ++ m :: rest = front' ++ m' :: rest')
    (hfront : ∀ x ∈ front, ¬ Stops cwd extractTo allowedPatterns x)
    (hm : Stops cwd extractTo allowedPatterns m)
    (hfront' : ∀ x ∈ front', ¬ Stops cwd extractTo allowedPatterns x)
    (hm' : Stops cwd extractTo allowedPatterns m') : front ++ [m] = front' ++ [m'] := by
  induction front generalizing front' with
  | nil =>
    cases front' with
    | nil => rw [(List.cons.inj h).1]
    | cons x xs =>
      rw [List.nil_append, List.cons_append] at h
      exact absurd ((List.cons.inj h).1 ▸ hm) (hfront' x (List.mem_cons_self ..))
  | cons y ys ih =>
    cases front' with
    | nil =>
      rw [List.nil_append, List.cons_append] at h
      exact absurd ((List.cons.inj h).1 ▸ hm') (hfront y (List.mem_cons_self ..))
    | cons x xs =>
      rw [List.cons_append, List.cons_append] at h
      obtain ⟨rfl, htail⟩ := List.cons.inj h
      rw [List.cons_append, List.cons_append, ih htail
        (fun z hz => hfront z (List.mem_cons_of_mem _ hz))
        (fun z hz => hfront' z (List.mem_cons_of_mem _ hz))]

end Loop

/-- **When an extraction is all or nothing.** For every archive, every allow-list and whatever the
single extractions do: a call that raises has written no file if and only if the archive
does not open, the pre-scan rejects it, or no member up to the first one at which the loop
stops leaves a file. -/
theorem raisesClean_iff (cwd : Str) (archive : Except Str (List Member)) (extractTo : Str)
    (allowedPatterns : List Str) :
    AllOrNothing (safeExtract cwd archive extractTo allowedPatterns) ↔
      ∀ infolist, archive = .ok infolist → preScan 0 0 infolist = none →
        CleanUpToStop cwd (abspath cwd extractTo) allowedPatterns infolist := by
  cases archive with
  | error error => simp [AllOrNothing, safeExtract]
  | ok infolist =>
    unfold safeExtract
    cases hscan : preScan 0 0 infolist with
    | some error => simp [AllOrNothing, hscan]
    | none =>
      simp only [Except.ok.injEq, forall_eq', hscan, true_implies]
      rcases extractMembers_spec cwd (abspath cwd extractTo) allowedPatterns infolist [] with
        ⟨hrun, hpass⟩ | ⟨front, m, rest, error, rfl, hstops, hfront, hrun⟩
      · -- the loop has passed every member
        rw [hrun]
        refine iff_of_true (fun _ h => absurd h (by simp)) ?_
        rintro front m rest rfl hstops
        exact absurd hstops (hpass m (by simp))
      · rw [hrun, List.nil_append]
        constructor
        · intro h front' m' rest' hsplit hstops' hfront'
          rw [← first_stop_unique hsplit hfront hstops hfront' hstops']
          exact List.flatMap_eq_nil_iff.mp (h error rfl)
        · intro h _ _
          exact List.flatMap_eq_nil_iff.mpr (h front m rest rfl hstops hfront)

/-- An allowed file in front of one that climbs out of the directory. -/
def mixedArchive : List Member :=
  [⟨"ok.txt".toList, 2, .returns⟩, ⟨"../../evil.txt".toList, 5, .returns⟩]

/-- **A bad archive leaves its good members behind**: the second name raises, the first file
has been written. -/
theorem allOrNothing_fails_on_mixed :
    ¬ ∀ (cwd : Str) (archive : Except Str (List Member)) (extractTo : Str)
        (allowedPatterns : List Str),
        AllOrNothing (safeExtract cwd archive extractTo allowedPatterns) := by
  intro h
  have hview : (safeExtract "/".toList (.ok mixedArchive) "/tmp/out".toList ["*.txt".toList]).written =
      ["ok.txt".toList] := by decide
  have herror : (safeExtract "/".toList (.ok mixedArchive) "/tmp/out".toList
      ["*.txt".toList]).result = .error
        "[FATAL] Zip-Slip attempt: Directory traversal detected -> ../../evil.txt".toList := by
    decide
  have hnone := h _ _ _ _ _ herror
  rw [hview] at hnone
  exact absurd hnone (by decide)

end Swayam.SafeExtract
