import Swayam.Moltbook.Resolution

/-!
# SWAYAM — the boundary check of `write_mutation`

`Moltbook.hpp` writes a mutation into `src/generated`. The name is looked at letter by
letter first; then the directory and the target are resolved, with all links, and
their components are compared. `std::mismatch` takes the target to be at least as
long as the directory, which a link to a directory above it makes wrong.

* `createAll_sameFiles`, `ensureSandbox_fresh` — the directory is made without a change to
  any file, and is empty then;
* `writeMutation_cases` — how a call ends;
* `writes_where_link_leads` — a link to a name that is missing is not stopped by the check;
* `boundarySound_iff` — when the check does what it is for.
-/

namespace Swayam.WriteMutation

open FileTree LexicalPath

/-! ## `write_mutation` -/

/-- `filename.find("..") != npos || filename.find("/") != npos` -/
def hasTraversal (filename : Text) : Bool := dotdot <:+: filename || separator ∈ filename

def sandboxDir : Path := [ascii "src", ascii "generated"]

/-- The directory is made when it does not exist; `false` when this throws. -/
def ensureSandbox (fs : FileSystem) : Bool × FileSystem :=
  match fs.status sandboxDir with
  | .failed => (false, fs)
  | .found _ => (true, fs)
  | .notFound => fs.createDirectories sandboxDir

/-- How a call ends: with an exception, with an element read behind the end of the target (what
happens then is undefined), or with a file opened and written. -/
inductive Outcome
  | threw
  | pastEnd
  | wrote (base target : Path)
  deriving DecidableEq, Repr

/-- `write_mutation`, from the resolved directory on. -/
def writeBelow (fs : FileSystem) (base : Path) (filename content : Text) : Outcome × FileSystem :=
  match fs.weaklyCanonical (append base filename) with
  | none => (.threw, fs)
  | some target =>
    match mismatch base target with
    | none => (.pastEnd, fs)
    | some (baseMismatch, _) =>
      if baseMismatch ≠ [] then (.threw, fs)
      else
        match fs.writeFile target content with
        | none => (.threw, fs)
        | some fs' => (.wrote base target, fs')

/-- `write_mutation` -/
def writeMutation (fs : FileSystem) (filename content : Text) : Outcome × FileSystem :=
  if hasTraversal filename then (.threw, fs)
  else
    -- the directory is made before it is resolved
    match ensureSandbox fs with
    | (false, fs') => (.threw, fs')
    | (true, fs') =>
      match fs'.weaklyCanonical sandboxDir with
      | none => (.threw, fs')
      | some base => writeBelow fs' base filename content

/-! ## The name -/

/-- An accepted name has no slash and no two dots in it. -/
theorem accepted_filename {filename : Text} (h : hasTraversal filename = false) :
    separator ∉ filename ∧ ¬ dotdot <:+: filename := by
  simpa [hasTraversal, and_comm] using h

/-- An accepted name does not lead up. -/
theorem ne_dotdot_of_accepted {filename : Text} (h : hasTraversal filename = false) :
    filename ≠ dotdot := by
  rintro rfl
  exact (accepted_filename h).2 List.infix_rfl

/-! ## The directory -/

/-- The same files with the same contents. -/
def SameFiles (fs fs' : FileSystem) : Prop :=
  ∀ place content,
    fs'.tree.nodes place = some (.file content) ↔ fs.tree.nodes place = some (.file content)

/-- A directory that was made. -/
structure MadeAt (fs fs' : FileSystem) (p : Path) (place : List Text) (c : Text) : Prop where
  last   : p.getLast? = some c
  leads  : fs.lookup p.dropLast = .found place
  inDir  : fs.tree.nodes place = some .dir
  named  : meaning c = some .enter
  absent : fs.tree.nodes (place ++ [c]) = none
  eq_set : fs' = fs.set (place ++ [c]) .dir

section Directory

variable {fs fs' fs'' : FileSystem} {p : Path} {place : List Text} {c : Text}

theorem SameFiles.refl (fs : FileSystem) : SameFiles fs fs := fun _ _ => Iff.rfl

theorem SameFiles.trans (h : SameFiles fs fs') (h' : SameFiles fs' fs'') : SameFiles fs fs'' :=
  fun place content => (h' place content).trans (h place content)

/-- A directory is made where one may be, -/
theorem MadeAt.settable (h : MadeAt fs fs' p place c) : fs.tree.Settable (place ++ [c]) :=
  Tree.settable_of_absent h.inDir h.named h.absent

/-- and only there, -/
theorem MadeAt.nodes (h : MadeAt fs fs' p place c) (l : List Text) :
    fs'.tree.nodes l = if l = place ++ [c] then some .dir else fs.tree.nodes l := by
  rw [h.eq_set]
  exact Tree.nodes_set h.settable l

/-- so no file changes. -/
theorem MadeAt.sameFiles (h : MadeAt fs fs' p place c) : SameFiles fs fs' := by
  intro l content
  rw [h.nodes]
  split
  · rename_i heq
    simp [heq, h.absent]
  · exact Iff.rfl

/-- The directory is there, and nothing is in it. -/
structure Fresh (fs : FileSystem) (p : Path) (place : List Text) : Prop where
  leads : fs.lookup p = .found place
  isDir : fs.tree.nodes place = some .dir
  empty : ∀ c, fs.tree.nodes (place ++ [c]) = none

/-- A path from the working directory, without zeros. -/
structure Relative (p : Path) : Prop where
  seen   : cString p = p
  noRoot : p.head? ≠ some rootName

theorem relative_src : Relative [ascii "src"] := ⟨by decide, by decide⟩

theorem relative_sandbox : Relative sandboxDir := ⟨by decide, by decide⟩

/-- A relative path is walked from the working directory. -/
theorem Relative.lookup (h : Relative p) (fs : FileSystem) :
    fs.lookup p = fs.tree.walk FileSystem.linkLimit fs.cwd p := by
  rw [FileSystem.lookup, h.seen, if_neg h.noRoot]

theorem lookup_sandbox (fs : FileSystem) :
    fs.lookup (fs.absolute sandboxDir) = fs.lookup sandboxDir := by
  have habsolute : fs.absolute sandboxDir = rootName :: (fs.cwd ++ sandboxDir) := by
    rw [FileSystem.absolute, if_neg (by decide)]
  rw [habsolute, FileSystem.lookup_below (Or.inl fs.inCwd), relative_sandbox.lookup,
    relative_sandbox.seen]

/-- Behind it the path is fresh. -/
theorem MadeAt.fresh (h : MadeAt fs fs' p place c) (hrel : Relative p)
    (hparent : Relative p.dropLast) : Fresh fs' p (place ++ [c]) := by
  have hnew : fs'.tree.nodes (place ++ [c]) = some .dir := by rw [h.nodes, if_pos rfl]
  have hcwd : fs'.cwd = fs.cwd := by
    rw [h.eq_set]
    rfl
  refine ⟨?_, hnew, fun d => ?_⟩
  · have hkept : fs.tree.Kept fs'.tree := by
      rw [h.eq_set]
      exact Tree.kept_set h.settable h.absent
    have hleads := h.leads
    rw [hparent.lookup] at hleads
    -- the parent is found as before, and the new name is one more step
    obtain ⟨left, hleft⟩ := Tree.walk_append (Tree.walk_kept hkept hleads) [c]
    have hsplit : p.dropLast ++ [c] = p := List.dropLast_append_getLast? c h.last
    rw [hsplit, Tree.walk_on (Tree.next_of_real (Or.inl hnew)), Tree.walk_nil] at hleft
    rw [hrel.lookup, hcwd, hleft]
  · -- a node below the place would have been there before it
    by_contra hchild
    have hne : place ++ [c] ++ [d] ≠ place ++ [c] := by simp
    rw [h.nodes, if_neg hne] at hchild
    have hdir := fs.tree.parent _ d hchild
    rw [h.absent] at hdir
    simp at hdir

/-- What making a directory does, -/
theorem mkdir_made (h : fs.mkdir p = .made fs') : ∃ place c, MadeAt fs fs' p place c := by
  unfold FileSystem.mkdir at h
  split at h
  · simp at h
  · split at h
    · rename_i c place hlast hleads
      split at h
      · simp at h
      · rename_i hdir
        rw [not_or, Bool.not_eq_false, not_not] at hdir
        split at h
        · rename_i habsent
          have heq := (FileSystem.Made.made.inj h).symm
          exact ⟨place, c, hlast, hleads, of_decide_eq_true hdir.1, hdir.2, habsent, heq⟩
        · simp at h
    · simp at h

/-- also where there is one. -/
theorem createDirectory_cases (h : fs.createDirectory p = some fs') :
    (fs' = fs ∧ ∃ place, fs.status p = .found place) ∨ ∃ place c, MadeAt fs fs' p place c := by
  unfold FileSystem.createDirectory at h
  split at h
  · rename_i hmade
    obtain rfl := Option.some.inj h
    exact Or.inr (mkdir_made hmade)
  · split at h
    · rename_i place hstatus
      split at h
      · exact Or.inl ⟨(Option.some.inj h).symm, place, hstatus⟩
      · simp at h
    · simp at h
  · simp at h

/-- It changes no file, -/
theorem createDirectory_sameFiles (h : fs.createDirectory p = some fs') : SameFiles fs fs' := by
  rcases createDirectory_cases h with ⟨rfl, -⟩ | ⟨place, c, hmade⟩
  · exact SameFiles.refl _
  · exact hmade.sameFiles

/-- **Only directories are made.** -/
theorem createAll_sameFiles (fs : FileSystem) (stack : List Path) :
    SameFiles fs (fs.createAll stack).2 := by
  induction stack generalizing fs with
  | nil => exact SameFiles.refl fs
  | cons p ps ih =>
    rw [FileSystem.createAll]
    cases hfirst : fs.createDirectory p with
    | none => exact SameFiles.refl fs
    | some fs' => exact (createDirectory_sameFiles hfirst).trans (ih fs')

/-- and neither does the sandbox. -/
theorem ensureSandbox_sameFiles (fs : FileSystem) : SameFiles fs (ensureSandbox fs).2 := by
  unfold ensureSandbox
  split
  · exact SameFiles.refl fs
  · exact SameFiles.refl fs
  · unfold FileSystem.createDirectories
    split
    · exact SameFiles.refl fs
    · exact SameFiles.refl fs
    · split
      · exact SameFiles.refl fs
      · exact createAll_sameFiles fs _

/-! ### A new directory -/

/-- A name that a new directory does not have. -/
theorem Fresh.lookup_child (h : Fresh fs p place) (hrel : Relative p) (hchild : Relative (p ++ [c]))
    (hname : meaning c = some .enter) : fs.lookup (p ++ [c]) = .absent place c := by
  have hleads := h.leads
  rw [hrel.lookup] at hleads
  obtain ⟨left, hleft⟩ := Tree.walk_append hleads [c]
  have hnext : fs.tree.next place c = .absent := by
    simp only [Tree.next, h.isDir, hname, h.empty c]
  rw [hchild.lookup, hleft, Tree.walk_of_absent hnext]

/-- `src`, when it had to be made. -/
theorem status_of_made_parent {src : Text} {place : List Text}
    (hmade : MadeAt fs fs' [ascii "src"] place src) (l : List Text) :
    fs'.status sandboxDir ≠ .found l := by
  have hfresh := hmade.fresh relative_src ⟨rfl, by simp⟩
  have hchild : fs'.lookup sandboxDir = .absent (place ++ [src]) (ascii "generated") :=
    hfresh.lookup_child relative_src relative_sandbox (by decide)
  rw [FileSystem.status, hchild]
  split <;> simp

/-- A stack that ends with the directory, which is not there when its turn comes. -/
theorem fresh_of_createDirectory (hstatus : ∀ l, fs.status sandboxDir ≠ .found l)
    (h : fs.createAll [sandboxDir] = (true, fs')) : ∃ base, Fresh fs' sandboxDir base := by
  rw [FileSystem.createAll] at h
  cases hlast : fs.createDirectory sandboxDir with
  | none => simp [hlast] at h
  | some fs₁ =>
    rw [hlast] at h
    dsimp only at h
    rw [FileSystem.createAll, Prod.mk.injEq] at h
    obtain ⟨-, rfl⟩ := h
    rcases createDirectory_cases hlast with ⟨-, l, hfound⟩ | ⟨place, c, hmade⟩
    · exact absurd hfound (hstatus l)
    · exact ⟨_, hmade.fresh relative_sandbox relative_src⟩

/-- **A directory that was not there** is empty afterwards. -/
theorem ensureSandbox_fresh (hstatus : fs.status sandboxDir = .notFound)
    (h : ensureSandbox fs = (true, fs')) : ∃ base, Fresh fs' sandboxDir base := by
  have hnot : ∀ l, fs.status sandboxDir ≠ .found l := by simp [hstatus]
  have hparents : sandboxDir.dropLast.reverse = [ascii "src"] := by decide
  rw [ensureSandbox, hstatus] at h
  dsimp only at h
  rw [FileSystem.createDirectories, hstatus] at h
  dsimp only at h
  rw [hparents, FileSystem.missing, List.reverse_singleton] at h
  -- the stack has `src` on it only when that is not there either
  cases hsrc : fs.status [ascii "src"] with
  | found place =>
    rw [hsrc] at h
    dsimp only at h
    split at h
    · simp at h
    · rename_i stack hstack
      split at hstack
      · obtain rfl := Option.some.inj hstack
        exact fresh_of_createDirectory hnot h
      · simp at hstack
  | failed =>
    rw [hsrc] at h
    exact fresh_of_createDirectory hnot h
  | notFound =>
    rw [hsrc] at h
    dsimp only [FileSystem.missing] at h
    rw [FileSystem.createAll] at h
    cases hfirst : fs.createDirectory [ascii "src"] with
    | none => simp [hfirst] at h
    | some fs₁ =>
      rw [hfirst] at h
      rcases createDirectory_cases hfirst with ⟨-, l, hfound⟩ | ⟨place, c, hmade⟩
      · rw [hsrc] at hfound
        simp at hfound
      · exact fresh_of_createDirectory (status_of_made_parent hmade) h

end Directory

/-! ## The check -/

/-- What the check is for: no element behind the end of the target is read, a file is opened only
when the directory is a proper part of the path to it, and otherwise there is an exception and
no file. -/
structure BoundarySound (fs : FileSystem) (filename content : Text) : Prop where
  inRange : (writeMutation fs filename content).1 ≠ .pastEnd
  below   : ∀ base target, (writeMutation fs filename content).1 = .wrote base target →
    base <+: target ∧ base ≠ target
  noFile  : (∀ base target, (writeMutation fs filename content).1 ≠ .wrote base target) →
    (writeMutation fs filename content).1 = .threw ∧
      SameFiles fs (writeMutation fs filename content).2

/-- The name is accepted, and in `src/generated` it leads to a directory above. -/
structure LeadsAbove (fs : FileSystem) (filename : Text) : Prop where
  accepted : hasTraversal filename = false
  leads    : ∃ base above, Resolves fs sandboxDir base ∧
    Resolves fs (append (rootName :: base) filename) above ∧ above <+: base ∧ above ≠ base

section Check

variable {fs fs' : FileSystem} {base above : List Text} {filename content : Text}

/-- A last element as the system sees it: a first part of it. -/
theorem cString_single (filename : Text) : ∃ c, cString [filename] = [c] ∧ c <+: filename := by
  rw [cString]
  split
  · exact ⟨_, rfl, List.takeWhile_prefix _⟩
  · exact ⟨filename, rfl, List.prefix_rfl⟩

/-- Where an accepted name leads from a directory: it stays there, to one of its nodes, or along a
link. -/
theorem lookup_accepted (hdir : fs.tree.nodes base = some .dir)
    (hfile : hasTraversal filename = false)
    (h : fs.lookup (append (rootName :: base) filename) = .found above) :
    above = base ∨ (∃ c, above = base ++ [c]) ∨
      ∃ c absolute target, fs.tree.nodes (base ++ [c]) = some (.link absolute target) := by
  obtain ⟨hslash, hdots⟩ := accepted_filename hfile
  have hbase : fs.tree.Real base := Or.inl hdir
  rw [append_below hbase hslash, FileSystem.lookup_below hbase, below] at h
  split at h
  · rw [cString, Tree.walk_nil] at h
    exact Or.inl (Walk.found.inj h).symm
  · -- below the directory there is one component, cut at its first NUL
    obtain ⟨c, hc, hseen⟩ := cString_single filename
    rw [hc] at h
    cases hnext : fs.tree.next base c with
    | on place =>
      rw [Tree.walk_on hnext, Tree.walk_nil] at h
      obtain rfl := Walk.found.inj h
      rcases Tree.on_cases hnext with heq | ⟨hleave, -⟩ | heq
      · exact Or.inl heq
      · -- two dots would be part of the name
        exact absurd (leave_eq hleave ▸ hseen.isInfix) hdots
      · exact Or.inr (Or.inl ⟨c, heq⟩)
    | follow place target =>
      obtain ⟨absolute, hlink⟩ := Tree.link_of_follow hnext
      exact Or.inr (Or.inr ⟨c, absolute, target, hlink⟩)
    | absent =>
      rw [Tree.walk_of_absent hnext] at h
      simp at h
    | missing =>
      rw [Tree.walk_of_missing hnext] at h
      simp at h

/-- In an empty directory an accepted name leads nowhere else. -/
theorem eq_of_fresh {p : Path} (hfresh : Fresh fs p base) (hfile : hasTraversal filename = false)
    (h : fs.lookup (append (rootName :: base) filename) = .found above) : above = base := by
  rcases lookup_accepted hfresh.isDir hfile h with heq | ⟨c, rfl⟩ | ⟨c, absolute, target, hlink⟩
  · exact heq
  · have hbase : fs.tree.Real base := Or.inl hfresh.isDir
    have hreal : fs.tree.Real (base ++ [c]) := by
      rw [append_below hbase (accepted_filename hfile).1, FileSystem.lookup_below hbase] at h
      exact Tree.real_of_walk hbase h
    exact absurd (hfresh.empty c) hreal.ne_none
  · rw [hfresh.empty c] at hlink
    simp at hlink

/-- Only in a directory a name leads somewhere. -/
theorem dir_of_lookup (hbase : fs.tree.Real base) (hslash : separator ∉ filename)
    (h : fs.lookup (append (rootName :: base) filename) = .found above) :
    fs.tree.nodes base = some .dir := by
  rcases hbase with hdir | ⟨data, hdata⟩
  · exact hdir
  · exfalso
    have hne : base ≠ [] := by
      rintro rfl
      rw [fs.tree.root] at hdata
      simp at hdata
    rw [append_below (Or.inr ⟨data, hdata⟩) hslash, below, if_neg fun hnil => hne hnil.1,
      FileSystem.lookup_below (Or.inr ⟨data, hdata⟩)] at h
    obtain ⟨c, hc, -⟩ := cString_single filename
    have hmissing : fs.tree.next base c = .missing := by simp only [Tree.next, hdata]
    rw [hc, Tree.walk_of_missing hmissing] at h
    simp at h

/-- A directory is not opened. -/
theorem writeFile_dir (hdir : fs.tree.nodes base = some .dir) :
    fs.writeFile (rootName :: base) content = none := by
  unfold FileSystem.writeFile
  split
  · rfl
  · rw [FileSystem.lookup_node (Or.inl hdir)]
    dsimp only
    rw [hdir]

/-- **How the second half ends**, from a directory that is resolved. -/
theorem writeBelow_cases (hbase : fs.tree.Real base) (hfile : hasTraversal filename = false)
    (content : Text) :
    writeBelow fs (rootName :: base) filename content = (.threw, fs) ∨
    (writeBelow fs (rootName :: base) filename content = (.pastEnd, fs) ∧
      ∃ above, Resolves fs (append (rootName :: base) filename) above ∧ above <+: base ∧
        above ≠ base) ∨
    ∃ target fs', writeBelow fs (rootName :: base) filename content =
        (.wrote (rootName :: base) target, fs') ∧
      rootName :: base <+: target ∧ rootName :: base ≠ target := by
  rw [writeBelow]
  cases htarget : fs.weaklyCanonical (append (rootName :: base) filename) with
  | none => exact Or.inl rfl
  | some target =>
    have hcases := weaklyCanonical_target hbase (accepted_filename hfile).1
      (ne_dotdot_of_accepted hfile) htarget
    dsimp only
    cases hcompare : mismatch (rootName :: base) target with
    | none =>
      right; left
      refine ⟨rfl, ?_⟩
      rw [mismatch_eq_none_iff] at hcompare
      obtain ⟨hshort, hne⟩ := hcompare
      rcases hcases with ⟨above, hleads, rfl⟩ | rfl
      · rw [List.cons_prefix_cons] at hshort
        exact ⟨above, hleads, hshort.2, fun heq => hne (heq ▸ rfl)⟩
      · -- one more name makes it longer
        have hlen := hshort.length_le
        simp only [List.length_cons, List.length_append, List.length_nil] at hlen
        omega
    | some rests =>
      obtain ⟨baseMismatch, rest⟩ := rests
      dsimp only
      split
      · exact Or.inl rfl
      · rename_i hnil
        rw [not_not] at hnil
        subst hnil
        have heq := mismatch_eq_some_nil hcompare
        cases hopen : fs.writeFile target content with
        | none => exact Or.inl rfl
        | some fs' =>
          right; right
          refine ⟨target, fs', rfl, ⟨rest, heq.symm⟩, fun hsame => ?_⟩
          -- the directory itself is not opened
          subst hsame
          rcases hcases with ⟨above, hleads, habove⟩ | hlast
          · obtain rfl := (List.cons.inj habove).2
            have hdir := dir_of_lookup hbase (accepted_filename hfile).1 hleads.leads
            rw [writeFile_dir hdir] at hopen
            simp at hopen
          · have hlen := congrArg List.length hlast
            simp at hlen

/-- What the sandbox directory is resolved to. -/
theorem resolves_sandbox (hleads : fs.lookup sandboxDir = .found base) {p : Path}
    (h : fs.weaklyCanonical sandboxDir = some p) :
    Resolves fs sandboxDir base ∧ p = rootName :: base := by
  by_cases hstat : fs.refuses (.stat sandboxDir) = true
  · rw [FileSystem.weaklyCanonical, FileSystem.status, if_pos hstat] at h
    simp at h
  · have hstatus := status_of_found hleads (by simpa using hstat)
    exact resolves_of_weaklyCanonical (lookup_sandbox fs) hstatus h

theorem real_sandbox (hleads : fs.lookup sandboxDir = .found base) : fs.tree.Real base := by
  rw [relative_sandbox.lookup] at hleads
  exact Tree.real_of_walk (Or.inl fs.inCwd) hleads

/-- The directory that is there when the check is reached: it was, or it is new and empty. -/
theorem ensureSandbox_cases (h : ensureSandbox fs = (true, fs')) :
    (fs' = fs ∧ ∃ base, fs.lookup sandboxDir = .found base) ∨ ∃ base, Fresh fs' sandboxDir base := by
  cases hstatus : fs.status sandboxDir with
  | failed => simp [ensureSandbox, hstatus] at h
  | found base =>
    rw [ensureSandbox, hstatus] at h
    exact Or.inl ⟨(Prod.mk.inj h).2.symm, base, (status_found hstatus).1⟩
  | notFound => exact Or.inr (ensureSandbox_fresh hstatus h)

/-- **How a call ends.** -/
theorem writeMutation_cases (fs : FileSystem) (filename content : Text) :
    ((writeMutation fs filename content).1 = .threw ∧
      SameFiles fs (writeMutation fs filename content).2) ∨
    ((writeMutation fs filename content).1 = .pastEnd ∧ LeadsAbove fs filename) ∨
    ∃ base target, (writeMutation fs filename content).1 = .wrote base target ∧
      base <+: target ∧ base ≠ target := by
  have hmade := ensureSandbox_sameFiles fs
  rw [writeMutation]
  split
  · exact Or.inl ⟨rfl, SameFiles.refl fs⟩
  · rename_i hfile
    rw [Bool.not_eq_true] at hfile
    cases hensure : ensureSandbox fs with
    | mk ready fs' =>
      rw [hensure] at hmade
      cases ready with
      | false => exact Or.inl ⟨rfl, hmade⟩
      | true =>
        dsimp only
        cases hbase : fs'.weaklyCanonical sandboxDir with
        | none => exact Or.inl ⟨rfl, hmade⟩
        | some p =>
          dsimp only
          -- either way there is a place that the sandbox leads to
          have hcases := ensureSandbox_cases hensure
          obtain ⟨base, hleads⟩ : ∃ base, fs'.lookup sandboxDir = .found base := by
            rcases hcases with ⟨rfl, hthere⟩ | ⟨base, hfresh⟩
            · exact hthere
            · exact ⟨base, hfresh.leads⟩
          obtain ⟨hresolves, rfl⟩ := resolves_sandbox hleads hbase
          rcases writeBelow_cases (real_sandbox hleads) hfile content with
            hthrew | ⟨hpast, above, habove, hprefix, hne⟩ | ⟨target, fs'', hwrote, hbelow⟩
          · rw [hthrew]
            exact Or.inl ⟨rfl, hmade⟩
          · right; left
            rw [hpast]
            refine ⟨rfl, hfile, base, above, ?_⟩
            rcases hcases with ⟨rfl, -⟩ | ⟨base', hfresh⟩
            · exact ⟨hresolves, habove, hprefix, hne⟩
            · -- a new directory has no link in it
              rw [hfresh.leads] at hleads
              obtain rfl := Walk.found.inj hleads
              exact absurd (eq_of_fresh hfresh hfile habove.leads) hne
          · rw [hwrote]
            exact Or.inr (Or.inr ⟨_, target, rfl, hbelow⟩)

/-- **A link that leads above** makes the comparison read behind the end of the target. -/
theorem pastEnd_of_leadsAbove (h : LeadsAbove fs filename) (content : Text) :
    (writeMutation fs filename content).1 = .pastEnd := by
  obtain ⟨base, above, hbase, habove, hprefix, hne⟩ := h.leads
  have hreal := real_sandbox hbase.leads
  have hslash := (accepted_filename h.accepted).1
  have hstatus := status_of_found hbase.leads hbase.stat
  have hsame : fs.lookup (fs.absolute (append (rootName :: base) filename)) =
      fs.lookup (append (rootName :: base) filename) := by
    rw [append_below hreal hslash, lookup_absolute]
  have hshort : mismatch (rootName :: base) (rootName :: above) = none := by
    rw [mismatch_eq_none_iff, List.cons_prefix_cons]
    exact ⟨⟨rfl, hprefix⟩, fun heq => hne (List.cons.inj heq).2⟩
  rw [writeMutation, h.accepted, if_neg (by simp), ensureSandbox, hstatus]
  dsimp only
  rw [weaklyCanonical_of_resolves (lookup_sandbox fs) hbase]
  dsimp only
  rw [writeBelow, weaklyCanonical_of_resolves hsame habove]
  dsimp only
  rw [hshort]

/-! ### Links that lead to nothing yet -/

/-- A name that is missing is resolved to itself in the directory, wherever it leads. -/
theorem weaklyCanonical_absent (hrefuses : ∀ call, fs.refuses call = false)
    (hdir : fs.tree.nodes base = some .dir) (hfile : hasTraversal filename = false)
    {place : List Text} {name : Text}
    (habsent : fs.lookup (append (rootName :: base) filename) = .absent place name) :
    append (rootName :: base) filename = rootName :: (base ++ [filename]) ∧
      fs.weaklyCanonical (append (rootName :: base) filename) =
        some (rootName :: (base ++ [filename])) := by
  have hslash := (accepted_filename hfile).1
  have hbase : fs.tree.Real base := Or.inl hdir
  have hstatus : fs.status (append (rootName :: base) filename) = .notFound := by
    rw [FileSystem.status, hrefuses, if_neg (by simp), habsent]
  -- neither an empty name nor a dot is missing
  have hnamed : filename ≠ [] ∧ filename ≠ [dot] := by
    refine not_or.mp fun hname => ?_
    rw [lookup_same hdir hname] at habsent
    simp at habsent
  have hpath : append (rootName :: base) filename = rootName :: (base ++ [filename]) := by
    rw [append_below hbase hslash, below, if_neg fun h => hnamed.1 h.2]
  have hcanonical : fs.canonical (rootName :: base) = some (rootName :: base) := by
    rw [FileSystem.canonical, hrefuses, if_neg (by simp), lookup_absolute,
      FileSystem.lookup_node hbase]
  refine ⟨hpath, ?_⟩
  rw [FileSystem.weaklyCanonical, hstatus]
  dsimp only
  rw [hpath]
  rcases leading_target hbase hstatus with ⟨-, call, hcall⟩ | hsome
  · simp [hrefuses] at hcall
  · rw [hsome, Option.bind_some]
    dsimp only
    rw [if_neg (List.cons_ne_nil _ _), hcanonical, Option.map_some, List.foldl_cons, List.foldl_nil,
      hpath, lexicallyNormal_append (names_of_node hbase.ne_none) hslash
        (ne_dotdot_of_accepted hfile) (Or.inr hnamed), normalLast, if_neg hnamed.2]

/-- **A link to a name that is missing** passes the check, and the file is made where the link
leads, inside of the directory or not. -/
theorem writes_where_link_leads (hrefuses : ∀ call, fs.refuses call = false)
    (hleads : fs.lookup sandboxDir = .found base) (hdir : fs.tree.nodes base = some .dir)
    (hfile : hasTraversal filename = false) {place : List Text} {name : Text}
    (habsent : fs.lookup (append (rootName :: base) filename) = .absent place name)
    (content : Text) :
    writeMutation fs filename content =
      (.wrote (rootName :: base) (rootName :: (base ++ [filename])),
        fs.set (place ++ [name]) (.file content)) := by
  have hstatus := status_of_found hleads (hrefuses _)
  have hsandbox : Resolves fs sandboxDir base := ⟨hleads, hrefuses _, hrefuses _⟩
  obtain ⟨hpath, htarget⟩ := weaklyCanonical_absent hrefuses hdir hfile habsent
  have hmatch : mismatch (rootName :: base) (rootName :: (base ++ [filename])) =
      some ([], [filename]) := mismatch_append (rootName :: base) [filename]
  have hwrite : fs.writeFile (rootName :: (base ++ [filename])) content =
      some (fs.set (place ++ [name]) (.file content)) := by
    rw [FileSystem.writeFile, hrefuses, if_neg (by simp), ← hpath, habsent]
  rw [writeMutation, hfile, if_neg (by simp), ensureSandbox, hstatus]
  dsimp only
  rw [weaklyCanonical_of_resolves (lookup_sandbox fs) hsandbox]
  dsimp only
  rw [writeBelow, htarget]
  dsimp only
  rw [hmatch]
  dsimp only
  rw [if_neg (by simp), hwrite]

/-- **The check does what it is for** exactly when the name is not that of a link to a directory
above the sandbox. -/
theorem boundarySound_iff (fs : FileSystem) (filename content : Text) :
    BoundarySound fs filename content ↔ ¬ LeadsAbove fs filename := by
  constructor
  · intro hsound habove
    exact hsound.inRange (pastEnd_of_leadsAbove habove content)
  · intro hnot
    rcases writeMutation_cases fs filename content with
      ⟨hthrew, hsame⟩ | ⟨-, habove⟩ | ⟨base, target, hwrote, hbelow⟩
    · exact ⟨by simp [hthrew], by simp [hthrew], fun _ => ⟨hthrew, hsame⟩⟩
    · exact absurd habove hnot
    · refine ⟨by simp [hwrote], fun base' target' heq => ?_, fun hno => absurd hwrote (hno _ _)⟩
      rw [hwrote] at heq
      obtain ⟨rfl, rfl⟩ := Outcome.wrote.inj heq
      exact hbelow

end Check

/-- `src/generated` with a link to the directory above it. -/
def linked : FileSystem where
  tree :=
    (((Tree.empty meaning Text).set [ascii "src"] .dir).set [ascii "src", ascii "generated"]
      .dir).set [ascii "src", ascii "generated", ascii "up"] (.link false [dotdot])
  cwd := []
  refuses _ := false
  inCwd := Tree.root _

/-- A link that leads above the sandbox. -/
theorem not_boundarySound_up : ¬ BoundarySound linked (ascii "up") [] := by
  have habove : LeadsAbove linked (ascii "up") := by
    refine ⟨by decide, [ascii "src", ascii "generated"], [ascii "src"], ⟨?_, rfl, rfl⟩,
      ⟨?_, rfl, rfl⟩, by decide, by decide⟩
    · decide
    · decide
  exact fun hsound => hsound.inRange (pastEnd_of_leadsAbove habove [])

end Swayam.WriteMutation
