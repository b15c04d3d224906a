import Swayam.Moltbook.Filesystem

/-!
# SWAYAM — what a path is resolved to

The names that lead to a directory, with one more element behind them: how they are
looked up, and what `weakly_canonical` makes of them.

* `lexicallyNormal_append` — the normal form;
* `weaklyCanonical_of_resolves` — a path that leads somewhere is resolved to that place;
* `weaklyCanonical_target` — any other is resolved to the directory and one more name.
-/

namespace Swayam.WriteMutation

open FileTree LexicalPath

/-! ## Names -/

/-- A name of a file is not one of the special elements. -/
structure IsName (c : Text) : Prop where
  noZero  : 0 ∉ c
  noSlash : separator ∉ c
  ne_nil  : c ≠ []
  ne_dot  : c ≠ [dot]
  ne_dots : c ≠ dotdot

theorem isName_of_meaning {c : Text} (h : meaning c = some .enter) : IsName c := by
  unfold meaning at h
  split at h
  · simp at h
  · rename_i hplain
    rw [not_or] at hplain
    split at h
    · simp at h
    · rename_i hstay
      rw [not_or] at hstay
      split at h
      · simp at h
      · rename_i hleave
        exact ⟨hplain.1, hplain.2, hstay.1, hstay.2, hleave⟩

/-- Only the two dots lead up. -/
theorem leave_eq {c : Text} (h : meaning c = some .leave) : c = dotdot := by
  unfold meaning at h
  split at h
  · simp at h
  · split at h
    · simp at h
    · split at h
      · assumption
      · simp at h

theorem IsName.ne_root {c : Text} (h : IsName c) : c ≠ rootName := by
  rintro rfl
  exact h.noSlash (List.mem_singleton_self _)

theorem names_of_node {fs : FileSystem} {place : List Text} (h : fs.tree.nodes place ≠ none) :
    ∀ c ∈ place, IsName c := fun _ hc => isName_of_meaning (Tree.named_of_mem h hc)

/-- A C string of names is cut nowhere. -/
theorem cString_append {l : Path} (h : ∀ c ∈ l, IsName c) (p : Path) :
    cString (l ++ p) = l ++ cString p := by
  induction l with
  | nil => rfl
  | cons c l ih =>
    rw [List.cons_append, cString, if_neg (h c (List.mem_cons_self ..)).noZero,
      ih fun d hd => h d (List.mem_cons_of_mem _ hd), List.cons_append]

theorem cString_root (p : Path) : cString (rootName :: p) = rootName :: cString p := by
  rw [cString, if_neg (by decide)]

namespace FileSystem

variable {fs : FileSystem} {base done todo : List Text} {c filename : Text}

/-- A path below a node is followed from there. -/
theorem lookup_below (h : fs.tree.Real base) (p : Path) :
    fs.lookup (rootName :: (base ++ p)) = fs.tree.walk linkLimit base (cString p) := by
  rw [lookup, cString_root, List.head?_cons, if_pos rfl, List.tail_cons,
    cString_append (names_of_node h.ne_none), Tree.walk_real h]

theorem lookup_node (h : fs.tree.Real base) : fs.lookup (rootName :: base) = .found base := by
  have hlookup := lookup_below h []
  rwa [List.append_nil, cString, Tree.walk_nil] at hlookup

/-- What the system calls by its own path is canonical. -/
theorem canonical_node (h : fs.tree.Real base) {p : Path}
    (hp : fs.canonical (rootName :: base) = some p) : p = rootName :: base := by
  unfold canonical at hp
  rw [show fs.absolute (rootName :: base) = rootName :: base from if_pos rfl] at hp
  split at hp
  · simp at hp
  · rw [lookup_node h] at hp
    exact (Option.some.inj hp).symm

end FileSystem

/-! ### Appending them -/

/-- The element that is put behind a path of names: none for an empty one behind the root. -/
theorem append_filename {base : Path} {filename : Text} (hbase : ∀ d ∈ base, IsName d)
    (hslash : separator ∉ filename) (hne : base ≠ [] ∨ filename ≠ []) :
    append (rootName :: base) filename = rootName :: (base ++ [filename]) := by
  have hroot : filename ≠ rootName := by
    rintro rfl
    exact hslash (List.mem_singleton_self _)
  have hlast : (rootName :: base).getLast? ≠ some [] := by
    intro hnil
    rcases List.mem_cons.mp (List.mem_of_getLast? hnil) with hroot' | hmem
    · exact absurd hroot' (by decide)
    · exact (hbase _ hmem).ne_nil rfl
  by_cases hfile : filename = []
  · -- an empty name puts a slash behind the last of the names
    have hbase' := hne.resolve_right (not_not.mpr hfile)
    have hname : hasFilename (rootName :: base) = true := by
      have hisName := hbase _ (List.getLast_mem hbase')
      have hd : (rootName :: base).getLast? = some (base.getLast hbase') := by
        rw [List.getLast?_cons, List.getLast?_eq_some_getLast hbase', Option.getD_some]
      simp [hasFilename, hd, hisName.ne_nil, hisName.ne_root]
    rw [append, if_neg hroot, if_pos hfile, if_pos hname, hfile, List.cons_append]
  · rw [append, if_neg hroot, if_neg hfile, if_neg hlast, List.cons_append]

/-- A name is appended behind a place, -/
theorem append_name {done : Path} {c : Text} (hdone : ∀ d ∈ done, IsName d) (h : IsName c) :
    append (rootName :: done) c = rootName :: (done ++ [c]) :=
  append_filename hdone h.noSlash (Or.inr h.ne_nil)

/-! ### Normal forms -/

theorem normalStep_root : normalStep [] rootName = [rootName] := by decide

/-- and stays under normalising, -/
theorem normalStep_name {done : Path} {c : Text} (hdone : ∀ d ∈ done, IsName d) (h : IsName c) :
    normalStep (rootName :: done) c = rootName :: (done ++ [c]) := by
  rw [normalStep, if_neg h.ne_dots, if_neg h.ne_dot, append_name hdone h]

/-- as all of them do. -/
theorem foldl_normalStep {done todo : Path} (h : ∀ d ∈ done ++ todo, IsName d) :
    todo.foldl normalStep (rootName :: done) = rootName :: (done ++ todo) := by
  induction todo generalizing done with
  | nil => rw [List.foldl_nil, List.append_nil]
  | cons c todo ih =>
    have hc := h c (by simp)
    have hdone : ∀ d ∈ done, IsName d := fun d hd => h d (List.mem_append_left _ hd)
    rw [List.foldl_cons, normalStep_name hdone hc]
    rw [ih (by simpa using h), List.append_assoc, List.singleton_append]

/-- The element that the normal form ends with. -/
def normalLast (filename : Text) : Text := if filename = [dot] then [] else filename

/-- **The normal form** of a path of names with one more element. -/
theorem lexicallyNormal_append {base : Path} {filename : Text} (hbase : ∀ d ∈ base, IsName d)
    (hslash : separator ∉ filename) (hdots : filename ≠ dotdot)
    (hne : base ≠ [] ∨ (filename ≠ [] ∧ filename ≠ [dot])) :
    lexicallyNormal (rootName :: (base ++ [filename])) =
      rootName :: (base ++ [normalLast filename]) := by
  have hfold : (rootName :: (base ++ [filename])).foldl normalStep [] =
      normalStep (rootName :: base) filename := by
    have hnames : base.foldl normalStep [rootName] = rootName :: ([] ++ base) :=
      foldl_normalStep (by simpa using hbase)
    rw [List.foldl_cons, normalStep_root, List.foldl_append, hnames, List.nil_append,
      List.foldl_cons, List.foldl_nil]
  -- the last element is put behind the others
  have hstep : normalStep (rootName :: base) filename =
      rootName :: (base ++ [normalLast filename]) := by
    rw [normalStep, if_neg hdots, normalLast]
    by_cases hdot : filename = [dot]
    · have hbase' : base ≠ [] := hne.resolve_right fun h => h.2 hdot
      rw [if_pos hdot, if_pos hdot]
      exact append_filename hbase List.not_mem_nil (Or.inl hbase')
    · rw [if_neg hdot, if_neg hdot]
      exact append_filename hbase hslash (hne.imp_right fun h => h.1)
  rw [lexicallyNormal, if_neg (List.cons_ne_nil _ _)]
  dsimp only
  rw [hfold, hstep, if_pos (by simp), if_neg]
  -- no name is two dots
  rintro ⟨-, hback⟩
  have hmem := List.mem_of_getLast? hback
  rw [← List.cons_append, List.dropLast_concat] at hmem
  rcases List.mem_cons.mp hmem with hroot | hname
  · exact absurd hroot (by decide)
  · exact (hbase _ hname).ne_dots rfl

/-! ## Resolution -/

/-- A path leads to a place, and the system says so. -/
structure Resolves (fs : FileSystem) (p : Path) (place : List Text) : Prop where
  leads    : fs.lookup p = .found place
  stat     : fs.refuses (.stat p) = false
  realpath : fs.refuses (.realpath (fs.absolute p)) = false

section Resolution

variable {fs : FileSystem} {p : Path} {base place : List Text} {filename : Text}

/-- A status is a lookup that is not refused, -/
theorem status_found (h : fs.status p = .found place) :
    fs.lookup p = .found place ∧ fs.refuses (.stat p) = false := by
  unfold FileSystem.status at h
  split at h
  · simp at h
  · rename_i hstat
    refine ⟨?_, by simpa using hstat⟩
    split at h
    · rename_i heq
      rw [heq, FileSystem.Status.found.inj h]
    all_goals simp at h

/-- and the other way round. -/
theorem status_of_found (hlookup : fs.lookup p = .found place)
    (hstat : fs.refuses (.stat p) = false) : fs.status p = .found place := by
  rw [FileSystem.status, hstat, if_neg (by simp), hlookup]

/-- A path that is there is resolved to the place where it leads. -/
theorem weaklyCanonical_of_resolves (hsame : fs.lookup (fs.absolute p) = fs.lookup p)
    (h : Resolves fs p place) : fs.weaklyCanonical p = some (rootName :: place) := by
  rw [FileSystem.weaklyCanonical, status_of_found h.leads h.stat]
  dsimp only
  rw [FileSystem.canonical, h.realpath, if_neg (by simp), hsame, h.leads]

/-- Where the lookup finds the path, the canonical one is its place. -/
theorem resolves_of_weaklyCanonical (hsame : fs.lookup (fs.absolute p) = fs.lookup p)
    (hstatus : fs.status p = .found place) {q : Path} (h : fs.weaklyCanonical p = some q) :
    Resolves fs p place ∧ q = rootName :: place := by
  obtain ⟨hleads, hstat⟩ := status_found hstatus
  rw [FileSystem.weaklyCanonical, hstatus] at h
  dsimp only at h
  unfold FileSystem.canonical at h
  split at h
  · simp at h
  · rename_i hreal
    rw [hsame, hleads] at h
    exact ⟨⟨hleads, hstat, by simpa using hreal⟩, (Option.some.inj h).symm⟩

/-- An absolute path is looked up as it is. -/
theorem lookup_absolute (p : Path) :
    fs.lookup (fs.absolute (rootName :: p)) = fs.lookup (rootName :: p) := by
  rw [show fs.absolute (rootName :: p) = rootName :: p from if_pos rfl]

/-- What is put behind the directory. -/
def below (base : List Text) (filename : Text) : Path :=
  if base = [] ∧ filename = [] then [] else [filename]

/-- What is appended to a place stands below it. -/
theorem append_below (hbase : fs.tree.Real base) (hslash : separator ∉ filename) :
    append (rootName :: base) filename = rootName :: (base ++ below base filename) := by
  by_cases hnil : base = [] ∧ filename = []
  · rw [below, if_pos hnil, hnil.1, hnil.2]
    decide
  · rw [below, if_neg hnil]
    exact append_filename (names_of_node hbase.ne_none) hslash (not_and_or.mp hnil)

/-- The leading elements are all that lead to the directory, when the system gives them. -/
theorem leading_names {done todo : List Text} (h : fs.tree.Real (done ++ todo)) (rest : Path) :
    (fs.leading (rootName :: done) (todo ++ rest) = none ∧ ∃ call, fs.refuses call = true) ∨
      fs.leading (rootName :: done) (todo ++ rest) =
        fs.leading (rootName :: (done ++ todo)) rest := by
  -- one status call for each name, any of which the system can refuse
  induction todo generalizing done with
  | nil =>
    right
    rw [List.append_nil, List.nil_append]
  | cons c todo ih =>
    have hnames := names_of_node h.ne_none
    have hreal : fs.tree.Real (done ++ [c]) := by
      rw [List.append_cons] at h
      by_cases hnil : todo = []
      · rwa [hnil, List.append_nil] at h
      · exact Or.inl (Tree.dir_of_append h.ne_none hnil)
    have happend : append (rootName :: done) c = rootName :: (done ++ [c]) :=
      append_name (fun d hd => hnames d (List.mem_append_left _ hd)) (hnames c (by simp))
    rw [List.cons_append, FileSystem.leading, happend]
    rw [FileSystem.status, FileSystem.lookup_node hreal]
    by_cases hrefused : fs.refuses (.stat (rootName :: (done ++ [c]))) = true
    · rw [if_pos hrefused]
      exact Or.inl ⟨rfl, _, hrefused⟩
    · rw [if_neg hrefused]
      dsimp only
      rw [List.append_cons] at h
      rw [List.append_cons done c todo]
      exact ih h

/-- A target that is not there is canonical up to its last component. -/
theorem leading_target (hbase : fs.tree.Real base)
    (hstatus : fs.status (append (rootName :: base) filename) = .notFound) :
    (fs.leading [] (rootName :: (base ++ [filename])) = none ∧ ∃ call, fs.refuses call = true) ∨
      fs.leading [] (rootName :: (base ++ [filename])) = some (rootName :: base, [filename]) := by
  have hroot : append [] rootName = [rootName] := if_pos rfl
  have hlookup : fs.lookup [rootName] = .found [] :=
    FileSystem.lookup_node (Or.inl fs.tree.root)
  rw [FileSystem.leading, hroot, FileSystem.status, hlookup]
  by_cases hrefused : fs.refuses (.stat [rootName]) = true
  · rw [if_pos hrefused]
    exact Or.inl ⟨rfl, _, hrefused⟩
  · rw [if_neg hrefused]
    dsimp only
    have hreal : fs.tree.Real ([] ++ base) := hbase
    rcases leading_names hreal [filename] with hnone | hrest
    · exact Or.inl hnone
    · right
      rw [hrest, List.nil_append, FileSystem.leading, hstatus]

/-- A directory is where an empty name and a dot lead from it. -/
theorem lookup_same (hdir : fs.tree.nodes base = some .dir)
    (h : filename = [] ∨ filename = [dot]) :
    fs.lookup (append (rootName :: base) filename) = .found base := by
  have hbase : fs.tree.Real base := Or.inl hdir
  have hslash : separator ∉ filename := by
    rcases h with rfl | rfl
    · exact List.not_mem_nil
    · decide
  have hnext : fs.tree.next base filename = .on base := by
    have hstay : meaning filename = some .stay := by
      rcases h with rfl | rfl
      · decide
      · decide
    simp only [Tree.next, hdir, hstay]
  have hseen : cString [filename] = [filename] := by
    rcases h with rfl | rfl
    · decide
    · decide
  rw [append_below hbase hslash, FileSystem.lookup_below hbase, below]
  split
  · rw [cString, Tree.walk_nil]
  · rw [hseen, Tree.walk_on hnext, Tree.walk_nil]

/-- **What the target is resolved to**: a node that is there, or one more name in the directory. -/
theorem weaklyCanonical_target (hbase : fs.tree.Real base) (hslash : separator ∉ filename)
    (hdots : filename ≠ dotdot) {target : Path}
    (h : fs.weaklyCanonical (append (rootName :: base) filename) = some target) :
    (∃ above, Resolves fs (append (rootName :: base) filename) above ∧
      target = rootName :: above) ∨
    target = rootName :: (base ++ [normalLast filename]) := by
  have hpath := append_below hbase hslash
  cases hstatus : fs.status (append (rootName :: base) filename) with
  | failed => simp [FileSystem.weaklyCanonical, hstatus] at h
  | found above =>
    have hsame : fs.lookup (fs.absolute (append (rootName :: base) filename)) =
        fs.lookup (append (rootName :: base) filename) := by
      rw [hpath, lookup_absolute]
    exact Or.inl ⟨above, resolves_of_weaklyCanonical hsame hstatus h⟩
  | notFound =>
    right
    -- the directory itself is there, and so is the one that a dot stands for
    have hne : base ≠ [] ∨ (filename ≠ [] ∧ filename ≠ [dot]) := by
      by_cases hroot : base = []
      · right
        subst hroot
        refine not_or.mp fun hname => ?_
        rw [FileSystem.status, lookup_same fs.tree.root hname] at hstatus
        split at hstatus <;> simp at hstatus
      · exact Or.inl hroot
    have hbelow : below base filename = [filename] := by
      rw [below, if_neg]
      rintro ⟨hb, hf⟩
      exact hne.elim (fun h => h hb) fun h => h.1 hf
    rw [FileSystem.weaklyCanonical, hstatus] at h
    dsimp only at h
    rw [hpath, hbelow] at h
    rcases leading_target hbase hstatus with ⟨hnone, -⟩ | hsome
    · simp [hnone] at h
    · rw [hsome, Option.bind_some] at h
      dsimp only at h
      rw [if_neg (List.cons_ne_nil _ _), Option.map_eq_some_iff] at h
      obtain ⟨result, hresult, rfl⟩ := h
      rw [FileSystem.canonical_node hbase hresult, List.foldl_cons, List.foldl_nil, hpath, hbelow]
      exact lexicallyNormal_append (names_of_node hbase.ne_none) hslash hdots hne

end Resolution

end Swayam.WriteMutation
