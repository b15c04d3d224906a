import Swayam.SafeExtract

/-!
# SWAYAM — where `safe_extract.py` writes

The name of a member is read three times: `is_safe_path` resolves its `..`
components, the allow-list matches it as it stands, and `ZipFile.extract` leaves
its `..` components out. The readings agree on a name without such components.
No link below the target directory is taken to lead elsewhere.

* `normpath_under` — a normalised path under a normalised directory, component by
  component;
* `safeExtract_written` — what a run writes is what it has extracted;
* `extractedPath_eq`, `approvedPath_eq` — the path that is written, and the path
  that was approved;
* `writesWhereChecked_iff` — they are the same, and allowed, exactly for a name
  without `..` whose cleaned form is on the allow-list.
-/

namespace Swayam.SafeExtract

/-! ## Components -/

/-- Splitting at separators is the library's. -/
theorem splitSep_eq_splitOn (s : Str) : splitSep s = s.splitOn '/' := by
  induction s with
  | nil => rfl
  | cons c cs ih =>
    rw [splitSep, ih, List.splitOn_cons_eq_if_modifyHead]
    by_cases hc : c = '/'
    · simp [hc]
    · obtain ⟨comp, comps, hcs⟩ := List.exists_cons_of_ne_nil (List.splitOn_ne_nil '/' cs)
      simp [hc, hcs]

theorem splitSep_append (a b : Str) : splitSep (a ++ '/' :: b) = splitSep a ++ splitSep b := by
  simp only [splitSep_eq_splitOn, List.splitOn_append_cons_self]

/-- `..` -/
def parentDir : Str := ['.', '.']

/-- A component that a normalised absolute path may have. -/
structure Clean (comp : Str) : Prop where
  nonempty : comp ≠ []
  noDot    : comp ≠ ['.']
  noParent : comp ≠ parentDir
  noSep    : '/' ∉ comp

/-- What was joined from clean components splits into them. -/
theorem splitSep_joinSep {comps : List Str} (h : ∀ comp ∈ comps, Clean comp) (hne : comps ≠ []) :
    splitSep (joinSep comps) = comps := by
  rw [splitSep_eq_splitOn, joinSep]
  exact List.splitOn_intercalate '/' (fun comp hcomp => (h comp hcomp).noSep) hne

/-- A component holds no separator. -/
theorem noSep_of_mem_splitSep {s comp : Str} (h : comp ∈ splitSep s) : '/' ∉ comp := by
  induction s generalizing comp with
  | nil =>
    rw [splitSep, List.mem_singleton] at h
    simp [h]
  | cons c cs ih =>
    rw [splitSep] at h
    split at h
    · rcases List.mem_cons.mp h with rfl | h
      · simp
      · exact ih h
    · rename_i hc
      split at h
      · rw [List.mem_singleton] at h
        rw [h, List.mem_singleton]
        exact fun heq => hc heq.symm
      · rename_i first comps hcs
        rcases List.mem_cons.mp h with rfl | h
        · rw [List.mem_cons, not_or]
          exact ⟨fun heq => hc heq.symm, ih (hcs ▸ List.mem_cons_self ..)⟩
        · exact ih (hcs ▸ List.mem_cons_of_mem _ h)

/-- Joining in two parts. -/
theorem joinSep_append {a b : List Str} (ha : a ≠ []) (hb : b ≠ []) :
    joinSep (a ++ b) = joinSep a ++ '/' :: joinSep b := by
  unfold joinSep
  induction a with
  | nil => exact absurd rfl ha
  | cons comp a ih =>
    cases a with
    | nil => simp [List.intercalate_cons_of_ne_nil hb]
    | cons comp' a =>
      rw [List.cons_append, List.intercalate_cons_of_ne_nil (by simp), ih (by simp),
        List.intercalate_cons_of_ne_nil (List.cons_ne_nil comp' a)]
      simp

/-- Neither end of a joined path is a separator. -/
theorem joinSep_head {comps : List Str} (h : ∀ comp ∈ comps, Clean comp) :
    (joinSep comps).head? ≠ some '/' := by
  cases comps with
  | nil => simp [joinSep]
  | cons comp comps =>
    have hcomp := h comp (List.mem_cons_self ..)
    obtain ⟨c, cs, rfl⟩ := List.exists_cons_of_ne_nil hcomp.nonempty
    have hc : c ≠ '/' := fun heq => hcomp.noSep (by simp [heq])
    simp [joinSep, hc]

/-- A joined path ends in no separator, -/
theorem joinSep_getLast {comps : List Str} (h : ∀ comp ∈ comps, Clean comp) :
    (joinSep comps).getLast? ≠ some '/' := by
  rcases List.eq_nil_or_concat comps with rfl | ⟨front, comp, rfl⟩
  · simp [joinSep]
  · rw [List.concat_eq_append] at h ⊢
    have hcomp := h comp (by simp)
    have hlast : comp.getLast? ≠ some '/' := by
      intro heq
      exact hcomp.noSep (List.mem_of_getLast? heq)
    by_cases hfront : front = []
    · simpa [hfront, joinSep] using hlast
    · rw [joinSep_append hfront (by simp)]
      have hsingle : joinSep [comp] = comp := List.intercalate_singleton
      rw [hsingle, List.getLast?_append_of_ne_nil _ (by simp),
        List.getLast?_cons_of_ne_nil hcomp.nonempty]
      exact hlast

/-- and tells its components. -/
theorem joinSep_injective {a b : List Str} (ha : ∀ comp ∈ a, Clean comp)
    (hb : ∀ comp ∈ b, Clean comp) (h : joinSep a = joinSep b) : a = b := by
  have hempty : ∀ comps : List Str, (∀ comp ∈ comps, Clean comp) → joinSep comps = [] →
      comps = [] := by
    intro comps hclean hjoin
    by_contra hne
    -- the only component would be empty
    have hsplit := splitSep_joinSep hclean hne
    rw [hjoin] at hsplit
    exact (hclean [] (by rw [← hsplit]; exact List.mem_singleton_self _)).nonempty rfl
  by_cases ha' : a = []
  · rw [ha'] at h ⊢
    exact (hempty b hb h.symm).symm
  · by_cases hb' : b = []
    · rw [hb'] at h
      exact absurd (hempty a ha h) ha'
    · rw [← splitSep_joinSep ha ha', h, splitSep_joinSep hb hb']

/-- The components that are kept: not empty, not `.` and not `..`. -/
def kept (comps : List Str) : List Str :=
  comps.filter fun comp => comp ≠ [] ∧ comp ≠ ['.'] ∧ comp ≠ parentDir

def keptComponents (filename : Str) : List Str := kept (splitSep filename)

/-- What the archive's sanitising keeps is clean, -/
theorem clean_keptComponents (filename : Str) : ∀ comp ∈ keptComponents filename, Clean comp := by
  intro comp hcomp
  rw [keptComponents, kept, List.mem_filter, decide_eq_true_eq] at hcomp
  obtain ⟨hmem, hnonempty, hdot, hparent⟩ := hcomp
  exact ⟨hnonempty, hdot, hparent, noSep_of_mem_splitSep hmem⟩

/-! ## `normpath`, component by component -/

section Normpath

variable {i : Nat} {base comps : List Str}

/-- Behind a slash, a `..` takes back the component in front of it, if there is one. -/
theorem normComp_eq (hi : i ≠ 0) (hbase : ∀ comp ∈ base, Clean comp) (comp : Str) :
    normComp i base comp =
      if comp = [] ∨ comp = ['.'] then base
      else if comp = parentDir then base.tail
      else comp :: base := by
  unfold normComp
  have hhead : base.head? ≠ some ['.', '.'] := by
    intro heq
    exact (hbase _ (List.mem_of_head? heq)).noParent rfl
  have hzero : ¬ (i = 0 ∧ base = []) := fun h => hi h.1
  simp only [parentDir]
  split
  · rfl
  · by_cases hparent : comp = ['.', '.']
    · simp [hparent, hhead, hzero]
    · simp [hparent]

/-- The components stay clean. -/
theorem clean_normComp (hi : i ≠ 0) (hbase : ∀ comp ∈ base, Clean comp) {comp : Str}
    (hcomp : '/' ∉ comp) : ∀ x ∈ normComp i base comp, Clean x := by
  rw [normComp_eq hi hbase]
  split
  · exact hbase
  · rename_i hdot
    rw [not_or] at hdot
    split
    · exact fun x hx => hbase x (List.mem_of_mem_tail hx)
    · rename_i hparent
      intro x hx
      rcases List.mem_cons.mp hx with rfl | hx
      · exact ⟨hdot.1, hdot.2, hparent, hcomp⟩
      · exact hbase x hx

/-- and so is what normalising leaves. -/
theorem clean_foldl_normComp (hi : i ≠ 0) (hbase : ∀ comp ∈ base, Clean comp)
    (hcomps : ∀ comp ∈ comps, '/' ∉ comp) : ∀ x ∈ comps.foldl (normComp i) base, Clean x := by
  induction comps generalizing base with
  | nil => exact hbase
  | cons comp comps ih =>
    rw [List.foldl_cons]
    refine ih (clean_normComp hi hbase (hcomps comp (List.mem_cons_self ..))) ?_
    exact fun x hx => hcomps x (List.mem_cons_of_mem _ hx)

/-- Every component is kept, dropped, or a `..`. -/
theorem normComp_cases (hi : i ≠ 0) (hbase : ∀ comp ∈ base, Clean comp) (comp : Str)
    (comps : List Str) :
    (normComp i base comp = base ∧ kept (comp :: comps) = kept comps ∧ comp ≠ parentDir) ∨
    (normComp i base comp = comp :: base ∧ kept (comp :: comps) = comp :: kept comps ∧
      comp ≠ parentDir) ∨
    (normComp i base comp = base.tail ∧ kept (comp :: comps) = kept comps ∧
      comp = parentDir) := by
  rw [normComp_eq hi hbase]
  by_cases hdropped : comp = [] ∨ comp = ['.']
  · rw [if_pos hdropped]
    refine Or.inl ⟨rfl, List.filter_cons_of_neg ?_, ?_⟩
    · rcases hdropped with rfl | rfl <;> simp
    · rcases hdropped with rfl | rfl <;> decide
  · rw [if_neg hdropped]
    rw [not_or] at hdropped
    by_cases hparent : comp = parentDir
    · rw [if_pos hparent]
      exact Or.inr (Or.inr ⟨rfl, List.filter_cons_of_neg (by simp [hparent]), hparent⟩)
    · rw [if_neg hparent]
      exact Or.inr (Or.inl ⟨rfl, List.filter_cons_of_pos (by simp [hdropped, hparent]), hparent⟩)

/-- **Without a `..` the kept components go on top.** -/
theorem foldl_normComp_eq (hi : i ≠ 0) (hbase : ∀ comp ∈ base, Clean comp)
    (hcomps : ∀ comp ∈ comps, '/' ∉ comp) (hparent : parentDir ∉ comps) :
    comps.foldl (normComp i) base = (kept comps).reverse ++ base := by
  induction comps generalizing base with
  | nil => rfl
  | cons comp comps ih =>
    rw [List.mem_cons, not_or] at hparent
    have hclean := clean_normComp hi hbase (hcomps comp (List.mem_cons_self ..))
    rw [List.foldl_cons, ih hclean (fun x hx => hcomps x (List.mem_cons_of_mem _ hx)) hparent.2]
    rcases normComp_cases hi hbase comp comps with ⟨hnorm, hkept, -⟩ | ⟨hnorm, hkept, -⟩ |
      ⟨-, -, hcomp⟩
    · rw [hnorm, hkept]
    · rw [hnorm, hkept, List.reverse_cons, List.append_assoc]
      rfl
    · exact absurd hcomp.symm hparent.1

/-- Normalising keeps no more components than it is given. -/
theorem length_foldl_normComp_le (hi : i ≠ 0) (hbase : ∀ comp ∈ base, Clean comp)
    (hcomps : ∀ comp ∈ comps, '/' ∉ comp) :
    (comps.foldl (normComp i) base).length ≤ (kept comps).length + base.length := by
  induction comps generalizing base with
  | nil => simp
  | cons comp comps ih =>
    have hclean := clean_normComp hi hbase (hcomps comp (List.mem_cons_self ..))
    have hrest := ih hclean fun x hx => hcomps x (List.mem_cons_of_mem _ hx)
    rw [List.foldl_cons]
    rcases normComp_cases hi hbase comp comps with ⟨hnorm, hkept, -⟩ | ⟨hnorm, hkept, -⟩ |
      ⟨hnorm, hkept, -⟩
    · rw [hnorm] at hrest ⊢
      rw [hkept]
      exact hrest
    · rw [hnorm, List.length_cons] at hrest
      rw [hnorm, hkept, List.length_cons]
      omega
    · rw [hnorm, List.length_tail] at hrest
      rw [hnorm, hkept]
      omega

/-- **The first `..` takes a component away**, when there is one to take. -/
theorem length_foldl_normComp_lt (hi : i ≠ 0) (hbase : ∀ comp ∈ base, Clean comp)
    (hne : base ≠ []) (hcomps : ∀ comp ∈ comps, '/' ∉ comp) (hparent : parentDir ∈ comps) :
    (comps.foldl (normComp i) base).length < (kept comps).length + base.length := by
  induction comps generalizing base with
  | nil => exact absurd hparent List.not_mem_nil
  | cons comp comps ih =>
    have hclean := clean_normComp hi hbase (hcomps comp (List.mem_cons_self ..))
    have hcomps' : ∀ x ∈ comps, '/' ∉ x := fun x hx => hcomps x (List.mem_cons_of_mem _ hx)
    rw [List.foldl_cons]
    rcases normComp_cases hi hbase comp comps with ⟨hnorm, hkept, hcomp⟩ | ⟨hnorm, hkept, hcomp⟩ |
      ⟨hnorm, hkept, -⟩
    · have hrest := (List.mem_cons.mp hparent).resolve_left (Ne.symm hcomp)
      rw [hnorm, hkept]
      exact ih hbase hne hcomps' hrest
    · have hrest := (List.mem_cons.mp hparent).resolve_left (Ne.symm hcomp)
      have hlt := ih hclean (by rw [hnorm]; exact List.cons_ne_nil comp base) hcomps' hrest
      rw [hnorm, List.length_cons] at hlt
      rw [hnorm, hkept, List.length_cons]
      omega
    · -- this is the first one
      have hle := length_foldl_normComp_le hi hclean hcomps'
      have hpos : 0 < base.length := List.length_pos_iff.mpr hne
      rw [hnorm, List.length_tail] at hle
      rw [hnorm, hkept]
      omega

/-! ## Normalised absolute paths -/

/-- The slashes that `normpath` keeps in front of an absolute path. -/
def slashes (path : Str) : Nat :=
  if ['/', '/'].isPrefixOf path && !(['/', '/', '/'].isPrefixOf path) then 2 else 1

/-- An absolute path starts with one slash or two. -/
theorem slashes_eq (path : Str) : slashes path = 1 ∨ slashes path = 2 := by
  unfold slashes
  split
  · exact Or.inr rfl
  · exact Or.inl rfl

/-- How an absolute path is normalised. -/
theorem normpath_of_absolute {path : Str} (h : ['/'].isPrefixOf path = true) :
    normpath path = List.replicate (slashes path) '/' ++
      joinSep ((splitSep path).foldl (normComp (slashes path)) []).reverse := by
  have hne : path ≠ [] := by
    rintro rfl
    exact absurd h (by decide)
  have hslashes : (if ['/', '/'].isPrefixOf path && !(['/', '/', '/'].isPrefixOf path) then 2
      else if ['/'].isPrefixOf path then 1 else 0) = slashes path := by
    rw [slashes, h]
    rfl
  rw [normpath, if_neg hne]
  dsimp only
  rw [hslashes, if_neg]
  -- there is a slash
  rcases slashes_eq path with h | h <;> simp [h]

/-- The path of these components, behind one or two slashes. -/
def absPath (i : Nat) (comps : List Str) : Str := List.replicate i '/' ++ joinSep comps

/-- **A normalised absolute path is one of clean components.** -/
theorem exists_absPath {path : Str} (h : ['/'].isPrefixOf path = true) :
    ∃ comps, normpath path = absPath (slashes path) comps ∧ ∀ comp ∈ comps, Clean comp := by
  have hi : slashes path ≠ 0 := by
    rcases slashes_eq path with h | h <;> simp [h]
  refine ⟨_, normpath_of_absolute h, fun comp hcomp => ?_⟩
  exact clean_foldl_normComp hi (by simp) (fun _ hx => noSep_of_mem_splitSep hx) comp
    (List.mem_reverse.mp hcomp)

/-- Clean components are kept. -/
theorem kept_of_clean (h : ∀ comp ∈ comps, Clean comp) : kept comps = comps := by
  rw [kept, List.filter_eq_self]
  intro comp hcomp
  have hclean := h comp hcomp
  exact decide_eq_true ⟨hclean.nonempty, hclean.noDot, hclean.noParent⟩

/-- Two texts that start with a separator less are told apart behind the slashes. -/
theorem slashes_of_head {rest : Str} (hi : i = 1 ∨ i = 2) (hrest : rest.head? ≠ some '/') :
    slashes (List.replicate i '/' ++ rest) = i := by
  cases rest with
  | nil => rcases hi with rfl | rfl <;> rfl
  | cons c rest =>
    have hc : ('/' == c) = false := by
      rw [List.head?_cons] at hrest
      simpa using fun heq : '/' = c => hrest (by rw [heq])
    rcases hi with rfl | rfl <;> simp [slashes, List.replicate, List.isPrefixOf, hc]

theorem joinSep_append_head {rest : Str} (hne : base ≠ []) (hbase : ∀ comp ∈ base, Clean comp) :
    (joinSep base ++ rest).head? ≠ some '/' := by
  have hfirst := joinSep_head hbase
  cases hjoin : joinSep base with
  | nil =>
    -- a path of clean components is not empty
    exact absurd (joinSep_injective (b := []) hbase (by simp) (by rw [hjoin]; rfl)) hne
  | cons c cs =>
    rw [hjoin] at hfirst
    simpa using hfirst

/-- The components of a path under an absolute one. -/
theorem splitSep_absPath_append (hi : i = 1 ∨ i = 2) (hne : base ≠ [])
    (hbase : ∀ comp ∈ base, Clean comp) (tail : Str) :
    splitSep (absPath i base ++ '/' :: tail) = List.replicate i [] ++ base ++ splitSep tail := by
  have hslash : ∀ rest : Str, splitSep ('/' :: rest) = [] :: splitSep rest := fun rest => by
    rw [splitSep, if_pos rfl]
  rw [splitSep_append, absPath]
  congr 1
  rcases hi with rfl | rfl
  · show splitSep ('/' :: joinSep base) = [[]] ++ base
    rw [hslash, splitSep_joinSep hbase hne]
    rfl
  · show splitSep ('/' :: '/' :: joinSep base) = [[], []] ++ base
    rw [hslash, hslash, splitSep_joinSep hbase hne]
    rfl

/-- **A path under a normalised directory**: its components go on top of the directory's. -/
theorem normpath_under (hi : i = 1 ∨ i = 2) (hne : base ≠ []) (hbase : ∀ comp ∈ base, Clean comp)
    (tail : Str) : normpath (absPath i base ++ '/' :: tail) =
      absPath i ((splitSep tail).foldl (normComp i) base.reverse).reverse := by
  have hi' : i ≠ 0 := by omega
  have habsolute : ['/'].isPrefixOf (absPath i base ++ '/' :: tail) = true := by
    rcases hi with rfl | rfl <;> rfl
  have hslashes : slashes (absPath i base ++ '/' :: tail) = i := by
    rw [absPath, List.append_assoc]
    exact slashes_of_head hi (joinSep_append_head hne hbase)
  -- the directory's own components are all kept
  have hfold : (List.replicate i [] ++ base).foldl (normComp i) [] = base.reverse := by
    have hfront : (List.replicate i ([] : Str)).foldl (normComp i) [] = [] := by
      rcases hi with rfl | rfl <;> rfl
    have hparent : parentDir ∉ base := fun hmem => (hbase _ hmem).noParent rfl
    rw [List.foldl_append, hfront, foldl_normComp_eq hi' (by simp)
      (fun comp hcomp => (hbase comp hcomp).noSep) hparent, kept_of_clean hbase, List.append_nil]
  rw [normpath_of_absolute habsolute, hslashes, splitSep_absPath_append hi hne hbase,
    List.foldl_append, hfold]
  rfl

end Normpath

/-! ## The three paths -/

/-- What `ZipFile.extract` writes to: the directory with the kept components of the name. -/
def extractedPath (extractTo filename : Str) : Str :=
  normpath (join extractTo (joinSep (keptComponents filename)))

/-- The path that `is_safe_path` looks at. -/
def approvedPath (cwd extractTo filename : Str) : Str := abspath cwd (join extractTo filename)

/-- The path without the directory in front. -/
def relativeTo (extractTo path : Str) : Str := path.drop (extractTo.length + 1)

section Paths

variable {cwd : Str} {i : Nat} {base : List Str} {filename : Str}

theorem isPrefixOf_of_head {path : Str} (h : path.head? ≠ some '/') :
    ['/'].isPrefixOf path = false := by
  cases path with
  | nil => rfl
  | cons c cs =>
    have hc : c ≠ '/' := by simpa using h
    simpa [List.isPrefixOf] using fun heq : '/' = c => hc heq.symm

/-- A relative path is joined behind a separator. -/
theorem join_of_relative {path tail : Str} (htail : tail.head? ≠ some '/') (hpath : path ≠ [])
    (hlast : path.getLast? ≠ some '/') : join path tail = path ++ '/' :: tail := by
  have hrelative : ¬ ['/'].isPrefixOf tail = true := by
    rw [isPrefixOf_of_head htail]
    simp
  have hends : ¬ (path = [] ∨ path.getLast? = some '/') := by
    rw [not_or]
    exact ⟨hpath, hlast⟩
  rw [join, if_neg hrelative, if_neg hends]

/-- Also behind an absolute one. -/
theorem join_absPath (hi : i = 1 ∨ i = 2) (hne : base ≠ []) (hbase : ∀ comp ∈ base, Clean comp)
    {tail : Str} (htail : tail.head? ≠ some '/') :
    join (absPath i base) tail = absPath i base ++ '/' :: tail := by
  refine join_of_relative htail ?_ ?_
  · rcases hi with rfl | rfl <;> simp [absPath, List.replicate]
  · intro hlast
    have hjoin : joinSep base ≠ [] := fun hempty =>
      hne (joinSep_injective (b := []) hbase (by simp) (by rw [hempty]; rfl))
    rw [absPath, List.getLast?_append_of_ne_nil _ hjoin] at hlast
    exact joinSep_getLast hbase hlast

/-- **The path that is written**: the kept components, under the directory. -/
theorem extractedPath_eq (hi : i = 1 ∨ i = 2) (hne : base ≠ [])
    (hbase : ∀ comp ∈ base, Clean comp) :
    extractedPath (absPath i base) filename = absPath i (base ++ keptComponents filename) := by
  have hkept := clean_keptComponents filename
  have hi' : i ≠ 0 := by omega
  have hreverse : ∀ comp ∈ base.reverse, Clean comp := fun comp hcomp =>
    hbase comp (List.mem_reverse.mp hcomp)
  rw [extractedPath, join_absPath hi hne hbase (joinSep_head hkept), normpath_under hi hne hbase]
  congr 1
  by_cases hempty : keptComponents filename = []
  · -- nothing is kept: the directory itself
    rw [hempty, List.append_nil]
    show (normComp i base.reverse []).reverse = base
    rw [normComp_eq hi' hreverse, if_pos (Or.inl rfl), List.reverse_reverse]
  · have hparent : parentDir ∉ keptComponents filename := fun hmem => (hkept _ hmem).noParent rfl
    rw [splitSep_joinSep hkept hempty, foldl_normComp_eq hi' hreverse
      (fun comp hcomp => (hkept comp hcomp).noSep) hparent, kept_of_clean hkept,
      List.reverse_append, List.reverse_reverse, List.reverse_reverse]

/-- **The path that was approved**: the components of the name, with every `..` resolved. -/
theorem approvedPath_eq (hi : i = 1 ∨ i = 2) (hne : base ≠ [])
    (hbase : ∀ comp ∈ base, Clean comp) (hfilename : filename.head? ≠ some '/') :
    approvedPath cwd (absPath i base) filename =
      absPath i ((splitSep filename).foldl (normComp i) base.reverse).reverse := by
  have habsolute : ['/'].isPrefixOf (absPath i base ++ '/' :: filename) = true := by
    rcases hi with rfl | rfl <;> rfl
  rw [approvedPath, join_absPath hi hne hbase hfilename, abspath, if_pos habsolute,
    normpath_under hi hne hbase]

/-- What is written, seen from the directory. -/
theorem relativeTo_extractedPath (hi : i = 1 ∨ i = 2) (hne : base ≠ [])
    (hbase : ∀ comp ∈ base, Clean comp) :
    relativeTo (absPath i base) (extractedPath (absPath i base) filename) =
      joinSep (keptComponents filename) := by
  rw [extractedPath_eq hi hne hbase, relativeTo]
  by_cases hempty : keptComponents filename = []
  · rw [hempty, List.append_nil]
    exact List.drop_eq_nil_of_le (by omega)
  · have hsplit : absPath i (base ++ keptComponents filename) =
        (absPath i base ++ ['/']) ++ joinSep (keptComponents filename) := by
      rw [absPath, joinSep_append hne hempty, absPath]
      simp
    rw [hsplit]
    exact List.drop_left' (by simp)

/-- **The two are one path exactly when the name has no `..`.** -/
theorem extractedPath_eq_approvedPath_iff (hi : i = 1 ∨ i = 2) (hne : base ≠ [])
    (hbase : ∀ comp ∈ base, Clean comp) (hfilename : filename.head? ≠ some '/') :
    extractedPath (absPath i base) filename = approvedPath cwd (absPath i base) filename ↔
      parentDir ∉ splitSep filename := by
  have hi' : i ≠ 0 := by omega
  have hreverse : ∀ comp ∈ base.reverse, Clean comp := fun comp hcomp =>
    hbase comp (List.mem_reverse.mp hcomp)
  have hcomps : ∀ comp ∈ splitSep filename, '/' ∉ comp := fun _ h => noSep_of_mem_splitSep h
  rw [extractedPath_eq hi hne hbase, approvedPath_eq hi hne hbase hfilename]
  constructor
  · intro heq hparent
    -- one component less was approved than is written
    have hlist := joinSep_injective (fun comp hcomp => (List.mem_append.mp hcomp).elim
        (hbase comp) (clean_keptComponents filename comp))
      (fun comp hcomp => clean_foldl_normComp hi' hreverse hcomps comp (List.mem_reverse.mp hcomp))
      (List.append_cancel_left heq)
    have hlen := congrArg List.length hlist
    have hlt := length_foldl_normComp_lt hi' hreverse (by simpa using hne) hcomps hparent
    rw [List.length_append, List.length_reverse] at hlen
    rw [List.length_reverse] at hlt
    have hkept : (keptComponents filename).length = (kept (splitSep filename)).length := rfl
    omega
  · intro hparent
    rw [foldl_normComp_eq hi' hreverse hcomps hparent, List.reverse_append, List.reverse_reverse,
      List.reverse_reverse]
    rfl

/-- The root directory approves no name. -/
theorem isSafePath_root (hi : i = 1 ∨ i = 2) (hfilename : filename.head? ≠ some '/') :
    isSafePath cwd (absPath i []) (join (absPath i []) filename) = false := by
  have hrelative : ¬ ['/'].isPrefixOf filename = true := by
    rw [isPrefixOf_of_head hfilename]
    simp
  have hjoin : join (absPath i []) filename = List.replicate i '/' ++ filename := by
    have hends : absPath i [] = [] ∨ (absPath i []).getLast? = some '/' := by
      rcases hi with rfl | rfl <;> exact Or.inr rfl
    rw [join, if_neg hrelative, if_pos hends]
    simp [absPath, joinSep]
  have habsolute : ['/'].isPrefixOf (List.replicate i '/' ++ filename) = true := by
    rcases hi with rfl | rfl <;> rfl
  have hbase : abspath cwd (absPath i []) = absPath i [] := by
    rcases hi with rfl | rfl <;> rfl
  obtain ⟨comps, hpath, hcomps⟩ := exists_absPath habsolute
  rw [slashes_of_head hi hfilename] at hpath
  rw [isSafePath, hbase, hjoin, abspath, if_pos habsolute, hpath]
  -- behind the slashes comes a component, or nothing
  have hfirst : ['/'].isPrefixOf (joinSep comps) = false := isPrefixOf_of_head (joinSep_head hcomps)
  rcases hi with rfl | rfl <;> simpa [absPath, joinSep, List.isPrefixOf, List.replicate] using hfirst

end Paths

/-! ## What a call extracts -/

/-- The members that the loop hands to `zf.extract`. -/
def extractCalls (cwd extractTo : Str) (allowedPatterns : List Str) : List Member → List Member
  | [] => []
  | m :: rest =>
    match refusal cwd extractTo m.filename with
    | some _ => []
    | none =>
      if matched allowedPatterns m.filename = false then
        extractCalls cwd extractTo allowedPatterns rest
      else match m.extraction with
        | .raises _ _ => [m]
        | .returns => m :: extractCalls cwd extractTo allowedPatterns rest

/-- The members that a call of `safe_extract` extracts. -/
def extractedMembers (cwd : Str) (archive : Except Str (List Member)) (extractTo : Str)
    (allowedPatterns : List Str) : List Member :=
  match archive with
  | .error _ => []
  | .ok infolist =>
    match preScan 0 0 infolist with
    | some _ => []
    | none => extractCalls cwd (abspath cwd extractTo) allowedPatterns infolist

/-- What is written before stays written. -/
theorem extractMembers_written (cwd extractTo : Str) (allowedPatterns written : List Str)
    (infolist : List Member) :
    (extractMembers cwd extractTo allowedPatterns written infolist).written =
      written ++ (extractCalls cwd extractTo allowedPatterns infolist).flatMap
        Member.extracted := by
  induction infolist generalizing written with
  | nil => simp [extractMembers, extractCalls]
  | cons m rest ih =>
    rw [extractMembers, extractCalls]
    cases hname : refusal cwd extractTo m.filename with
    | some error => simp
    | none =>
      by_cases hmatched : matched allowedPatterns m.filename = false
      · simpa [hmatched] using ih written
      · cases hextraction : m.extraction with
        | raises error leavesFile => simp [hmatched]
        | returns =>
          have hrest := ih (written ++ m.extracted)
          simpa [hmatched, List.append_assoc] using hrest

/-- **What is written is what was extracted.** -/
theorem safeExtract_written (cwd : Str) (archive : Except Str (List Member)) (extractTo : Str)
    (allowedPatterns : List Str) :
    (safeExtract cwd archive extractTo allowedPatterns).written =
      (extractedMembers cwd archive extractTo allowedPatterns).flatMap Member.extracted := by
  unfold safeExtract extractedMembers
  cases archive with
  | error error => rfl
  | ok infolist =>
    dsimp only
    cases preScan 0 0 infolist with
    | some error => rfl
    | none => exact extractMembers_written cwd (abspath cwd extractTo) allowedPatterns [] infolist

/-- Every member extracted was refused nothing. -/
theorem refusal_of_mem_extractCalls {cwd extractTo : Str} {allowedPatterns : List Str}
    {infolist : List Member} {m : Member}
    (h : m ∈ extractCalls cwd extractTo allowedPatterns infolist) :
    refusal cwd extractTo m.filename = none := by
  induction infolist with
  | nil => exact absurd h List.not_mem_nil
  | cons x rest ih =>
    rw [extractCalls] at h
    split at h
    · exact absurd h List.not_mem_nil
    · rename_i hname
      split at h
      · exact ih h
      · split at h
        · rw [List.mem_singleton] at h
          rw [h]
          exact hname
        · rcases List.mem_cons.mp h with rfl | h
          · exact hname
          · exact ih h

/-- The file is written to the path that was approved, and that path is on the allow-list. -/
structure WritesWhereChecked (cwd extractTo : Str) (allowedPatterns : List Str)
    (filename : Str) : Prop where
  approved : extractedPath extractTo filename = approvedPath cwd extractTo filename
  allowed  : matched allowedPatterns (relativeTo extractTo (extractedPath extractTo filename)) = true

/-- In an absolute working directory the directory to extract to is one of clean components. -/
theorem exists_abspath {cwd : Str} (hcwd : ['/'].isPrefixOf cwd = true) (path : Str) :
    ∃ i base, (i = 1 ∨ i = 2) ∧ abspath cwd path = absPath i base ∧ ∀ comp ∈ base, Clean comp := by
  have habsolute : ['/'].isPrefixOf (if ['/'].isPrefixOf path then path else join cwd path) =
      true := by
    split
    · assumption
    · rename_i hrelative
      rw [join, if_neg hrelative]
      obtain ⟨rest, rfl⟩ := List.isPrefixOf_iff_prefix.mp hcwd
      split <;> rfl
  obtain ⟨comps, hpath, hcomps⟩ := exists_absPath habsolute
  exact ⟨_, comps, slashes_eq _, hpath, hcomps⟩

/-- **`safe_extract` writes where it checked, when it does.** For every archive, every allow-list
and every member that is extracted, in an absolute working directory: the file is written to the
normalised path that was approved, and that path, seen from the directory, matches a pattern, if
and only if the name has no component `..` and its components other than the empty one and `.`,
joined, match a pattern. -/
theorem writesWhereChecked_iff (cwd : Str) (archive : Except Str (List Member)) (extractTo : Str)
    (allowedPatterns : List Str) (hcwd : ['/'].isPrefixOf cwd = true) (m : Member)
    (hm : m ∈ extractedMembers cwd archive extractTo allowedPatterns) :
    WritesWhereChecked cwd (abspath cwd extractTo) allowedPatterns m.filename ↔
      (parentDir ∉ splitSep m.filename ∧
        matched allowedPatterns (joinSep (keptComponents m.filename)) = true) := by
  have hname : refusal cwd (abspath cwd extractTo) m.filename = none := by
    unfold extractedMembers at hm
    split at hm
    · exact absurd hm List.not_mem_nil
    · split at hm
      · exact absurd hm List.not_mem_nil
      · exact refusal_of_mem_extractCalls hm
  obtain ⟨i, base, hi, hpath, hbase⟩ := exists_abspath hcwd extractTo
  rw [hpath] at hname ⊢
  -- the guards: a relative name, and a directory that is not the root
  rw [refusal] at hname
  split at hname
  · exact absurd hname (by simp)
  · rename_i hrelative
    rw [not_or] at hrelative
    have hfilename : m.filename.head? ≠ some '/' := by
      intro heq
      refine hrelative.1 ?_
      cases hcs : m.filename with
      | nil =>
        rw [hcs] at heq
        exact absurd heq (by simp)
      | cons c cs =>
        rw [hcs, List.head?_cons, Option.some.injEq] at heq
        rw [heq]
        rfl
    split at hname
    · exact absurd hname (by simp)
    · rename_i happroved
      have hne : base ≠ [] := by
        rintro rfl
        exact happroved (isSafePath_root hi hfilename)
      constructor
      · rintro ⟨happrovedPath, hallowed⟩
        rw [relativeTo_extractedPath hi hne hbase] at hallowed
        exact ⟨(extractedPath_eq_approvedPath_iff hi hne hbase hfilename).mp happrovedPath, hallowed⟩
      · rintro ⟨hparent, hallowed⟩
        refine ⟨(extractedPath_eq_approvedPath_iff hi hne hbase hfilename).mpr hparent, ?_⟩
        rw [relativeTo_extractedPath hi hne hbase]
        exact hallowed

/-- A name that goes into a directory and out of it again. -/
def detour : Member := ⟨"foo/../ok.txt".toList, 2, .returns⟩

/-- A name that goes through a parent directory. -/
theorem writesWhereChecked_iff_detour :
    WritesWhereChecked "/".toList (abspath "/".toList "/tmp/out".toList) ["*.txt".toList]
        detour.filename ↔
      (parentDir ∉ splitSep detour.filename ∧
        matched ["*.txt".toList] (joinSep (keptComponents detour.filename)) = true) :=
  writesWhereChecked_iff "/".toList (.ok [detour]) "/tmp/out".toList ["*.txt".toList] (by decide)
    detour (by decide)

/-- **One path is approved and another written**: `ok.txt`, and `foo/ok.txt`. -/
theorem writesWhereChecked_fails_on_detour :
    ¬ ∀ (cwd : Str) (archive : Except Str (List Member)) (extractTo : Str)
        (allowedPatterns : List Str), ['/'].isPrefixOf cwd = true →
        ∀ m ∈ extractedMembers cwd archive extractTo allowedPatterns,
          WritesWhereChecked cwd (abspath cwd extractTo) allowedPatterns m.filename := by
  intro h
  have hchecked := h "/".toList (.ok [detour]) "/tmp/out".toList ["*.txt".toList] (by decide)
    detour (by decide)
  exact absurd hchecked.approved (by decide)

end Swayam.SafeExtract
