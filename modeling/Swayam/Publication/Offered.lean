import Swayam.Pipeline.Daemon
import Swayam.Pipeline.Leftovers
import Swayam.Publication.Workflows

/-!
# SWAYAM — what a pull request offers

* `matched_iff` — the names that the allow-list lets through, and `place_of_matched`,
  where their files are put;
* `offered_confined` — a pull request changes `rationale.md` and files below
  `src/generated`, and has each of them from the archive or from the checkout;
* `evolution_withheld` — none of them is the code of a cycle, as this is no header;
* `outcome_ignored` — and what is offered below `src/generated` does not depend on the
  outcome of the run.
-/

namespace Swayam.Publication

open SafeExtract Stages

/-! ## The allow-list -/

/-- The character stands for itself in a pattern. -/
def isLiteral (c : Char) : Bool := c ≠ '*' && c ≠ '?' && c ≠ '['

/-- Such characters match one by one. -/
theorem fnmatchFrom_literal (lit : Str) (h : lit.all isLiteral = true) (n : Nat)
    (pat name : Str) : fnmatchFrom (lit.length + n) (lit ++ pat) name = true ↔
      ∃ rest, name = lit ++ rest ∧ fnmatchFrom n pat rest = true := by
  induction lit generalizing name with
  | nil => simp
  | cons p lit ih =>
    rw [List.all_cons, Bool.and_eq_true] at h
    obtain ⟨⟨hstar, hquestion⟩, hbracket⟩ : (p ≠ '*' ∧ p ≠ '?') ∧ p ≠ '[' := by
      simpa [isLiteral] using h.1
    have hfuel : (p :: lit).length + n = (lit.length + n) + 1 := by
      rw [List.length_cons]
      omega
    rw [hfuel, List.cons_append, fnmatchFrom, Bool.and_eq_true, decide_eq_true_eq,
      ih h.2]
    · constructor
      · rintro ⟨hhead, rest, htail, hrest⟩
        obtain ⟨tail, rfl⟩ := List.head?_eq_some_iff.mp hhead
        exact ⟨rest, by rw [List.tail_cons] at htail; rw [htail, List.cons_append], hrest⟩
      · rintro ⟨rest, rfl, hrest⟩
        exact ⟨rfl, rest, rfl, hrest⟩
    · exact hstar
    · exact hquestion
    · exact hbracket

/-- The end of a header's name. -/
def headerEnd : Str := ".h".toList

/-- A pattern without a star matches itself. -/
theorem fnmatch_rationale (name : Str) :
    fnmatch name "rationale.md".toList = true ↔ name = "rationale.md".toList := by
  have h := fnmatchFrom_literal "rationale.md".toList (by decide) 1 [] name
  rw [List.append_nil] at h
  rw [show fnmatch name "rationale.md".toList =
    fnmatchFrom ("rationale.md".toList.length + 1) "rationale.md".toList name from rfl, h]
  simp [fnmatchFrom]

/-- The header pattern asks for the directory and the ending. -/
theorem fnmatch_header (name : Str) :
    fnmatch name "src/generated/*.h".toList = true ↔
      ∃ mid, name = "src/generated/".toList ++ (mid ++ headerEnd) := by
  have hfront := fnmatchFrom_literal "src/generated/".toList (by decide) 4
    ('*' :: headerEnd) name
  have hend : ∀ rest, fnmatchFrom 3 headerEnd rest = true ↔ rest = headerEnd := by
    intro rest
    have h := fnmatchFrom_literal headerEnd (by decide) 1 [] rest
    rw [List.append_nil] at h
    rw [show fnmatchFrom 3 headerEnd rest = fnmatchFrom (headerEnd.length + 1) headerEnd rest
      from rfl, h]
    simp [fnmatchFrom]
  rw [show fnmatch name "src/generated/*.h".toList =
    fnmatchFrom ("src/generated/".toList.length + 4) ("src/generated/".toList ++ '*' :: headerEnd)
      name from rfl, hfront]
  constructor
  · rintro ⟨rest, rfl, hrest⟩
    -- the star takes what is in front of the end
    rw [fnmatchFrom, List.any_eq_true] at hrest
    obtain ⟨tail, htail, hmatch⟩ := hrest
    obtain ⟨mid, rfl⟩ := List.mem_tails _ _ |>.mp htail
    exact ⟨mid, by rw [(hend tail).mp hmatch]⟩
  · rintro ⟨mid, rfl⟩
    refine ⟨mid ++ headerEnd, rfl, ?_⟩
    rw [fnmatchFrom, List.any_eq_true]
    exact ⟨headerEnd, (List.mem_tails _ _).mpr (List.suffix_append _ _), (hend _).mpr rfl⟩

/-- **The names on the allow-list.** -/
theorem matched_iff (name : Str) : matched allowed name = true ↔
    name = "rationale.md".toList ∨ ∃ mid, name = "src/generated/".toList ++ (mid ++ headerEnd) := by
  rw [matched, List.any_eq_true]
  constructor
  · rintro ⟨pat, hpat, hname⟩
    rw [allowed, List.mem_cons, List.mem_singleton] at hpat
    rcases hpat with rfl | rfl
    · exact Or.inr ((fnmatch_header name).mp hname)
    · exact Or.inl ((fnmatch_rationale name).mp hname)
  · rintro (hname | hname)
    · exact ⟨_, List.mem_cons_of_mem _ (List.mem_singleton_self _),
        (fnmatch_rationale name).mpr hname⟩
    · exact ⟨_, List.mem_cons_self, (fnmatch_header name).mpr hname⟩

/-- The last component of a name that ends like a header ends like one. -/
theorem splitSep_header (mid : Str) :
    ∃ front stem, splitSep (mid ++ headerEnd) = front ++ [stem ++ headerEnd] := by
  induction mid with
  | nil => exact ⟨[], [], rfl⟩
  | cons c mid ih =>
    obtain ⟨front, stem, hsplit⟩ := ih
    rw [List.cons_append, splitSep, hsplit]
    by_cases hc : c = '/'
    · exact ⟨[] :: front, stem, by rw [if_pos hc]; rfl⟩
    · rw [if_neg hc]
      cases front with
      | nil => exact ⟨[], c :: stem, rfl⟩
      | cons first front => exact ⟨(c :: first) :: front, stem, rfl⟩

/-- **Where an allowed file is put.** -/
theorem place_of_matched {name : Str} (h : matched allowed name = true) :
    keptComponents name = rationalePlace ∨
      ∃ front stem, keptComponents name = generatedDir ++ (front ++ [stem ++ headerEnd]) := by
  rcases (matched_iff name).mp h with rfl | ⟨mid, rfl⟩
  · exact Or.inl (by decide)
  · right
    obtain ⟨front, stem, hsplit⟩ := splitSep_header mid
    have hlong : 2 ≤ (stem ++ headerEnd).length := by
      rw [List.length_append]
      exact Nat.le_add_left _ _
    have hlast : (stem ++ headerEnd).getLast? = some 'h' := by
      rw [List.getLast?_append_of_ne_nil _ (by decide)]
      rfl
    -- the last component is neither a dot nor two
    have hkept : kept [stem ++ headerEnd] = [stem ++ headerEnd] := by
      rw [kept, List.filter_eq_self]
      intro comp hcomp
      rw [List.mem_singleton.mp hcomp, decide_eq_true_eq]
      refine ⟨?_, ?_, ?_⟩ <;> intro heq <;> rw [heq] at hlast <;> exact absurd hlast (by decide)
    refine ⟨kept front, stem, ?_⟩
    have hname : "src/generated/".toList ++ (mid ++ headerEnd) =
        srcDir ++ '/' :: ("generated".toList ++ '/' :: (mid ++ headerEnd)) := rfl
    rw [keptComponents, hname, splitSep_append, splitSep_append, hsplit, kept,
      List.filter_append, List.filter_append, List.filter_append]
    rw [show List.filter _ [stem ++ headerEnd] = [stem ++ headerEnd] from hkept]
    rfl

/-! ## The pull request -/

section Offered

variable {env : PublishEnv} {main tree : Files} {archive : Except Str (List Entry)}

/-- A branch is pushed only with an archive, and then it has this tree. -/
theorem eq_committed (h : publishJob env main archive = some tree) :
    ∃ entries, archive = .ok entries ∧ tree = committed env main entries := by
  unfold publishJob at h
  split at h
  · exact absurd h (by simp)
  · cases archive with
    | error error => exact absurd h (by simp [safeExtract, Except.map])
    | ok entries =>
      split at h
      · exact absurd h (by simp)
      · split at h
        · exact ⟨entries, rfl, (Option.some.inj h).symm⟩
        · exact absurd h (by simp)

/-- A copy leaves the target, or puts a front of the source there. -/
theorem Copy.apply_cases (copy : Copy) (source target : Option Text) :
    copy.apply source target = target ∨
      ∃ content text, source = some content ∧ copy.apply source target = some text ∧
        text <+: content := by
  cases source with
  | none => exact Or.inl rfl
  | some content =>
    cases copy with
    | whole => exact Or.inr ⟨content, content, rfl, rfl, List.prefix_rfl⟩
    | part n => exact Or.inr ⟨content, content.take n, rfl, rfl, List.take_prefix n content⟩
    | skipped => exact Or.inl rfl

/-- Outside of `mutation-output` nothing is extracted. -/
theorem extracted_of_ne (main : Files) {place : Place} (h : place.head? ≠ some outputDir)
    (entries : List Entry) : extracted main entries place = main place := by
  cases place with
  | nil => rfl
  | cons comp place => rw [extracted, if_neg (by simpa using h)]

/-- What stands under the output directory was there or was extracted. -/
theorem extracted_cases (main : Files) (entries : List Entry) (place : Place) :
    extracted main entries (outputDir :: place) = main (outputDir :: place) ∨
      ∃ e ∈ extractedEntries entries, keptComponents e.member.filename = place ∧
        extracted main entries (outputDir :: place) = some e.content := by
  rw [extracted, if_pos rfl]
  split
  · rename_i e he
    have hmem := List.mem_of_find?_eq_some he
    have hplace := List.find?_some he
    exact Or.inr ⟨e, List.mem_reverse.mp hmem, by simpa using hplace, rfl⟩
  · exact Or.inl rfl

/-- What the job looks for is not under it. -/
theorem head_ne_outputDir {place : Place} (h : inGenerated place = true ∨ place = rationalePlace) :
    place.head? ≠ some outputDir := by
  rcases h with h | rfl
  · rw [inGenerated, Bool.and_eq_true, List.isPrefixOf_iff_prefix] at h
    obtain ⟨rest, rfl⟩ := h.1
    simp only [generatedDir, List.cons_append, List.head?_cons]
    decide
  · decide

/-- Outside of `mutation-output` a file is copied over, or as it was. -/
theorem workTree_cases {place : Place} (h : place.head? ≠ some outputDir)
    (entries : List Entry) : workTree env main entries place = main place ∨
      workTree env main entries place =
        (env.copied place).apply (extracted main entries (outputDir :: place)) (main place) := by
  rw [← extracted_of_ne main h entries, workTree]
  split
  · exact Or.inr rfl
  · exact Or.inl rfl

/-- The file is changed, and its content is the front of this one. -/
def Brings (main tree : Files) (place : Place) (content : Text) : Prop :=
  ∃ text, tree place = some text ∧ text <+: content ∧ tree place ≠ main place

/-- A file that a pull request changes, and what brings it. -/
theorem offered_cases (h : publishJob env main archive = some tree) {place : Place}
    (hplace : tree place ≠ main place) :
    (place = rationalePlace ∨ inGenerated place = true) ∧
      ((∃ content, main (outputDir :: place) = some content ∧ Brings main tree place content) ∨
        ∃ entries e, archive = .ok entries ∧ e ∈ entries ∧
          matched allowed e.member.filename = true ∧ keptComponents e.member.filename = place ∧
          (place = rationalePlace ∨ ∃ front stem, place = front ++ [stem ++ headerEnd]) ∧
          Brings main tree place e.content) := by
  obtain ⟨entries, rfl, rfl⟩ := eq_committed h
  have hwork : (inGenerated place = true ∨ place = rationalePlace) ∧
      committed env main entries place = workTree env main entries place := by
    unfold committed at hplace ⊢
    split at hplace
    · rename_i hcond
      rw [if_pos hcond]
      rw [Bool.and_eq_true, Bool.or_eq_true, decide_eq_true_eq] at hcond
      exact ⟨hcond.1, rfl⟩
    · exact absurd rfl hplace
  obtain ⟨hwhere, hcommitted⟩ := hwork
  -- the file has been copied
  have hcopied : workTree env main entries place =
      (env.copied place).apply (extracted main entries (outputDir :: place)) (main place) :=
    (workTree_cases (head_ne_outputDir hwhere) entries).resolve_left
      fun hsame => hplace (hcommitted.trans hsame)
  rcases (env.copied place).apply_cases (extracted main entries (outputDir :: place))
    (main place) with hsame | ⟨content, text, hsource, htext, hfront⟩
  · rw [hcommitted, hcopied, hsame] at hplace
    exact absurd rfl hplace
  · have htree : committed env main entries place = some text := by
      rw [hcommitted, hcopied, htext]
    refine ⟨hwhere.symm, ?_⟩
    rcases extracted_cases main entries place with hmain | ⟨e, he, hkept, hcontent⟩
    · exact Or.inl ⟨content, hmain.symm.trans hsource, text, htree, hfront, hplace⟩
    · rw [extractedEntries, List.mem_filter, Bool.and_eq_true] at he
      have hbrings : Brings main (committed env main entries) place e.content := by
        rw [Option.some.inj (hsource.symm.trans hcontent)] at hfront
        exact ⟨text, htree, hfront, hplace⟩
      refine Or.inr ⟨entries, e, rfl, he.1, he.2.1, hkept, ?_, hbrings⟩
      rcases place_of_matched he.2.1 with hrationale | ⟨front, stem, hheader⟩
      · exact Or.inl (hkept.symm.trans hrationale)
      · rw [hkept] at hheader
        exact Or.inr ⟨generatedDir ++ front, stem, by rw [hheader, List.append_assoc]⟩

end Offered

/-- **What a pull request changes.** Whatever is in the archive and whichever steps fail: when a
branch is pushed, a file that it changes is `rationale.md`, or below `src/generated`; its new
content is the front of a file that the checkout has at the same place below `mutation-output`,
or of an entry of the archive that the allow-list lets through and that is put there; and the
latter is `rationale.md` or a header. -/
theorem offered_confined (env : PublishEnv) (main tree : Files)
    (archive : Except Str (List Entry)) (h : publishJob env main archive = some tree)
    (place : Place) (hplace : tree place ≠ main place) :
    (place = rationalePlace ∨ inGenerated place = true) ∧
      ((∃ content, main (outputDir :: place) = some content ∧ Brings main tree place content) ∨
        ∃ entries e, archive = .ok entries ∧ e ∈ entries ∧
          matched allowed e.member.filename = true ∧ keptComponents e.member.filename = place ∧
          (place = rationalePlace ∨ ∃ front stem, place = front ++ [stem ++ headerEnd]) ∧
          Brings main tree place e.content) :=
  offered_cases h hplace

/-- Every step succeeds. -/
def PublishEnv.working : PublishEnv where
  cwd := "/repo".toList
  fetches := true
  token := true
  rateLimit := true
  copied := fun _ => .whole
  ignored := fun _ => false
  adds := true
  commits := true
  pushes := true

/-- A header and a source of the sandbox. -/
def twoFiles : List File :=
  [⟨generatedDir ++ ["mut.h".toList], ascii "int f();"⟩,
    ⟨generatedDir ++ ["mut.cpp".toList], ascii "int g = 0;"⟩]

/-- An archive with a header and a stray file. -/
theorem offered_confined_twoFiles :
    ∃ tree, publishJob .working (fun _ => none) (.ok (archiveOf (fun _ => .returns) twoFiles)) =
        some tree ∧
      tree (generatedDir ++ ["mut.h".toList]) = some (ascii "int f();") ∧
      inGenerated (generatedDir ++ ["mut.h".toList]) = true := by
  have hchanged : ∀ tree, publishJob .working (fun _ => none)
      (.ok (archiveOf (fun _ => .returns) twoFiles)) = some tree →
        tree (generatedDir ++ ["mut.h".toList]) ≠ none →
        inGenerated (generatedDir ++ ["mut.h".toList]) = true := fun tree h hplace =>
    (offered_confined .working (fun _ => none) tree _ h _ hplace).1.resolve_left (by decide)
  exact ⟨_, rfl, by decide, hchanged _ rfl (by decide)⟩

/-! ## The code of a cycle -/

section Cycles

variable {stdHash : StdHash}

/-- `src/generated`, in the container. -/
def vaultFile (name : Text) : Text := Pipeline.workspace ++ ascii "/src/generated/" ++ name

/-- What a run has generated is the code of a cycle, under the name of its mutation. -/
def GeneratesSources (stdHash : StdHash) (w w' : Pipeline.World) : Prop :=
  ∀ path, w'.generated path ≠ w.generated path →
    ∃ evolvedCode, path = vaultFile (Pipeline.sourceName (Pipeline.mutationIdOf stdHash evolvedCode))

/-- A cycle writes nothing but sources to the generated directory. -/
theorem generatesSources_orchestrateEvolution (env : Pipeline.CycleEnv) :
    Within (GeneratesSources stdHash) (Pipeline.orchestrateEvolution stdHash env) := by
  intro w path hpath
  by_cases hopens : ∃ evolvedCode, Pipeline.OpensTarget env evolvedCode
  · obtain ⟨evolvedCode, hopens⟩ := hopens
    rw [Pipeline.generated_of_opens hopens] at hpath
    by_cases htarget : path = Pipeline.targetFile (Pipeline.mutationIdOf stdHash evolvedCode)
    · exact ⟨evolvedCode, htarget⟩
    · rw [Function.update_of_ne htarget] at hpath
      exact absurd rfl hpath
  · rw [not_exists] at hopens
    have hkept : (endState (Pipeline.orchestrateEvolution stdHash env w)).generated =
        w.generated := Pipeline.keepsGenerated_of_not_opens hopens w
    rw [hkept] at hpath
    exact absurd rfl hpath

/-- A last status leaves the sources alone. -/
theorem generated_exit (env : Pipeline.DaemonEnv) (outcome reason : Text) (code : Nat)
    (w : Pipeline.World) : (endState (env.exit outcome reason code w)).generated = w.generated := by
  rw [Pipeline.endState_exit]
  cases env.status.write <;> rfl

/-- **Every run of the daemon** generates sources of mutations only. -/
theorem generatesSources_main (env : Pipeline.DaemonEnv) :
    Within (GeneratesSources stdHash) (Pipeline.main stdHash env) := by
  intro w
  have hexit : ∀ outcome reason code w', GeneratesSources stdHash w w' →
      GeneratesSources stdHash w (endState (env.exit outcome reason code w')) := by
    intro outcome reason code w' h path hpath
    rw [generated_exit] at hpath
    exact h path hpath
  have hrefl : GeneratesSources stdHash w w := fun path hpath => absurd rfl hpath
  -- behind the cycle only a status is written, and in front of it as well
  by_cases hreached : env.ReachesCycle
  · have hcycle : GeneratesSources stdHash w
        (endState (Pipeline.orchestrateEvolution stdHash env.cycle w)) :=
      generatesSources_orchestrateEvolution env.cycle w
    rw [Pipeline.main_of_reached hreached, Pipeline.runCycle_run]
    cases hrun : Pipeline.orchestrateEvolution stdHash env.cycle w with
    | ok u w' =>
      rw [hrun] at hcycle
      exact hexit _ _ _ _ hcycle
    | error fault w' =>
      rw [hrun] at hcycle
      cases fault with
      | terminate => exact hcycle
      | _ => exact hexit _ _ _ _ hcycle
  · have hend : endState (Pipeline.main stdHash env w) = w ∨ ∃ reason code,
        endState (Pipeline.main stdHash env w) =
          endState (env.exit (ascii "quarantined") reason code w) :=
      Pipeline.main_of_not_reached hreached
    rcases hend with hsame | ⟨reason, code, hend⟩
    · rw [hsame]
      exact hrefl
    · rw [hend]
      exact hexit _ _ _ _ hrefl

/-- The name of a file as `zipfile` gives it: those of the cycles are ASCII. -/
def asciiStr (t : Text) : Str := t.map fun b => Char.ofNat b.toNat

/-- What is under `mutation-output` when the container ends: below `src` the files of the checkout,
and those that the daemon has generated in this run. The mutation that it runs has put none
there. -/
structure Leaves (tracked : Files) (w w' : Pipeline.World) (files : List File) : Prop where
  clean : ∀ f ∈ files, ∀ comp ∈ f.place, Clean comp
  src   : ∀ f ∈ files, inSrc f.place = true → tracked (outputDir :: f.place) ≠ none ∨
    ∃ name, w'.generated (vaultFile name) ≠ w.generated (vaultFile name) ∧
      w'.generated (vaultFile name) = some f.content ∧ f.place = generatedDir ++ [asciiStr name]

/-- What the step leaves was there, but for the rationale. -/
theorem mem_of_mem_sandboxStep {env : SandboxEnv} {files staged : List File}
    (h : sandboxStep env files = some staged) {f : File} (hf : f ∈ staged) :
    f ∈ files ∨ f.place = rationalePlace := by
  unfold sandboxStep at h
  split at h
  · exact absurd h (by simp)
  · split at h
    · exact absurd h (by simp)
    · split at h
      · split at h
        · exact absurd h (by simp)
        · split at h
          · exact absurd h (by simp)
          · rw [← Option.some.inj h] at hf
            rcases List.mem_cons.mp hf with rfl | hf
            · exact Or.inr rfl
            · exact Or.inl (List.mem_of_mem_filter hf)
      · split at h
        · rw [← Option.some.inj h] at hf
          exact Or.inl hf
        · exact absurd h (by simp)

/-- A clean path is put where it was. -/
theorem keptComponents_joinSep {place : Place} (h : ∀ comp ∈ place, Clean comp)
    (hne : place ≠ []) : keptComponents (joinSep place) = place := by
  rw [keptComponents, splitSep_joinSep h hne, kept_of_clean h]

/-- **The source of a mutation is no header.** -/
theorem asciiStr_sourceName_ne (mutationId : Text) (stem : Str) :
    asciiStr (Pipeline.sourceName mutationId) ≠ stem ++ headerEnd := by
  intro heq
  have hleft : (asciiStr (Pipeline.sourceName mutationId)).getLast? = some 'p' := by
    rw [asciiStr, Pipeline.sourceName, List.map_append, List.getLast?_append_of_ne_nil _ (by decide)]
    decide
  have hright : (stem ++ headerEnd).getLast? = some 'h' := by
    rw [List.getLast?_append_of_ne_nil _ (by decide)]
    rfl
  rw [heq, hright] at hleft
  exact absurd hleft (by decide)

/-- **The code of a cycle is not offered.** Whatever the daemon does in its container, and
whatever becomes of the steps of both workflows: a file that the pull request changes is
`rationale.md`, or one that a checkout has at the same place below `mutation-output`. What the
run has generated is not among them. -/
theorem evolution_withheld (stdHash : StdHash) (daemon : Pipeline.DaemonEnv) (w : Pipeline.World)
    (tracked main tree : Files) (files staged : List File) (sandbox : SandboxEnv)
    (extraction : Place → Extraction) (env : PublishEnv)
    (hleaves : Leaves tracked w (endState (Pipeline.main stdHash daemon w)) files)
    (hstaged : sandboxStep sandbox files = some staged)
    (hpushed : publishJob env main (.ok (archiveOf extraction (uploaded staged))) = some tree)
    (place : Place) (hplace : tree place ≠ main place) :
    place = rationalePlace ∨ main (outputDir :: place) ≠ none ∨
      tracked (outputDir :: place) ≠ none := by
  obtain ⟨-, hmain | ⟨entries, e, harchive, he, hmatched, hkept, hheader, -⟩⟩ :=
    offered_cases hpushed hplace
  · obtain ⟨content, hcontent, -⟩ := hmain
    exact Or.inr (Or.inl (by rw [hcontent]; exact Option.some_ne_none content))
  · -- an entry of the archive: a file that the container has left
    rw [← Except.ok.inj harchive, archiveOf, List.mem_map] at he
    obtain ⟨f, hf, rfl⟩ := he
    rw [uploaded, List.mem_filter, Bool.and_eq_true, Bool.or_eq_true, decide_eq_true_eq] at hf
    have hother : f.place = rationalePlace → place = rationalePlace := by
      intro hrationale
      rw [← hkept, hrationale]
      show keptComponents (joinSep rationalePlace) = rationalePlace
      decide
    obtain ⟨hf, hsrc | hrationale, -⟩ := hf
    · rcases mem_of_mem_sandboxStep hstaged hf with hf | hrationale
      · have hne : f.place ≠ [] := by
          intro hnil
          rw [hnil] at hsrc
          exact absurd hsrc (by decide)
        have hput : f.place = place :=
          (keptComponents_joinSep (hleaves.clean f hf) hne).symm.trans hkept
        rcases hleaves.src f hf hsrc with htracked | ⟨name, hchanged, -, hname⟩
        · exact Or.inr (Or.inr (hput ▸ htracked))
        · obtain ⟨evolvedCode, hpath⟩ := generatesSources_main daemon w _ hchanged
          rw [vaultFile, vaultFile, List.append_cancel_left_eq] at hpath
          rcases hheader with hrationale | ⟨front, stem, hstem⟩
          · exact Or.inl hrationale
          · -- its name would be that of a header
            rw [← hput, hname, hpath] at hstem
            have hlast := congrArg List.getLast? hstem
            rw [List.getLast?_concat, List.getLast?_concat] at hlast
            exact absurd (Option.some.inj hlast) (asciiStr_sourceName_ne _ stem)
      · exact Or.inl (hother hrationale)
    · exact Or.inl (hother hrationale)

end Cycles

/-- What the container of a cycle leaves that has published. -/
def cycleFiles : List File :=
  [⟨generatedDir ++ ["mut_EVO_7.cpp".toList], acceptedSource⟩,
    ⟨metaPlace "status.json".toList, Pipeline.statusText ⟨Pipeline.published, []⟩⟩,
    ⟨metaPlace "rationale.md".toList, Pipeline.rationaleText (ascii "EVO_7")⟩]

def SandboxEnv.working : SandboxEnv := ⟨true, Pipeline.recordedOutcome, true⟩

/-- What a cycle leaves, file by file. -/
theorem leaves_cycleFiles : Leaves (fun _ => none) (Pipeline.World.fresh none)
    (endState (Pipeline.main (fun _ => 7) (.working acceptedSource) (Pipeline.World.fresh none)))
    cycleFiles := by
  refine ⟨fun f hf comp hcomp => ?_, fun f hf hsrc => ?_⟩
  · have hnames : cycleFiles.all (fun f => f.place.all fun comp => !comp.isEmpty && comp ≠ ['.'] &&
        comp ≠ parentDir && comp.all (· ≠ '/')) = true := by decide
    rw [List.all_eq_true] at hnames
    have hname := List.all_eq_true.mp (hnames f hf) comp hcomp
    simp only [Bool.and_eq_true, Bool.not_eq_true', List.isEmpty_eq_false_iff, decide_eq_true_eq,
      List.all_eq_true] at hname
    exact ⟨hname.1.1.1, hname.1.1.2, hname.1.2, fun hsep => hname.2 '/' hsep rfl⟩
  · simp only [cycleFiles, List.mem_cons, List.not_mem_nil, or_false] at hf
    rcases hf with rfl | rfl | rfl
    · exact Or.inr ⟨ascii "mut_EVO_7.cpp", by decide +kernel, by decide +kernel, by decide⟩
    · exact absurd hsrc (by decide)
    · exact absurd hsrc (by decide)

set_option maxRecDepth 8000 in
/-- And none of it is offered. -/
theorem evolution_withheld_cycleFiles :
    ∃ staged tree, sandboxStep .working cycleFiles = some staged ∧
      publishJob .working (fun _ => none) (.ok (archiveOf (fun _ => .returns) (uploaded staged))) =
        some tree ∧
      tree rationalePlace = some (Pipeline.rationaleText (ascii "EVO_7")) ∧
      (rationalePlace = rationalePlace ∨ (none : Option Text) ≠ none ∨ (none : Option Text) ≠ none) :=
  ⟨_, _, rfl, rfl, by decide, evolution_withheld (fun _ => 7) (.working acceptedSource)
    (Pipeline.World.fresh none) (fun _ => none) (fun _ => none) _ cycleFiles _ .working
    (fun _ => .returns) .working leaves_cycleFiles rfl rfl rationalePlace (by decide)⟩

/-! ## The outcome -/

section Outcome

variable {sandbox : SandboxEnv} {files staged : List File} {extraction : Place → Extraction}
  {main : Files}

/-- The rationale is moved, and neither of its places is below `src`. -/
theorem src_moved (rationale : Text) (files : List File) :
    ((⟨rationalePlace, rationale⟩ :: files.filter fun f =>
        f.place ≠ metaPlace "rationale.md".toList ∧ f.place ≠ rationalePlace).filter
      fun f => inSrc f.place) = files.filter fun f => inSrc f.place := by
  have houtside : inSrc rationalePlace = false ∧
      inSrc (metaPlace "rationale.md".toList) = false := by decide
  rw [List.filter_cons_of_neg (Bool.not_eq_true _ ▸ houtside.1), List.filter_filter]
  refine List.filter_congr fun f _ => ?_
  cases hsrc : inSrc f.place with
  | false => rfl
  | true =>
    rw [Bool.true_and, decide_eq_true_eq]
    constructor
    · rintro heq
      rw [heq, houtside.2] at hsrc
      exact absurd hsrc (by simp)
    · rintro heq
      rw [heq, houtside.1] at hsrc
      exact absurd hsrc (by simp)

/-- The step does not touch what is below `src`. -/
theorem src_sandboxStep (h : sandboxStep sandbox files = some staged) :
    (staged.filter fun f => inSrc f.place) = files.filter fun f => inSrc f.place := by
  unfold sandboxStep at h
  split at h
  · exact absurd h (by simp)
  · split at h
    · exact absurd h (by simp)
    · split at h
      · split at h
        · exact absurd h (by simp)
        · split at h
          · exact absurd h (by simp)
          · rw [← Option.some.inj h]
            exact src_moved _ files
      · split at h
        · rw [← Option.some.inj h]
        · exact absurd h (by simp)

/-- The upload leaves out hidden files only. -/
theorem src_uploaded (files : List File) :
    ((uploaded files).filter fun f => inSrc f.place) =
      (files.filter fun f => inSrc f.place).filter fun f => !hidden f.place := by
  rw [uploaded, List.filter_filter, List.filter_filter]
  refine List.filter_congr fun f _ => ?_
  cases inSrc f.place <;> simp

/-- The last entry of those that are put at a place. -/
theorem find_reverse_eq (entries : List Entry) (place : Place) :
    (extractedEntries entries).reverse.find? (fun e => keptComponents e.member.filename = place) =
      ((extractedEntries entries).filter
        fun e => keptComponents e.member.filename = place).getLast? := by
  rw [← List.head?_filter, List.filter_reverse, List.head?_reverse]

/-- Below `src/generated` only files from below `src` are put. -/
theorem entries_at_generated {place : Place} (hplace : inGenerated place = true) (files : List File) :
    ((extractedEntries (archiveOf extraction (uploaded files))).filter
        fun e => keptComponents e.member.filename = place) =
      ((extractedEntries (archiveOf extraction
        ((uploaded files).filter fun f => inSrc f.place))).filter
          fun e => keptComponents e.member.filename = place) := by
  unfold extractedEntries archiveOf
  rw [List.filter_filter, List.filter_filter, List.filter_map, List.filter_map, List.filter_filter]
  congr 1
  refine List.filter_congr fun f hf => ?_
  by_cases hsrc : inSrc f.place = true
  · simp [hsrc]
  · -- the rationale
    rw [uploaded, List.mem_filter, Bool.and_eq_true, Bool.or_eq_true, decide_eq_true_eq] at hf
    have hrationale := hf.2.1.resolve_left hsrc
    have hne : keptComponents (joinSep f.place) ≠ place := by
      rintro rfl
      rw [hrationale] at hplace
      exact absurd hplace (by decide)
    simp [hne]

end Outcome

/-- **The outcome of a run is not looked at.** When two containers leave the same files below
`src`, and the steps of both succeed, whether the one has published and the other is quarantined
or not, then the pull requests that the same job opens for them have the same files below
`src/generated`. -/
theorem outcome_ignored (sandbox sandbox' : SandboxEnv) (files files' staged staged' : List File)
    (extraction : Place → Extraction) (env : PublishEnv) (main tree tree' : Files)
    (hsrc : (files.filter fun f => inSrc f.place) = files'.filter fun f => inSrc f.place)
    (hstaged : sandboxStep sandbox files = some staged)
    (hstaged' : sandboxStep sandbox' files' = some staged')
    (hpushed : publishJob env main (.ok (archiveOf extraction (uploaded staged))) = some tree)
    (hpushed' : publishJob env main (.ok (archiveOf extraction (uploaded staged'))) = some tree')
    (place : Place) (hplace : inGenerated place = true) : tree place = tree' place := by
  obtain ⟨entries, hentries, rfl⟩ := eq_committed hpushed
  obtain ⟨entries', hentries', rfl⟩ := eq_committed hpushed'
  rw [← Except.ok.inj hentries, ← Except.ok.inj hentries']
  have hfiles : ((uploaded staged).filter fun f => inSrc f.place) =
      (uploaded staged').filter fun f => inSrc f.place := by
    rw [src_uploaded, src_uploaded, src_sandboxStep hstaged, src_sandboxStep hstaged', hsrc]
  -- the same entries are put at the place
  have hextracted : extracted main (archiveOf extraction (uploaded staged)) (outputDir :: place) =
      extracted main (archiveOf extraction (uploaded staged')) (outputDir :: place) := by
    rw [extracted, extracted, find_reverse_eq, find_reverse_eq, entries_at_generated hplace,
      entries_at_generated hplace, hfiles]
  have hne := head_ne_outputDir (Or.inl hplace)
  have hwork : workTree env main (archiveOf extraction (uploaded staged)) place =
      workTree env main (archiveOf extraction (uploaded staged')) place := by
    simp only [workTree, hextracted, extracted_of_ne main hne]
  simp only [committed, hwork]

/-- The same files, from a run that is quarantined. -/
def quarantinedFiles : List File :=
  ⟨metaPlace "status.json".toList,
    Pipeline.statusText ⟨Pipeline.quarantined, ascii "git upload failed"⟩⟩ :: twoFiles

def publishedFiles : List File :=
  ⟨metaPlace "status.json".toList, Pipeline.statusText ⟨Pipeline.published, []⟩⟩ ::
    ⟨metaPlace "rationale.md".toList, Pipeline.rationaleText (ascii "EVO_7")⟩ :: twoFiles

set_option maxRecDepth 8000 in
/-- A quarantined and a published run offer the same. -/
theorem outcome_ignored_quarantined :
    ∃ staged staged' tree tree', sandboxStep .working quarantinedFiles = some staged ∧
      sandboxStep .working publishedFiles = some staged' ∧
      publishJob .working (fun _ => none) (.ok (archiveOf (fun _ => .returns) (uploaded staged))) =
        some tree ∧
      publishJob .working (fun _ => none) (.ok (archiveOf (fun _ => .returns) (uploaded staged'))) =
        some tree' ∧
      tree (generatedDir ++ ["mut.h".toList]) = tree' (generatedDir ++ ["mut.h".toList]) :=
  ⟨_, _, _, _, rfl, rfl, rfl, rfl, outcome_ignored .working .working quarantinedFiles
    publishedFiles _ _ (fun _ => .returns) .working (fun _ => none) _ _ (by decide) rfl rfl rfl rfl
    _ (by decide)⟩

end Swayam.Publication
