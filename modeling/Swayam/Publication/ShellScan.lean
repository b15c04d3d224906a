import Swayam.Analyzer.Threats
import Swayam.Lib.Delimited
import Swayam.Lib.Search
import Swayam.Pipeline.Branches
import Swayam.Publication.Offered

/-!
# SWAYAM — the scan of CI and the analyzer

The security gate of `agentic_ci_cd.yml` searches the repository for calls of
`std::system` and `popen`, line by line, and the analyzer of a cycle searches its code for
calls of these and others. What a cycle pushes is scanned when a pull request is opened
from its branch.

* `flags_iff` — what the scan finds in a file;
* `flags_of_accepted` — in a text that the analyzer accepts it finds only a longer name that
  ends in `popen`, or white space that the analyzer does not know;
* `scan_evolution` — so the mutation of a cycle passes, but for these.
-/

namespace Swayam.Publication

open Delimited SafeExtract Search Stages

/-! ## `agentic_ci_cd.yml` -/

/-- What the scan depends on: whether `grep` meets a file or a directory that it cannot read,
which files it takes for binary ones, and the white space of more than one byte that the locale
has. -/
structure ScanEnv where
  errors : Bool
  binary : Text → Bool
  wide   : List Text

/-- `[[:space:]]*\(` -/
def matchBlanks (wide : List Text) : Nat → Text → Bool
  | 0, t => (ascii "(").isPrefixOf t
  | n + 1, t => (ascii "(").isPrefixOf t ||
      (t.head?.any isSpace && matchBlanks wide n t.tail) ||
      wide.any fun blank => blank.isPrefixOf t && matchBlanks wide n (t.drop blank.length)

/-- The two names of the expression. -/
def forbiddenNames : List String := ["std::system", "popen"]

/-- `std::system[[:space:]]*\(|popen[[:space:]]*\(` -/
def matchForbidden (wide : List Text) (t : Text) : Bool :=
  forbiddenNames.any fun name =>
    ((afterLiteral name t).map fun rest => matchBlanks wide rest.length rest).getD false

/-- `grep -InE` finds a line in a file. -/
def ScanEnv.flags (env : ScanEnv) (content : Text) : Bool :=
  !env.binary content && (lines newline content).any (regexSearch (matchForbidden env.wide))

/-- `include src scripts .github` -/
def scanRoots : List Str := ["include".toList, srcDir, "scripts".toList, ".github".toList]

/-- `--exclude='*.md'`, `--exclude='*.txt'` -/
def excluded (name : Str) : Bool :=
  ".md".toList.isSuffixOf name || ".txt".toList.isSuffixOf name

/-- The files that are searched: `--exclude-dir` is for `.git` and `build`. -/
def scanned (place : Place) : Bool :=
  (scanRoots.any fun root => place.head? = some root) &&
    place.dropLast.all (fun comp => comp ≠ ".git".toList && comp ≠ "build".toList) &&
    !excluded (place.getLastD [])

/-- The step *Verify forbidden shell execution primitives* passes. The exit status of `grep` is 2
when it has met an error, whatever it has found, and that is no success. -/
def ScanEnv.passes (env : ScanEnv) (files : List File) : Bool :=
  env.errors || !files.any fun f => scanned f.place && env.flags f.content

/-! ## What the scan finds -/

/-- White space of the locale. -/
inductive Blanks (wide : List Text) : Text → Prop
  | nil : Blanks wide []
  | space {b : Byte} {sp : Text} (hb : isSpace b = true) (hsp : Blanks wide sp) :
      Blanks wide (b :: sp)
  | wide {blank sp : Text} (hblank : blank ∈ wide) (hsp : Blanks wide sp) :
      Blanks wide (blank ++ sp)

/-- `NAME[[:space:]]*\(` within a line, of one of the two names. -/
def ForbiddenCall (wide : List Text) (p : Text) : Prop :=
  ∃ name ∈ forbiddenNames, ∃ sp, Blanks wide sp ∧ newline ∉ sp ∧
    p = ascii name ++ (sp ++ ascii "(")

section Scan

variable {wide : List Text}

/-- The blanks in front of the parenthesis. -/
theorem blanks_of_matchBlanks {n : Nat} {t : Text} (h : matchBlanks wide n t = true) :
    ∃ sp rest, Blanks wide sp ∧ t = sp ++ (ascii "(" ++ rest) := by
  have hparen : ∀ {u : Text}, (ascii "(").isPrefixOf u = true →
      ∃ sp rest, Blanks wide sp ∧ u = sp ++ (ascii "(" ++ rest) := by
    intro u hu
    obtain ⟨rest, rfl⟩ := List.isPrefixOf_iff_prefix.mp hu
    exact ⟨[], rest, .nil, rfl⟩
  induction n generalizing t with
  | zero => exact hparen h
  | succ n ih =>
    rw [matchBlanks, Bool.or_eq_true, Bool.or_eq_true] at h
    rcases h with (h | h) | h
    · exact hparen h
    · rw [Bool.and_eq_true] at h
      cases t with
      | nil => exact absurd h.1 (by simp)
      | cons b t =>
        obtain ⟨sp, rest, hsp, rfl⟩ := ih h.2
        exact ⟨b :: sp, rest, .space h.1 hsp, rfl⟩
    · obtain ⟨blank, hblank, h⟩ := List.any_eq_true.mp h
      rw [Bool.and_eq_true, List.isPrefixOf_iff_prefix] at h
      obtain ⟨⟨u, rfl⟩, hrest⟩ := h
      rw [List.drop_left] at hrest
      obtain ⟨sp, rest, hsp, rfl⟩ := ih hrest
      exact ⟨blank ++ sp, rest, .wide hblank hsp, by rw [List.append_assoc]⟩

/-- A star that matches a blank without bytes goes on without it. -/
theorem matchBlanks_of_blanks {sp : Text} (hsp : Blanks wide sp) (rest : Text) {n : Nat}
    (hn : sp.length ≤ n) : matchBlanks wide n (sp ++ (ascii "(" ++ rest)) = true := by
  induction hsp generalizing n with
  | nil =>
    have hparen : (ascii "(").isPrefixOf (ascii "(" ++ rest) = true :=
      List.isPrefixOf_iff_prefix.mpr (List.prefix_append _ _)
    cases n with
    | zero => exact hparen
    | succ n =>
      rw [List.nil_append, matchBlanks, hparen]
      rfl
  | @space b sp hb hsp ih =>
    rw [List.length_cons] at hn
    obtain ⟨n, rfl⟩ : ∃ m, n = m + 1 := ⟨n - 1, by omega⟩
    rw [matchBlanks, Bool.or_eq_true, Bool.or_eq_true, Bool.and_eq_true]
    exact Or.inl (Or.inr ⟨hb, ih (by omega)⟩)
  | @wide blank sp hblank hsp ih =>
    cases hempty : blank with
    | nil => exact ih (by rw [hempty] at hn; exact hn)
    | cons c blank' =>
      rw [hempty, List.length_append, List.length_cons] at hn
      obtain ⟨n, rfl⟩ : ∃ m, n = m + 1 := ⟨n - 1, by omega⟩
      rw [← hempty, matchBlanks, Bool.or_eq_true]
      refine Or.inr (List.any_eq_true.mpr ⟨blank, hblank, ?_⟩)
      rw [Bool.and_eq_true, List.append_assoc, List.drop_left]
      exact ⟨List.isPrefixOf_iff_prefix.mpr (List.prefix_append _ _), ih (by omega)⟩

/-- The matcher and its pattern. -/
theorem matchForbidden_iff {t : Text} (ht : newline ∉ t) : matchForbidden wide t = true ↔
    ∃ p rest, ForbiddenCall wide p ∧ t = p ++ rest := by
  rw [matchForbidden, List.any_eq_true]
  constructor
  · rintro ⟨name, hname, h⟩
    cases hrest : afterLiteral name t with
    | none =>
      rw [hrest] at h
      exact absurd h (by simp)
    | some u =>
      rw [hrest] at h
      obtain ⟨sp, rest, hsp, rfl⟩ := blanks_of_matchBlanks h
      obtain rfl := afterLiteral_eq_some.mp hrest
      refine ⟨_, rest, ⟨name, hname, sp, hsp, fun hmem => ht ?_, rfl⟩, by simp⟩
      exact List.mem_append_right _ (List.mem_append_left _ hmem)
  · rintro ⟨p, rest, ⟨name, hname, sp, hsp, -, rfl⟩, rfl⟩
    refine ⟨name, hname, ?_⟩
    have hrest : afterLiteral name (ascii name ++ (sp ++ ascii "(") ++ rest) =
        some (sp ++ (ascii "(" ++ rest)) := afterLiteral_eq_some.mpr (by simp)
    rw [hrest]
    exact matchBlanks_of_blanks hsp rest (by rw [List.length_append]; omega)

/-- **What occurs in a text without a line break occurs in one of its lines.** -/
theorem infix_line_iff {q : Text} (hne : q ≠ []) (hq : newline ∉ q) (c : Text) :
    q <:+: c ↔ ∃ l ∈ lines newline c, q <:+: l := by
  induction hlen : c.length using Nat.strong_induction_on generalizing c with
  | _ n ih =>
    by_cases hmem : newline ∈ c
    · obtain ⟨l, b, rfl, hl⟩ := List.eq_append_cons_of_mem hmem
      rw [List.length_append, List.length_cons] at hlen
      rw [lines_append_sep hl, infix_append_iff hq (Or.inr (by simp)),
        ← List.singleton_append, infix_append_iff hq (Or.inl (by simp)),
        ih b.length (by omega) b rfl]
      -- the line break alone holds nothing of it
      have hbreak : ¬ q <:+: [newline] := fun h => by
        obtain ⟨x, rest, rfl⟩ := List.exists_cons_of_ne_nil hne
        have hx := h.subset List.mem_cons_self
        rw [List.mem_singleton] at hx
        exact hq (hx ▸ List.mem_cons_self)
      simp [hbreak]
    · by_cases hempty : c = []
      · subst hempty
        simp [hne]
      · rw [lines_of_notMem hmem hempty]
        simp

/-- A line holds no line feed. -/
theorem newline_notMem_line (c : Text) : ∀ l ∈ lines newline c, newline ∉ l := by
  induction hlen : c.length using Nat.strong_induction_on generalizing c with
  | _ n ih =>
    by_cases hmem : newline ∈ c
    · obtain ⟨l, b, rfl, hl⟩ := List.eq_append_cons_of_mem hmem
      rw [List.length_append, List.length_cons] at hlen
      rw [lines_append_sep hl]
      intro l' hl'
      rcases List.mem_cons.mp hl' with rfl | hl'
      · exact hl
      · exact ih b.length (by omega) b rfl l' hl'
    · by_cases hempty : c = []
      · subst hempty
        simp
      · rw [lines_of_notMem hmem hempty]
        intro l hl
        rwa [List.mem_singleton.mp hl]

/-- A forbidden call is not empty, -/
theorem ForbiddenCall.ne_nil {p : Text} (h : ForbiddenCall wide p) : p ≠ [] := by
  obtain ⟨name, -, sp, -, -, rfl⟩ := h
  simp [ascii]

/-- and on one line. -/
theorem ForbiddenCall.newline_notMem {p : Text} (h : ForbiddenCall wide p) : newline ∉ p := by
  obtain ⟨name, hname, sp, -, hsp, rfl⟩ := h
  have hnames : forbiddenNames.all (fun name => newline ∉ ascii name) = true := by decide
  have hparen : newline ∉ ascii "(" := by decide
  rw [List.mem_append, List.mem_append, not_or, not_or]
  exact ⟨by simpa using List.all_eq_true.mp hnames name hname, hsp, hparen⟩

/-- **What the scan finds in a file.** -/
theorem flags_iff {env : ScanEnv} {content : Text} : env.flags content = true ↔
    env.binary content = false ∧ Occurs (ForbiddenCall env.wide) false content := by
  have hlines : (lines newline content).any (regexSearch (matchForbidden env.wide)) = true ↔
      Occurs (ForbiddenCall env.wide) false content := by
    rw [List.any_eq_true]
    constructor
    · rintro ⟨l, hl, hsearch⟩
      obtain ⟨front, b, rest, rfl, hmatch⟩ := regexSearch_iff.mp hsearch
      have hline := newline_notMem_line content _ hl
      obtain ⟨p, rest', hp, hrest⟩ := (matchForbidden_iff fun hmem =>
        hline (List.mem_append_right _ hmem)).mp hmatch
      have hinfix : p <:+: content := (infix_line_iff hp.ne_nil hp.newline_notMem content).mpr
        ⟨_, hl, front, rest', by rw [hrest, List.append_assoc]⟩
      obtain ⟨before, after, rfl⟩ := hinfix
      exact ⟨before, p, after, by rw [List.append_assoc], hp, by simp⟩
    · rintro ⟨front, p, rest, rfl, hp, -⟩
      obtain ⟨l, hl, before, after, rfl⟩ := (infix_line_iff hp.ne_nil hp.newline_notMem
        (front ++ (p ++ rest))).mp ⟨front, rest, by rw [List.append_assoc]⟩
      refine ⟨_, hl, regexSearch_iff.mpr ?_⟩
      obtain ⟨b, p', hcons⟩ := List.exists_cons_of_ne_nil hp.ne_nil
      refine ⟨before, b, p' ++ after, by rw [hcons]; simp, ?_⟩
      rw [← List.cons_append, ← hcons]
      have hline := newline_notMem_line _ _ hl
      rw [List.append_assoc] at hline
      exact (matchForbidden_iff fun hmem => hline (List.mem_append_right _ hmem)).mpr
        ⟨p, after, hp, rfl⟩
  rw [ScanEnv.flags, Bool.and_eq_true, Bool.not_eq_true', hlines]

end Scan

/-! ## Behind the analyzer -/

/-- A call within a line that the scan finds and the analyzer lets through: of a longer name that
ends in `popen`, or with white space that is none of the analyzer's in front of the bracket. -/
def Missed (wide : List Text) (t : Text) : Prop :=
  ∃ front name sp rest, name ∈ forbiddenNames ∧ Blanks wide sp ∧ newline ∉ sp ∧
    t = front ++ (ascii name ++ (sp ++ (ascii "(" ++ rest))) ∧
    (¬ Spaces sp ∨ name = "popen" ∧ ¬ WordBoundary front)

section Accepted

variable {sourceCode content : Text}

/-- The analyzer accepts no call of `popen` or `system` behind a word boundary. -/
theorem not_call_of_accepted (h : (evaluateMutation sourceCode).isSafe = true) {name : String}
    (hname : name = "popen" ∨ name = "system") {front sp rest : Text} (hsp : Spaces sp)
    (hfront : WordBoundary front)
    (hsource : front ++ (ascii name ++ (sp ++ (ascii "(" ++ rest))) <+: sourceCode) : False := by
  have hthreats := (noThreat_iff sourceCode).mp (isSafe_iff.mp h).2.2.2.2.1
  obtain ⟨more, rfl⟩ := hsource
  refine hthreats (CallPattern ["popen", "execl", "system", "execve", "fork"], true)
    (by simp [threatPatterns]) ⟨front, ascii name ++ (sp ++ ascii "("), rest ++ more, by simp, ?_,
      fun _ => hfront⟩
  refine ⟨name, ?_, sp, hsp, rfl⟩
  rcases hname with rfl | rfl
  · exact List.mem_cons_self
  · simp

/-- **What the scan finds in a text that the analyzer accepts**, or in the front of one. -/
theorem flags_of_accepted {env : ScanEnv} (h : (evaluateMutation sourceCode).isSafe = true)
    (hcontent : content <+: sourceCode) : env.flags content = true ↔
      env.binary content = false ∧ Missed env.wide content := by
  rw [flags_iff]
  refine and_congr_right fun _ => ⟨?_, ?_⟩
  · rintro ⟨front, p, rest, rfl, ⟨name, hname, sp, hblanks, hline, rfl⟩, -⟩
    refine ⟨front, name, sp, rest, hname, hblanks, hline, by simp, ?_⟩
    by_cases hsp : Spaces sp
    · right
      rw [List.append_assoc, List.append_assoc] at hcontent
      rw [forbiddenNames, List.mem_cons, List.mem_singleton] at hname
      rcases hname with rfl | rfl
      · -- `system` stands behind the colons
        exfalso
        have hstd : front ++ ascii "std::" ++ (ascii "system" ++ (sp ++ (ascii "(" ++ rest))) <+:
            sourceCode := by simpa [ascii] using hcontent
        refine not_call_of_accepted h (Or.inr rfl) hsp (fun b hb => ?_) hstd
        rw [List.getLast?_append_of_ne_nil _ (by decide)] at hb
        obtain rfl : asciiByte ':' = b := Option.some.inj hb
        decide
      · exact ⟨rfl, fun hfront => not_call_of_accepted h (Or.inl rfl) hsp hfront hcontent⟩
    · exact Or.inl hsp
  · rintro ⟨front, name, sp, rest, hname, hblanks, hline, rfl, -⟩
    exact ⟨front, _, rest, by simp, ⟨name, hname, sp, hblanks, hline, rfl⟩, by simp⟩

end Accepted

/-- The file that a cycle puts under `src/generated`. -/
def mutationFile (stdHash : StdHash) (cycle : Pipeline.CycleEnv) (evolvedCode : Text) : File :=
  ⟨generatedDir ++ [asciiStr (Pipeline.sourceName (Pipeline.mutationIdOf stdHash evolvedCode))],
    cycle.written evolvedCode⟩

/-- It is searched. -/
theorem scanned_mutationFile (stdHash : StdHash) (cycle : Pipeline.CycleEnv) (evolvedCode : Text) :
    scanned (mutationFile stdHash cycle evolvedCode).place = true := by
  generalize hname :
    asciiStr (Pipeline.sourceName (Pipeline.mutationIdOf stdHash evolvedCode)) = name
  have hlast : name.getLast? = some 'p' := by
    rw [← hname, asciiStr, Pipeline.sourceName, List.map_append,
      List.getLast?_append_of_ne_nil _ (by decide)]
    decide
  have hexcluded : excluded name = false := by
    rw [excluded, Bool.or_eq_false_iff, ← Bool.not_eq_true, ← Bool.not_eq_true,
      List.isSuffixOf_iff_suffix, List.isSuffixOf_iff_suffix]
    constructor <;> rintro ⟨stem, rfl⟩
    · rw [List.getLast?_append_of_ne_nil _ (by decide)] at hlast
      exact absurd hlast (by decide)
    · rw [List.getLast?_append_of_ne_nil _ (by decide)] at hlast
      exact absurd hlast (by decide)
  rw [mutationFile, hname, scanned, List.dropLast_concat, List.getLastD_concat, hexcluded]
  show ((scanRoots.any fun root => some srcDir = some root) &&
    generatedDir.all (fun comp => comp ≠ ".git".toList && comp ≠ "build".toList) && !false) = true
  decide

/-- **The mutation of a cycle in the scan.** For the code that a cycle publishes, whatever part of
it reaches the file: when the rest of the repository passes the scan, the repository with this file
passes it exactly when the scan is defeated by an error, or the file is taken for a binary one,
or nothing in it is a call that the analyzer lets through. -/
theorem scan_evolution (stdHash : StdHash) (cycle : Pipeline.CycleEnv) (env : ScanEnv)
    (files : List File) (evolvedCode : Text)
    (hcode : Pipeline.publishedCode stdHash cycle = some evolvedCode)
    (hpassed : env.passes files = true) :
    env.passes (mutationFile stdHash cycle evolvedCode :: files) = true ↔
      env.errors = true ∨ env.binary (cycle.written evolvedCode) = true ∨
        ¬ Missed env.wide (cycle.written evolvedCode) := by
  have hsafe := (Pipeline.vetted_of_publishedCode hcode).opens.safe
  have hwritten : cycle.written evolvedCode <+: evolvedCode := by
    unfold Pipeline.CycleEnv.written
    cases cycle.targetBytes with
    | none => exact List.prefix_rfl
    | some n => exact List.take_prefix n evolvedCode
  have hflags : env.flags (mutationFile stdHash cycle evolvedCode).content = true ↔
      env.binary (cycle.written evolvedCode) = false ∧
        Missed env.wide (cycle.written evolvedCode) :=
    flags_of_accepted hsafe hwritten
  rw [ScanEnv.passes, Bool.or_eq_true, Bool.not_eq_true'] at hpassed ⊢
  rw [List.any_cons, scanned_mutationFile, Bool.true_and, Bool.or_eq_false_iff,
    ← Bool.not_eq_true (env.flags _), hflags]
  rcases hpassed with herrors | hrest
  · simp [herrors]
  · cases env.binary (cycle.written evolvedCode) <;> simp [hrest]

/-- It calls a function of its own, whose name ends in `popen`. -/
def reopenSource : Text := acceptedSource ++ ascii " int reopen(); int r_popen (int);"

/-- A longer name that ends in a forbidden one is caught as well. -/
theorem scan_evolution_longerName :
    (ScanEnv.mk false (fun _ => false) []).passes
      [mutationFile (fun _ => 7) (Pipeline.DaemonEnv.working reopenSource).cycle reopenSource] =
        false := by
  have hiff := scan_evolution (fun _ => 7) (Pipeline.DaemonEnv.working reopenSource).cycle
    ⟨false, fun _ => false, []⟩ [] reopenSource (by decide +kernel) (by decide)
  rw [← Bool.not_eq_true, hiff]
  rintro (h | h | h)
  · exact absurd h (by decide)
  · exact absurd h (by decide)
  · refine h ⟨acceptedSource ++ ascii " int reopen(); int r_", "popen", ascii " ", ascii "int);",
      by decide, .space (by decide) .nil, by decide, by decide, Or.inr ⟨rfl, fun hfront => ?_⟩⟩
    exact absurd (hfront (asciiByte '_') (by decide)) (by decide)

end Swayam.Publication
