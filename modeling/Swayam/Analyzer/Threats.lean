import Mathlib.Data.List.TakeWhile
import Swayam.Analyzer

/-!
# SWAYAM — what the threat signatures find

The four signatures of the analyzer as patterns, with and without a word
boundary in front, and where they occur in a text that is put together.

* `noThreat_iff` — a text passes the signatures exactly when none of the patterns
  occurs in it;
* `occurs_append_iff` — a text in two parts, between which no pattern can lie, has
  an occurrence exactly when one of its parts does.
-/

namespace Swayam

/-! ## Matches at a position -/

/-- A literal is matched letter by letter. -/
theorem afterLiteral_eq_some {literal : String} {t rest : Text} :
    afterLiteral literal t = some rest ↔ t = ascii literal ++ rest := by
  rw [afterLiteral, Option.ite_none_right_eq_some, List.isPrefixOf_iff_prefix]
  constructor
  · rintro ⟨⟨r, rfl⟩, hrest⟩
    rw [List.drop_left] at hrest
    rw [Option.some.inj hrest]
  · rintro rfl
    exact ⟨List.prefix_append _ _, by rw [List.drop_left]⟩

/-- Nothing but white space. -/
def Spaces (t : Text) : Prop := ∀ b ∈ t, isSpace b = true

/-- White space is skipped to its end. -/
theorem skipSpace_append {sp rest : Text} (hsp : Spaces sp)
    (hrest : ∀ b, rest.head? = some b → isSpace b = false) : skipSpace (sp ++ rest) = rest := by
  rw [skipSpace, List.dropWhile_append_of_pos hsp]
  cases rest with
  | nil => rfl
  | cons b rest => rw [List.dropWhile_cons_of_neg (by simp [hrest b rfl])]

/-- A literal behind white space, when it does not start with any. -/
theorem afterSpace_eq_some {literal : String} {t rest : Text}
    (hliteral : ∃ b u, ascii literal = b :: u ∧ isSpace b = false) :
    afterLiteral literal (skipSpace t) = some rest ↔
      ∃ sp, Spaces sp ∧ t = sp ++ (ascii literal ++ rest) := by
  rw [afterLiteral_eq_some]
  constructor
  · intro h
    refine ⟨t.takeWhile isSpace, fun b hb => List.mem_takeWhile_imp hb, ?_⟩
    rw [← h, skipSpace, List.takeWhile_append_dropWhile]
  · rintro ⟨sp, hsp, rfl⟩
    refine skipSpace_append hsp fun c hc => ?_
    obtain ⟨b, u, hhead, hb⟩ := hliteral
    rw [hhead] at hc
    rw [← Option.some.inj hc]
    exact hb

/-- `NAME\s*\(` -/
def CallPattern (names : List String) (p : Text) : Prop :=
  ∃ name ∈ names, ∃ sp, Spaces sp ∧ p = ascii name ++ (sp ++ ascii "(")

/-- `#include\s*<\s*HEADER\s*>` -/
def IncludePattern (header : String) (p : Text) : Prop :=
  ∃ sp₁ sp₂ sp₃, Spaces sp₁ ∧ Spaces sp₂ ∧ Spaces sp₃ ∧
    p = ascii "#include" ++ (sp₁ ++ (ascii "<" ++ (sp₂ ++ (ascii header ++ (sp₃ ++ ascii ">")))))

/-- The matcher of calls and its pattern. -/
theorem matchCall_iff {names : List String} {t : Text} :
    matchCall names t = true ↔ ∃ p rest, CallPattern names p ∧ t = p ++ rest := by
  rw [matchCall, List.any_eq_true]
  constructor
  · rintro ⟨name, hname, h⟩
    obtain ⟨rest, hrest⟩ := Option.isSome_iff_exists.mp h
    obtain ⟨u, hu, hrest⟩ := Option.bind_eq_some_iff.mp hrest
    obtain ⟨sp, hsp, rfl⟩ := (afterSpace_eq_some ⟨_, _, rfl, rfl⟩).mp hrest
    rw [afterLiteral_eq_some.mp hu]
    exact ⟨_, rest, ⟨name, hname, sp, hsp, rfl⟩, by simp⟩
  · rintro ⟨p, rest, ⟨name, hname, sp, hsp, rfl⟩, rfl⟩
    refine ⟨name, hname, Option.isSome_iff_exists.mpr ⟨rest, Option.bind_eq_some_iff.mpr ?_⟩⟩
    refine ⟨sp ++ (ascii "(" ++ rest), afterLiteral_eq_some.mpr (by simp), ?_⟩
    exact (afterSpace_eq_some ⟨_, _, rfl, rfl⟩).mpr ⟨sp, hsp, rfl⟩

/-- The matcher of includes and its pattern. -/
theorem matchInclude_iff {header : String} {t : Text}
    (hheader : ∃ b u, ascii header = b :: u ∧ isSpace b = false) :
    matchInclude header t = true ↔ ∃ p rest, IncludePattern header p ∧ t = p ++ rest := by
  rw [matchInclude, Option.isSome_iff_exists]
  have hopen : ∃ b u, ascii "<" = b :: u ∧ isSpace b = false := ⟨_, _, rfl, rfl⟩
  have hclose : ∃ b u, ascii ">" = b :: u ∧ isSpace b = false := ⟨_, _, rfl, rfl⟩
  simp only [Option.bind_eq_some_iff, afterSpace_eq_some hheader, afterSpace_eq_some hopen,
    afterSpace_eq_some hclose, afterLiteral_eq_some]
  constructor
  · rintro ⟨rest, _, ⟨_, ⟨_, rfl, sp₁, h₁, rfl⟩, sp₂, h₂, rfl⟩, sp₃, h₃, rfl⟩
    exact ⟨_, rest, ⟨sp₁, sp₂, sp₃, h₁, h₂, h₃, rfl⟩, by simp⟩
  · rintro ⟨p, rest, ⟨sp₁, sp₂, sp₃, h₁, h₂, h₃, rfl⟩, rfl⟩
    refine ⟨rest, _, ⟨_, ⟨_, ?_, sp₁, h₁, rfl⟩, sp₂, h₂, rfl⟩, sp₃, h₃, rfl⟩
    simp

/-! ## Occurrences -/

/-- No word character stands at the end. -/
def WordBoundary (t : Text) : Prop := ∀ b, t.getLast? = some b → isWord b = false

/-- A pattern occurs in a text, behind a word boundary when that is asked for. -/
def Occurs (pattern : Text → Prop) (bounded : Bool) (t : Text) : Prop :=
  ∃ front p rest, t = front ++ (p ++ rest) ∧ pattern p ∧ (bounded = true → WordBoundary front)

/-- A search finds a match somewhere. -/
theorem regexSearch_iff {matchHere : Text → Bool} {t : Text} :
    regexSearch matchHere t = true ↔ ∃ front b rest, t = front ++ b :: rest ∧
      matchHere (b :: rest) = true := by
  induction t with
  | nil => simp [regexSearch]
  | cons c t ih =>
    rw [regexSearch, Bool.or_eq_true, ih]
    constructor
    · rintro (h | ⟨front, b, rest, rfl, h⟩)
      · exact ⟨[], c, t, rfl, h⟩
      · exact ⟨c :: front, b, rest, rfl, h⟩
    · rintro ⟨front, b, rest, heq, h⟩
      cases front with
      | nil =>
        obtain ⟨rfl, rfl⟩ := List.cons.inj heq
        exact Or.inl h
      | cons d front =>
        obtain ⟨rfl, rfl⟩ := List.cons.inj heq
        exact Or.inr ⟨front, b, rest, rfl, h⟩

/-- Whether a word character stands in front of a position. -/
def wordBefore (start : Bool) (front : Text) : Bool := (front.getLast?.map isWord).getD start

/-- A search at a word boundary finds one there. -/
theorem regexSearchWord_iff {matchHere : Text → Bool} {start : Bool} {t : Text} :
    regexSearchWord matchHere start t = true ↔ ∃ front b rest, t = front ++ b :: rest ∧
      isWord b ≠ wordBefore start front ∧ matchHere (b :: rest) = true := by
  induction t generalizing start with
  | nil => simp [regexSearchWord]
  | cons c t ih =>
    rw [regexSearchWord, Bool.or_eq_true, Bool.and_eq_true, bne_iff_ne, ih]
    constructor
    · rintro (⟨hb, h⟩ | ⟨front, b, rest, rfl, hb, h⟩)
      · exact ⟨[], c, t, rfl, hb, h⟩
      · refine ⟨c :: front, b, rest, rfl, ?_, h⟩
        cases front <;> exact hb
    · rintro ⟨front, b, rest, heq, hb, h⟩
      cases front with
      | nil =>
        obtain ⟨rfl, rfl⟩ := List.cons.inj heq
        exact Or.inl ⟨hb, h⟩
      | cons d front =>
        obtain ⟨rfl, rfl⟩ := List.cons.inj heq
        refine Or.inr ⟨front, b, rest, rfl, ?_, h⟩
        cases front <;> exact hb

/-- An expression without a word boundary finds its pattern anywhere. -/
theorem regexSearch_iff_occurs {matchHere : Text → Bool} {pattern : Text → Prop}
    (hmatch : ∀ t, matchHere t = true ↔ ∃ p rest, pattern p ∧ t = p ++ rest)
    (hne : ¬ pattern []) (t : Text) : regexSearch matchHere t = true ↔ Occurs pattern false t := by
  rw [regexSearch_iff]
  constructor
  · rintro ⟨front, b, rest, rfl, h⟩
    obtain ⟨p, rest', hp, hrest⟩ := (hmatch _).mp h
    exact ⟨front, p, rest', by rw [hrest], hp, by simp⟩
  · rintro ⟨front, p, rest, rfl, hp, -⟩
    cases p with
    | nil => exact absurd hp hne
    | cons b p => exact ⟨front, b, p ++ rest, rfl, (hmatch _).mpr ⟨b :: p, rest, hp, rfl⟩⟩

/-- `\b(std::)?(NAME|…)\s*\(` finds a call of one of the names behind a word boundary: there is
one behind `std::` as well. -/
theorem regexSearchWord_iff_occurs {names : List String}
    (hnames : ∀ name ∈ names, ∃ b u, ascii name = b :: u ∧ isWord b = true) (t : Text) :
    regexSearchWord (matchStd (matchCall names)) false t = true ↔
      Occurs (CallPattern names) true t := by
  rw [regexSearchWord_iff]
  constructor
  · rintro ⟨front, b, rest, rfl, hb, h⟩
    rw [matchStd, Bool.or_eq_true] at h
    rcases h with h | h
    · obtain ⟨p, rest', hp, hrest⟩ := matchCall_iff.mp h
      refine ⟨front, p, rest', by rw [hrest], hp, fun _ c hc => ?_⟩
      -- the name starts with a word character
      obtain ⟨name, hname, sp, hsp, rfl⟩ := hp
      obtain ⟨c', u, hhead, hword⟩ := hnames name hname
      rw [hhead] at hrest
      obtain ⟨rfl, -⟩ := List.cons.inj hrest
      rw [hword, wordBefore, hc] at hb
      simpa using hb
    · cases hstd : afterLiteral "std::" (b :: rest) with
      | none =>
        rw [hstd] at h
        exact absurd h (by simp)
      | some u =>
        rw [hstd] at h
        obtain ⟨p, rest', hp, rfl⟩ := matchCall_iff.mp h
        refine ⟨front ++ ascii "std::", p, rest', ?_, hp, fun _ c hc => ?_⟩
        · rw [afterLiteral_eq_some.mp hstd, List.append_assoc]
        · rw [List.getLast?_append] at hc
          obtain rfl := Option.some.inj hc
          rfl
  · rintro ⟨front, p, rest, rfl, ⟨name, hname, sp, hsp, rfl⟩, hfront⟩
    obtain ⟨c, u, hhead, hword⟩ := hnames name hname
    refine ⟨front, c, u ++ (sp ++ ascii "(") ++ rest, by simp [hhead], ?_, ?_⟩
    · rw [hword, wordBefore]
      cases hlast : front.getLast? with
      | none => simp
      | some b => simp [hfront rfl b hlast]
    · rw [matchStd, Bool.or_eq_true]
      refine Or.inl (matchCall_iff.mpr ⟨_, rest, ⟨name, hname, sp, hsp, rfl⟩, ?_⟩)
      simp [hhead]

/-! ## The four patterns -/

/-- What a signature looks for, and whether behind a word boundary. -/
def threatPatterns : List ((Text → Prop) × Bool) :=
  [(IncludePattern "sys/socket.h", false),
   (IncludePattern "netinet/in.h", false),
   (CallPattern ["popen", "execl", "system", "execve", "fork"], true),
   (CallPattern ["__asm__", "asm"], false)]

theorem not_includePattern_nil (header : String) : ¬ IncludePattern header [] := by
  rintro ⟨sp₁, sp₂, sp₃, -, -, -, h⟩
  exact absurd h (by simp [ascii])

theorem not_callPattern_nil (names : List String) : ¬ CallPattern names [] := by
  rintro ⟨name, -, sp, -, h⟩
  exact absurd h (by simp [ascii])

/-- **A text passes the signatures when no pattern occurs in it.** -/
theorem noThreat_iff (t : Text) : (∀ threat ∈ getThreatSignatures, threat.1 t = false) ↔
    ∀ threat ∈ threatPatterns, ¬ Occurs threat.1 threat.2 t := by
  have hsocket := regexSearch_iff_occurs (fun t => matchInclude_iff (t := t) ⟨_, _, rfl, rfl⟩)
    (not_includePattern_nil "sys/socket.h") t
  have hnetinet := regexSearch_iff_occurs (fun t => matchInclude_iff (t := t) ⟨_, _, rfl, rfl⟩)
    (not_includePattern_nil "netinet/in.h") t
  have hletter : ∀ name ∈ ["popen", "execl", "system", "execve", "fork"],
      ∃ b u, ascii name = b :: u ∧ isWord b = true := by
    intro name hname
    simp only [List.mem_cons, List.not_mem_nil, or_false] at hname
    rcases hname with rfl | rfl | rfl | rfl | rfl <;> exact ⟨_, _, rfl, rfl⟩
  have hshell := regexSearchWord_iff_occurs hletter t
  have hasm := regexSearch_iff_occurs (fun t => matchCall_iff (t := t))
    (not_callPattern_nil ["__asm__", "asm"]) t
  simp only [getThreatSignatures, threatPatterns, List.forall_mem_cons, List.not_mem_nil,
    false_implies, implies_true, and_true, ← hsocket, ← hnetinet, ← hshell, ← hasm,
    Bool.not_eq_true]

/-! ## Texts in parts -/

/-- A byte that ends a pattern, and occurs in it only there. -/
def isTerminal (b : Byte) : Bool := b = asciiByte '(' || b = asciiByte '>'

/-- A byte in front of which a pattern cannot start and end behind. -/
def isBarrier (b : Byte) : Bool :=
  isTerminal b || b = asciiByte '\x7b' || b = asciiByte '\x7d' || b = asciiByte ';' ||
    b = asciiByte '['

/-- What the four patterns have in common: they start with something else than white space, and
end with a terminal, behind which there is no barrier. -/
structure Compact (p : Text) : Prop where
  start : ∀ b, p.head? = some b → isSpace b = false
  ends  : ∃ inner b, p = inner ++ [b] ∧ isTerminal b = true ∧ ∀ c ∈ inner, isBarrier c = false

/-- White space is no barrier. -/
theorem isBarrier_of_isSpace {b : Byte} (h : isSpace b = true) : isBarrier b = false := by
  simp only [isSpace, Bool.or_eq_true, Bool.and_eq_true, decide_eq_true_eq] at h
  have hne : ∀ c : Byte, ¬ (c = 32 ∨ (9 ≤ c.toNat ∧ c.toNat ≤ 13)) → b ≠ c := by
    rintro c hc rfl
    exact hc h
  simp only [isBarrier, isTerminal, Bool.or_eq_false_iff, decide_eq_false_iff_not]
  refine ⟨⟨⟨⟨⟨?_, ?_⟩, ?_⟩, ?_⟩, ?_⟩, ?_⟩
  all_goals exact hne _ (by decide)

/-- A call has no barrier inside. -/
theorem CallPattern.compact {names : List String} {p : Text} (hp : CallPattern names p)
    (hnames : ∀ name ∈ names, (∃ b u, ascii name = b :: u ∧ isSpace b = false) ∧
      ∀ c ∈ ascii name, isBarrier c = false) : Compact p := by
  obtain ⟨name, hname, sp, hsp, rfl⟩ := hp
  obtain ⟨⟨b, u, hhead, hb⟩, hinner⟩ := hnames name hname
  refine ⟨fun c hc => ?_, ascii name ++ sp, asciiByte '(', by simp [ascii], rfl, fun c hc => ?_⟩
  · rw [hhead] at hc
    rw [← Option.some.inj hc]
    exact hb
  · rcases List.mem_append.mp hc with hc | hc
    · exact hinner c hc
    · exact isBarrier_of_isSpace (hsp c hc)

/-- Nor has an include. -/
theorem IncludePattern.compact {header : String} {p : Text} (hp : IncludePattern header p)
    (hheader : ∀ c ∈ ascii header, isBarrier c = false) : Compact p := by
  obtain ⟨sp₁, sp₂, sp₃, h₁, h₂, h₃, rfl⟩ := hp
  refine ⟨fun c hc => ?_, ascii "#include" ++ (sp₁ ++ (ascii "<" ++ (sp₂ ++ (ascii header ++ sp₃)))),
    asciiByte '>', by simp [ascii], rfl, fun c hc => ?_⟩
  · rw [← Option.some.inj hc]
    rfl
  · simp only [List.mem_append] at hc
    rcases hc with hc | hc | hc | hc | hc | hc
    · exact eq_false_of_any (by decide) c hc
    · exact isBarrier_of_isSpace (h₁ c hc)
    · exact eq_false_of_any (by decide) c hc
    · exact isBarrier_of_isSpace (h₂ c hc)
    · exact hheader c hc
    · exact isBarrier_of_isSpace (h₃ c hc)

/-- Nor has any threat. -/
theorem compact_of_threat {threat : (Text → Prop) × Bool} (hmem : threat ∈ threatPatterns)
    {p : Text} (hp : threat.1 p) : Compact p := by
  simp only [threatPatterns, List.mem_cons, List.not_mem_nil, or_false] at hmem
  rcases hmem with rfl | rfl | rfl | rfl
  · exact IncludePattern.compact hp (eq_false_of_any (by decide))
  · exact IncludePattern.compact hp (eq_false_of_any (by decide))
  · refine CallPattern.compact hp fun name hname => ?_
    simp only [List.mem_cons, List.not_mem_nil, or_false] at hname
    rcases hname with rfl | rfl | rfl | rfl | rfl <;>
      exact ⟨⟨_, _, rfl, rfl⟩, eq_false_of_any (by decide)⟩
  · refine CallPattern.compact hp fun name hname => ?_
    simp only [List.mem_cons, List.not_mem_nil, or_false] at hname
    rcases hname with rfl | rfl <;> exact ⟨⟨_, _, rfl, rfl⟩, eq_false_of_any (by decide)⟩

/-- A compact text is not empty. -/
theorem Compact.ne_nil {p : Text} (h : Compact p) : p ≠ [] := by
  rintro rfl
  obtain ⟨inner, b, heq, -⟩ := h.ends
  exact absurd heq (by simp)

/-- No pattern lies across the place between two parts. -/
def Apart (u v : Text) : Prop :=
  ∀ p₁ p₂ front rest, Compact (p₁ ++ p₂) → u = front ++ p₁ → v = p₂ ++ rest → p₁ = [] ∨ p₂ = []

/-- A barrier with only white space behind it keeps what follows apart. -/
theorem apart_of_barrier {u : Text} {x : Byte} (sp : Text) (hx : isBarrier x = true)
    (hsp : Spaces sp) (v : Text) : Apart (u ++ x :: sp) v := by
  intro p₁ p₂ front rest hp hu _
  rw [or_iff_not_imp_right]
  intro hne
  obtain ⟨inner, b, heq, -, hinner⟩ := hp.ends
  -- the first part of the pattern holds no barrier
  have hsub : p₁ <+: inner := by
    obtain ⟨q, c, rfl⟩ : ∃ q c, p₂ = q ++ [c] := ⟨_, _, (List.dropLast_append_getLast hne).symm⟩
    rw [← List.append_assoc] at heq
    exact ⟨q, (List.append_inj' heq rfl).1⟩
  rcases List.append_eq_append_iff.mp hu with ⟨c, -, hc⟩ | ⟨c, -, hc⟩
  · cases c with
    | nil =>
      have hmem : x ∈ p₁ := by
        rw [List.nil_append] at hc
        rw [← hc]
        exact List.mem_cons_self
      rw [hinner x (hsub.subset hmem)] at hx
      exact absurd hx (by simp)
    | cons y c =>
      -- it lies within the white space
      obtain ⟨rfl, hrest⟩ := List.cons.inj hc
      cases p₁ with
      | nil => rfl
      | cons z p₁ =>
        have hz : z ∈ sp := by rw [hrest]; simp
        have hstart := hp.start z rfl
        rw [hsp z hz] at hstart
        exact absurd hstart (by simp)
  · have hmem : x ∈ p₁ := by rw [hc]; simp
    rw [hinner x (hsub.subset hmem)] at hx
    exact absurd hx (by simp)

/-- Nothing in front of a barrier that is no terminal ends a pattern. -/
theorem apart_of_behind {z v : Text} {x : Byte} (hz : ∀ b ∈ z, isTerminal b = false)
    (hx : isBarrier x = true) (hterminal : isTerminal x = false) (u : Text) :
    Apart u (z ++ x :: v) := by
  intro p₁ p₂ front rest hp _ hv
  rw [or_iff_not_imp_right]
  intro hne
  obtain ⟨inner, b, heq, hb, hinner⟩ := hp.ends
  obtain ⟨q, c, rfl⟩ : ∃ q c, p₂ = q ++ [c] := ⟨_, _, (List.dropLast_append_getLast hne).symm⟩
  rw [← List.append_assoc] at heq
  obtain ⟨hpq, hcb⟩ := List.append_inj' heq rfl
  obtain rfl := (List.cons.inj hcb).1
  have hfree : ∀ b ∈ q, isBarrier b = false := fun b hbq =>
    hinner b (by rw [← hpq]; exact List.mem_append_right p₁ hbq)
  rw [List.append_assoc] at hv
  exfalso
  -- the terminal is in front of the barrier, at it, or behind it
  rcases List.append_eq_append_iff.mp hv with ⟨d, hd, hrest⟩ | ⟨d, hd, hrest⟩
  · cases d with
    | nil =>
      rw [List.nil_append] at hrest
      obtain ⟨rfl, -⟩ := List.cons.inj hrest
      rw [hterminal] at hb
      exact absurd hb (by simp)
    | cons y d =>
      have hmem : x ∈ q := by
        obtain ⟨rfl, -⟩ := List.cons.inj hrest
        rw [hd]
        simp
      rw [hfree x hmem] at hx
      exact absurd hx (by simp)
  · cases d with
    | nil =>
      rw [List.nil_append] at hrest
      obtain ⟨rfl, -⟩ := List.cons.inj hrest
      rw [hterminal] at hb
      exact absurd hb (by simp)
    | cons y d =>
      obtain ⟨rfl, -⟩ := List.cons.inj hrest
      have hmem : c ∈ z := by
        rw [hd]
        simp
      rw [hz c hmem] at hb
      exact absurd hb (by simp)

/-- **Occurrences in two parts.** When no pattern lies across, and the second part is not the
rest of a word. -/
theorem occurs_append_iff {pattern : Text → Prop} {bounded : Bool} {u v : Text}
    (hcompact : ∀ p, pattern p → Compact p) (hapart : Apart u v)
    (hseam : WordBoundary u ∨ ∀ b, v.head? = some b → isSpace b = true) :
    Occurs pattern bounded (u ++ v) ↔ Occurs pattern bounded u ∨ Occurs pattern bounded v := by
  constructor
  · rintro ⟨front, p, rest, heq, hp, hfront⟩
    rcases List.append_eq_append_iff.mp heq with ⟨c, rfl, hv⟩ | ⟨c, hu, hrest⟩
    · -- it starts behind the first part
      refine Or.inr ⟨c, p, rest, hv, hp, fun hb b hlast => ?_⟩
      refine hfront hb b ?_
      rw [List.getLast?_append, hlast]
      rfl
    · rcases List.append_eq_append_iff.mp hrest with ⟨d, hd, hrest'⟩ | ⟨d, hp', hv⟩
      · exact Or.inl ⟨front, p, d, by rw [hu, hd], hp, hfront⟩
      · have hp₁ := hcompact p hp
        rw [hp'] at hp₁
        rcases hapart c d front rest hp₁ hu hv with hnil | hnil
        · rw [hnil, List.nil_append] at hp'
          rw [hnil, List.append_nil] at hu
          refine Or.inr ⟨[], p, rest, by rw [hp', hv, List.nil_append], hp, fun _ b hlast => ?_⟩
          exact absurd hlast (by simp)
        · rw [hnil, List.append_nil] at hp'
          exact Or.inl ⟨front, p, [], by rw [hu, hp', List.append_nil], hp, hfront⟩
  · rintro (⟨front, p, rest, rfl, hp, hfront⟩ | ⟨front, p, rest, rfl, hp, hfront⟩)
    · exact ⟨front, p, rest ++ v, by simp, hp, hfront⟩
    · refine ⟨u ++ front, p, rest, by simp, hp, fun hb b hlast => ?_⟩
      rw [List.getLast?_append] at hlast
      cases hfl : front.getLast? with
      | some c =>
        rw [hfl] at hlast
        exact hfront hb b (hfl.trans hlast)
      | none =>
        -- the occurrence is at the start of the second part
        rw [hfl, Option.none_or] at hlast
        rw [List.getLast?_eq_none_iff] at hfl
        subst hfl
        rcases hseam with hseam | hseam
        · exact hseam b hlast
        · have hcomp := hcompact p hp
          cases p with
          | nil => exact absurd rfl hcomp.ne_nil
          | cons c p =>
            have hstart := hcomp.start c rfl
            rw [hseam c rfl] at hstart
            exact absurd hstart (by simp)

/-- Without a terminal there is no occurrence. -/
theorem not_occurs_of_notMem {pattern : Text → Prop} {bounded : Bool} {t : Text}
    (hcompact : ∀ p, pattern p → Compact p) (h : ∀ b ∈ t, isTerminal b = false) :
    ¬ Occurs pattern bounded t := by
  rintro ⟨front, p, rest, rfl, hp, -⟩
  obtain ⟨inner, b, rfl, hb, -⟩ := (hcompact p hp).ends
  rw [h b (by simp)] at hb
  exact absurd hb (by simp)

end Swayam
