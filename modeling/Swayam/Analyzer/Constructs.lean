import Swayam.Analyzer.Threats
import Swayam.Analyzer.Tokens

/-!
# SWAYAM — the constructs that the analyzer names

A call of the shell and inline assembly, as the compiler sees them: tokens one
behind the other (`Contains`). The signatures of the analyzer are matched on the
text with its comments, so they find a construct that is written plainly, and
miss one with a comment, a line splice, a qualifier or a NUL in it (`Disguised`).

* `contains_iff` — a construct among the tokens is one among the pieces;
* `occurs_of_plain` — a plain one is found;
* `noConstruct_iff` — what acceptance rules out.
-/

namespace Swayam.Cpp

/-! ## Constructs -/

def shellNames : List String := ["popen", "execl", "system", "execve", "fork"]

def asmNames : List String := ["__asm__", "asm"]

def asmQualifiers : List String := ["volatile", "__volatile__", "goto", "inline"]

/-- A name, qualifiers and an opening parenthesis, token by token. -/
def Contains (names qualifiers : List String) (ts : List Token) : Prop :=
  ∃ front name, ∃ between : List String, ∃ rest, name ∈ names ∧ (∀ q ∈ between, q ∈ qualifiers) ∧
    ts = front ++ .identifier (ascii name) ::
      ((between.map fun q => .identifier (ascii q)) ++ .punctuation (ascii "(") :: rest)

/-- The same, piece by piece. -/
structure Construct (names qualifiers : List String) (ps front : List Piece) (name : Piece)
    (between : List Piece) (paren : Piece) (rest : List Piece) : Prop where
  parts   : ps = front ++ name :: (between ++ paren :: rest)
  named   : ∃ n ∈ names, name.token = some (.identifier (ascii n))
  between : ∀ p ∈ between, p.token = none ∨
    ∃ q ∈ qualifiers, p.token = some (.identifier (ascii q))
  paren   : paren.token = some (.punctuation (ascii "("))

/-- Written plainly: nothing but white space that is no NUL in front of the parenthesis, and no line
splice behind the first letter. -/
def Plain (name : Piece) (between : List Piece) (paren : Piece) : Prop :=
  (∀ p ∈ between, p.kind = .space ∧ (0 : Byte) ∉ p.text) ∧
    ∀ g ∈ name.glyphs.tail ++ (between ++ [paren]).flatMap Piece.glyphs, g.splice = []

/-- A construct that is not written plainly. -/
def Disguised (names qualifiers : List String) (ps : List Piece) : Prop :=
  ∃ front name between paren rest,
    Construct names qualifiers ps front name between paren rest ∧ ¬ Plain name between paren

/-- The tokens of pieces that are blank or qualifiers. -/
theorem exists_quals {qualifiers : List String} {between : List Piece}
    (h : ∀ p ∈ between, p.token = none ∨ ∃ q ∈ qualifiers, p.token = some (.identifier (ascii q))) :
    ∃ quals : List String, (∀ q ∈ quals, q ∈ qualifiers) ∧
      between.filterMap Piece.token = quals.map fun q => .identifier (ascii q) := by
  induction between with
  | nil => exact ⟨[], by simp, rfl⟩
  | cons p between ih =>
    obtain ⟨quals, hquals, heq⟩ := ih fun p' hp' => h p' (List.mem_cons_of_mem p hp')
    rcases h p List.mem_cons_self with hnone | ⟨q, hq, hsome⟩
    · exact ⟨quals, hquals, by rw [List.filterMap_cons_none hnone, heq]⟩
    · refine ⟨q :: quals, fun q' hq' => ?_, by rw [List.filterMap_cons_some hsome, heq]; rfl⟩
      rcases List.mem_cons.mp hq' with rfl | hq'
      · exact hq
      · exact hquals q' hq'

/-- **A construct among the tokens is one among the pieces.** -/
theorem contains_iff {names qualifiers : List String} {ps : List Piece} :
    Contains names qualifiers (ps.filterMap Piece.token) ↔
      ∃ front name between paren rest,
        Construct names qualifiers ps front name between paren rest := by
  constructor
  · rintro ⟨front, n, quals, rest, hn, hquals, heq⟩
    obtain ⟨ps₁, ps₂, rfl, -, hps₂⟩ := List.filterMap_eq_append_iff.mp heq
    obtain ⟨blank, name, ps₃, rfl, -, hname, hps₃⟩ := List.filterMap_eq_cons_iff.mp hps₂
    obtain ⟨between, ps₄, rfl, hbetween, hps₄⟩ := List.filterMap_eq_append_iff.mp hps₃
    obtain ⟨blank', paren, rest', rfl, hblank', hparen, -⟩ := List.filterMap_eq_cons_iff.mp hps₄
    refine ⟨ps₁ ++ blank, name, between ++ blank', paren, rest', by simp, ⟨n, hn, hname⟩,
      fun p hp => ?_, hparen⟩
    rcases List.mem_append.mp hp with hp | hp
    · cases htoken : p.token with
      | none => exact Or.inl rfl
      | some t =>
        have hmem : t ∈ between.filterMap Piece.token := List.mem_filterMap.mpr ⟨p, hp, htoken⟩
        rw [hbetween] at hmem
        obtain ⟨q, hq, rfl⟩ := List.mem_map.mp hmem
        exact Or.inr ⟨q, hquals q hq, rfl⟩
    · exact Or.inl (hblank' p hp)
  · rintro ⟨front, name, between, paren, rest, rfl, ⟨n, hn, hname⟩, hbetween, hparen⟩
    obtain ⟨quals, hquals, heq⟩ := exists_quals hbetween
    refine ⟨front.filterMap Piece.token, n, quals, rest.filterMap Piece.token, hn, hquals, ?_⟩
    rw [List.filterMap_append, List.filterMap_cons_some hname, List.filterMap_append, heq,
      List.filterMap_cons_some hparen]

/-! ## What the signatures find -/

/-- An identifier token comes from an identifier piece with its spelling. -/
theorem text_of_identifier {p : Piece} {t : Text} (h : p.token = some (.identifier t)) :
    p.kind = .identifier ∧ p.text = t := by
  obtain ⟨kind, gs⟩ := p
  cases kind
  all_goals first
    | exact ⟨rfl, Token.identifier.inj (Option.some.inj h)⟩
    | exact absurd h (by simp [Piece.token])

/-- A punctuation token has the spelling of its piece. -/
theorem text_of_punctuation {p : Piece} {t : Text} (h : p.token = some (.punctuation t)) :
    p.text = t := by
  obtain ⟨kind, gs⟩ := p
  cases kind
  all_goals first
    | exact Token.punctuation.inj (Option.some.inj h)
    | exact absurd h (by simp [Piece.token])

/-- The byte in front of an identifier is the end of a splice, or that of another piece: no letter
of a word. -/
theorem boundary_of_pieces {t : Text} {front rest : List Piece} {name : Piece}
    (hparts : piecesOf t = front ++ name :: rest) (hkind : name.kind = .identifier)
    {g : Glyph} {gs : List Glyph} (hgs : name.glyphs = g :: gs) {b : Byte}
    (hb : ((front.flatMap Piece.glyphs).flatMap Glyph.raw ++ g.splice).getLast? = some b) :
    isWord b = false := by
  have hident : ∀ b, isIdent b = false → isWord b = false :=
    fun b hb => (Bool.or_eq_false_iff.mp (Bool.or_eq_false_iff.mp hb).1).1
  have hsplice : EndsSplice g.splice := by
    refine (flatMap_glyphs [] (fun _ h => absurd h (by simp)) t).2 g ?_
    rw [← (flatMap_pieces .lineStart (glyphs [] 0 t)).1, ← piecesOf, hparts]
    simp [hgs]
  rw [List.getLast?_append] at hb
  cases hlast : g.splice.getLast? with
  | some c =>
    rw [hlast, Option.some_or] at hb
    obtain rfl := Option.some.inj hb
    have hend := hsplice c hlast
    rw [isLineEnd, Bool.or_eq_true, decide_eq_true_eq, decide_eq_true_eq] at hend
    rcases hend with rfl | rfl <;> rfl
  | none =>
    -- no splice, so the byte is the last of the piece in front
    rw [hlast, Option.none_or] at hb
    cases hfront : (front.flatMap Piece.glyphs).getLast? with
    | none =>
      rw [List.getLast?_eq_none_iff.mp hfront] at hb
      exact absurd hb (by simp)
    | some g' =>
      obtain ⟨gs', hgs'⟩ := List.getLast?_eq_some_iff.mp hfront
      rw [hgs', List.flatMap_append, List.flatMap_singleton, Glyph.raw, ← List.append_assoc,
        List.getLast?_concat] at hb
      rw [← Option.some.inj hb]
      exact hident _ (identifier_boundary (by rw [← piecesOf]; exact hparts) hkind hfront)

/-- **A construct that is written plainly is found**, behind a word boundary. -/
theorem occurs_of_plain {names qualifiers : List String} {t : Text} {front rest : List Piece}
    {name paren : Piece} {between : List Piece}
    (h : Construct names qualifiers (piecesOf t) front name between paren rest)
    (hplain : Plain name between paren) : Occurs (CallPattern names) true t := by
  obtain ⟨hparts, ⟨n, hn, hname⟩, -, hparen⟩ := h
  obtain ⟨hspaces, hunspliced⟩ := hplain
  obtain ⟨hkind, htext⟩ := text_of_identifier hname
  obtain ⟨⟨trailing, htrailing⟩, -⟩ :=
    flatMap_glyphs [] (fun _ h => absurd h (by simp)) t
  obtain ⟨hglyphs, hpieces⟩ := flatMap_pieces .lineStart (glyphs [] 0 t)
  have hmem : ∀ p ∈ between, p ∈ piecesOf t := by
    intro p hp
    rw [hparts]
    simp [hp]
  -- the first letter of the name
  obtain ⟨g, gs, hgs⟩ : ∃ g gs, name.glyphs = g :: gs :=
    List.exists_cons_of_ne_nil (hpieces name (by rw [← piecesOf, hparts]; simp)).1
  rw [hgs, List.tail_cons] at hunspliced
  have hraw : name.glyphs.flatMap Glyph.raw = g.splice ++ ascii n := by
    rw [hgs, List.flatMap_cons, flatMap_raw_of_unspliced fun g' hg' =>
      hunspliced g' (List.mem_append_left _ hg'), ← htext, Piece.text, hgs, Glyph.raw]
    simp [bytes]
  -- the bytes behind it
  have hcall : ((between ++ [paren]).flatMap Piece.glyphs).flatMap Glyph.raw =
      between.flatMap Piece.text ++ ascii "(" := by
    rw [flatMap_raw_of_unspliced fun g' hg' => hunspliced g' (List.mem_append_right _ hg'),
      ← text_of_punctuation hparen, bytes, List.map_flatMap, List.flatMap_append,
      List.flatMap_singleton]
    rfl
  have hsp : Spaces (between.flatMap Piece.text) := by
    intro b hb
    obtain ⟨p, hp, hbp⟩ := List.mem_flatMap.mp hb
    have hwhite := (hpieces p (hmem p hp)).2 (hspaces p hp).1 b hbp
    rw [isWhite, Bool.or_eq_true, decide_eq_true_eq] at hwhite
    refine hwhite.resolve_right ?_
    rintro rfl
    exact (hspaces p hp).2 hbp
  have htext' : t = ((front.flatMap Piece.glyphs).flatMap Glyph.raw ++ g.splice) ++
      ((ascii n ++ (between.flatMap Piece.text ++ ascii "(")) ++
        ((rest.flatMap Piece.glyphs).flatMap Glyph.raw ++ trailing)) := by
    rw [← List.nil_append t, htrailing, ← hglyphs, ← piecesOf, hparts, ← hcall]
    simp only [List.flatMap_append, List.flatMap_cons, List.append_assoc, hraw, List.flatMap_nil,
      List.append_nil]
  exact ⟨_, _, _, htext', ⟨n, hn, _, hsp, rfl⟩, fun _ b hb => boundary_of_pieces hparts hkind hgs hb⟩

/-- A mark in front is no letter of a word. -/
theorem occurs_of_behindMark {pattern : Text → Prop} {bounded : Bool} {sourceCode : Text}
    (h : Occurs pattern bounded (behindMark sourceCode)) : Occurs pattern bounded sourceCode := by
  rcases marked_or_not sourceCode with hmark | ⟨-, hsame⟩
  · obtain ⟨front, p, rest, heq, hp, hbounded⟩ := h
    refine ⟨mark ++ front, p, rest, ?_, hp, fun hb b hlast => ?_⟩
    · rw [hmark, heq]
      simp only [List.append_assoc]
    · rw [List.getLast?_append] at hlast
      cases hfront : front.getLast? with
      | some c =>
        rw [hfront, Option.some_or] at hlast
        exact hbounded hb b (hfront.trans hlast)
      | none =>
        rw [hfront, Option.none_or] at hlast
        rw [← Option.some.inj hlast]
        rfl
  · rwa [hsame] at h

/-! ## What acceptance rules out -/

/-- **What acceptance rules out**: an accepted text has none of the constructs if and only if it
has none that is disguised. -/
theorem noConstruct_iff (sourceCode : Text) (h : (evaluateMutation sourceCode).isSafe = true) :
    (¬ Contains shellNames [] (tokens sourceCode) ∧
      ¬ Contains asmNames asmQualifiers (tokens sourceCode)) ↔
    (¬ Disguised shellNames [] (lex sourceCode) ∧
      ¬ Disguised asmNames asmQualifiers (lex sourceCode)) := by
  obtain ⟨-, -, -, -, hthreats, -⟩ := isSafe_iff.mp h
  rw [noThreat_iff] at hthreats
  have hiff : ∀ {names qualifiers : List String}, ¬ Occurs (CallPattern names) true sourceCode →
      (¬ Contains names qualifiers (tokens sourceCode) ↔
        ¬ Disguised names qualifiers (lex sourceCode)) := by
    intro names qualifiers hoccurs
    rw [tokens, contains_iff, not_iff_not]
    constructor
    · rintro ⟨front, name, between, paren, rest, hconstruct⟩
      exact ⟨front, name, between, paren, rest, hconstruct,
        fun hplain => hoccurs (occurs_of_behindMark (occurs_of_plain hconstruct hplain))⟩
    · rintro ⟨front, name, between, paren, rest, hconstruct, -⟩
      exact ⟨front, name, between, paren, rest, hconstruct⟩
  have hshell : ¬ Occurs (CallPattern shellNames) true sourceCode :=
    hthreats (CallPattern shellNames, true) (by simp [threatPatterns, shellNames])
  have hasm : ¬ Occurs (CallPattern asmNames) true sourceCode := by
    rintro ⟨front, p, rest, heq, hp, -⟩
    exact hthreats (CallPattern asmNames, false) (by simp [threatPatterns, asmNames])
      ⟨front, p, rest, heq, hp, fun hbounded => absurd hbounded (by simp)⟩
  rw [hiff hshell, hiff hasm]

/-- On an accepted source: both sides hold. -/
theorem noConstruct_iff_accepted : (evaluateMutation acceptedSource).isSafe = true ∧
    ((¬ Contains shellNames [] (tokens acceptedSource) ∧
      ¬ Contains asmNames asmQualifiers (tokens acceptedSource)) ↔
    (¬ Disguised shellNames [] (lex acceptedSource) ∧
      ¬ Disguised asmNames asmQualifiers (lex acceptedSource))) :=
  ⟨by decide, noConstruct_iff acceptedSource (by decide)⟩

/-- A comment in front of the parenthesis, and a qualifier. -/
def disguisedSource : Text :=
  ascii "int main() \x7b try \x7b system/**/(\"ls\"); asm volatile(\"nop\"); \x7d catch (...) \x7b\x7d \x7d"

/-- An accepted source with a disguised call refutes the unconditional statement. -/
theorem noConstruct_fails_on_disguised : ¬ ∀ sourceCode,
    (evaluateMutation sourceCode).isSafe = true →
      ¬ Contains shellNames [] (tokens sourceCode) ∧
        ¬ Contains asmNames asmQualifiers (tokens sourceCode) := by
  intro h
  obtain ⟨hshell, -⟩ := h disguisedSource (by decide +kernel)
  exact hshell ⟨(tokens disguisedSource).take 7, "system", [], (tokens disguisedSource).drop 9,
    by decide, by simp, by decide +kernel⟩

end Swayam.Cpp
