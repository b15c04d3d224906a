import Swayam.Analyzer.Apart

/-!
# SWAYAM — the sanitizer against the tokens of C++

`strip_comments_and_strings` stands in for a lexer with two expressions, one after
the other. It agrees with the lexer on the texts where each of them matches what
it is meant for and nothing else, and where what is left does not grow together.

* `escapesClosed_of_shape` — no piece that is kept makes a splice with what comes behind it;
* `tokensStay_iff` — where the passes agree with the lexer, the tokens of what is
  left are those of the source without its string literals if and only if nothing
  of it grows together.
-/

namespace Swayam.Cpp

/-! ## No escape is left open -/

theorem isIdent_ne_escape {b : Byte} (h : isIdent b = true) : b ≠ escape := by
  rintro rfl
  exact absurd h (by decide)

/-- What is no escape, and no white space. -/
def IsClosing (b : Byte) : Prop := b ≠ escape ∧ isBlank b = false

/-- A letter closes what a backslash could open. -/
theorem isClosing_of_isIdent {b : Byte} (h : isIdent b = true) : IsClosing b := by
  refine ⟨isIdent_ne_escape h, ?_⟩
  rw [isBlank, Bool.and_eq_false_iff]
  refine Or.inl ?_
  by_contra hspace
  rw [Bool.not_eq_false] at hspace
  rw [isIdent_of_isWhite hspace] at h
  exact absurd h (by simp)

theorem escapesClosed_of_notMem {gs : List Glyph} (h : escape ∉ bytes gs) : EscapesClosed gs := by
  rintro u g v rfl hg
  exact absurd (List.mem_map.mpr ⟨g, by simp, hg⟩) h

/-- A closing byte at the end is enough. -/
theorem escapesClosed_of_last {gs : List Glyph} {b : Byte} (h : (bytes gs).getLast? = some b)
    (hb : IsClosing b) : EscapesClosed gs := by
  rintro u g v rfl hg
  cases hv : v.getLast? with
  | none =>
    -- the escape would be the last byte
    rw [List.getLast?_eq_none_iff.mp hv, bytes, List.map_append, List.map_singleton,
      List.getLast?_concat] at h
    exact absurd ((Option.some.inj h).symm.trans hg) hb.1
  | some last =>
    refine ⟨last, List.mem_of_getLast? hv, ?_⟩
    have hlast : (bytes (u ++ g :: v)).getLast? = some last.byte := by
      rw [bytes, List.getLast?_map, List.getLast?_append, List.getLast?_cons, hv]
      rfl
    rw [Option.some.inj (hlast.symm.trans h)]
    exact hb.2

/-- A number has no backslash. -/
theorem escape_notMem_number (t : Text) : escape ∉ t.take (numberLength t) := by
  have hbyte : ∀ {b : Byte}, (isIdent b || decide (b = asciiByte '.')) = true → escape ≠ b := by
    rintro b hb rfl
    exact absurd hb (by decide)
  fun_induction numberLength t with
  | case1 => simp
  | case2 b hb => simpa using hbyte hb
  | case3 => simp
  | case4 b c t h ih =>
    -- an exponent and its sign
    rw [Nat.add_comm, List.take_succ_cons, List.take_succ_cons, List.mem_cons, List.mem_cons]
    rintro (rfl | rfl | hmem)
    · exact absurd h.1 (by decide)
    · exact absurd h.2 (by decide)
    · exact ih hmem
  | case5 b c t h hsep ih =>
    rw [Bool.and_eq_true, decide_eq_true_eq] at hsep
    rw [Nat.add_comm, List.take_succ_cons, List.take_succ_cons, List.mem_cons, List.mem_cons]
    rintro (rfl | rfl | hmem)
    · exact absurd hsep.1 (by decide)
    · exact absurd hsep.2 (by decide)
    · exact ih hmem
  | case6 b c t h hsep hb ih =>
    rw [Nat.add_comm, List.take_succ_cons, List.mem_cons, not_or]
    exact ⟨hbyte hb, ih⟩
  | case7 => simp

/-- **A piece that is kept** leaves no escape open: it has none, or something else is last. -/
theorem escapesClosed_of_shape {p : Piece} (h : Shape p.kind p.text) : EscapesClosed p.glyphs := by
  have hbytes : bytes p.glyphs = p.text := rfl
  generalize p.kind = kind at h
  generalize p.text = text at h hbytes
  cases h with
  | space hspace =>
    refine escapesClosed_of_notMem ?_
    rw [hbytes, List.mem_singleton]
    rintro rfl
    exact absurd hspace (by decide)
  | @header opening close inner hmem hinner =>
    refine escapesClosed_of_last (b := close) ?_ ?_
    · rw [hbytes, ← List.cons_append, List.getLast?_concat]
    · simp only [List.mem_cons, Prod.mk.injEq, List.not_mem_nil, or_false] at hmem
      rcases hmem with ⟨-, rfl⟩ | ⟨-, rfl⟩ <;> exact ⟨by decide, rfl⟩
  | @number b t hnumber =>
    refine escapesClosed_of_notMem ?_
    rw [hbytes, List.mem_cons, not_or]
    refine ⟨?_, escape_notMem_number t⟩
    rintro rfl
    exact absurd hnumber (by simp [opensNumber, show isDigit escape = false from rfl,
      show escape ≠ asciiByte '.' from by decide])
  | @literal start inner after hstart hend hlast =>
    cases hsuffix : (after.take (suffixLength after)).getLast? with
    -- without a suffix the closing quote is the last byte
    | none =>
      refine escapesClosed_of_last (b := asciiByte '\'') ?_ ⟨by decide, rfl⟩
      rw [hbytes, List.getLast?_append, List.getLast?_cons, List.getLast?_append, hsuffix, hlast]
      rfl
    | some c =>
      refine escapesClosed_of_last (b := c) ?_ (isClosing_of_isIdent (isIdent_of_mem_suffix
        (List.mem_of_getLast? hsuffix)))
      -- with one it is the last letter of the suffix
      rw [hbytes, List.getLast?_append, List.getLast?_cons, List.getLast?_append, hsuffix]
      rfl
  | @punctuation b t j _ _ _ _ hj hnot =>
    refine escapesClosed_of_notMem ?_
    have htake : (b :: t).take (punctuatorLength (b :: t)) = b :: t.take j := by
      rw [hj, List.take_succ_cons]
    rw [hbytes, ← htake]
    -- one byte that is allowed, or a long punctuator
    rcases punctuator_cases b t with ⟨hone, -⟩ | ⟨op, hop, hpart, hlong⟩
    · rw [← htake, hone] at hnot
      rw [hone, List.mem_singleton]
      rintro rfl
      exact hnot (by simp)
    · have hall : ∀ op ∈ longPunctuators, escape ∉ ascii op := by decide
      rw [hlong, ← List.prefix_iff_eq_take.mp hpart]
      exact hall op hop
  | @identifier b t hident _ hword =>
    refine escapesClosed_of_notMem ?_
    rw [hbytes, List.mem_cons, not_or]
    exact ⟨(isIdent_ne_escape hident).symm, fun hmem => isIdent_ne_escape (hword _ hmem) rfl⟩

/-! ## The condition -/

/-- **The passes agree** with the lexer: the expression for comments matches at the comments and
nowhere else, that for strings at the string literals and nowhere else, and no splice in front of
what they take out goes on behind it. -/
structure PassesAgree (sourceCode : Text) : Prop where
  comments : PassAgrees commentLength Piece.isComment Piece.raw (trailing (behindMark sourceCode))
    (lex sourceCode) = true
  strings  : PassAgrees stringLength Piece.isString Piece.uncommented
    (trailing (behindMark sourceCode)) (lex sourceCode) = true
  splices  : SplicesStay (trailing (behindMark sourceCode)) (lex sourceCode) = true

/-- What is left when they are taken out does not grow together, and it does not start with bytes
that are then read as a mark. -/
def LeftApart (sourceCode : Text) : Prop :=
  StandsApart .lineStart ((lex sourceCode).filter Piece.isKept) = true ∧
    (mark <+: sourceCode ∨ ¬ mark <+: (lex sourceCode).flatMap Piece.residue)

instance : DecidablePred LeftApart := fun sourceCode =>
  inferInstanceAs (Decidable (StandsApart .lineStart ((lex sourceCode).filter Piece.isKept) = true ∧
    (mark <+: sourceCode ∨ ¬ mark <+: (lex sourceCode).flatMap Piece.residue)))

def SourceToken.isString : SourceToken → Bool
  | .token _ _ => false
  | .string _ _ _ => true

/-- The tokens of what is left are those of the source, without its string literals. -/
def TokensStay (sourceCode : Text) : Prop :=
  sourceTokens (stripCommentsAndStrings sourceCode) =
    (sourceTokens sourceCode).filter fun t => !t.isString

instance : DecidablePred TokensStay := fun sourceCode =>
  inferInstanceAs (Decidable (sourceTokens (stripCommentsAndStrings sourceCode) =
    (sourceTokens sourceCode).filter fun t => !t.isString))

/-! ## The tokens -/

/-- Every piece the passes leave is a kept one. -/
theorem keptPiece_of_mem {t : Text} (hallowed : ∀ p ∈ piecesOf t, p.isAllowed = true) {p : Piece}
    (hp : p ∈ (piecesOf t).filter Piece.isKept) : KeptPiece p := by
  obtain ⟨hmem, hkept⟩ := List.mem_filter.mp hp
  obtain ⟨ctx, gs, hfirst, -⟩ := exists_firstPiece hmem
  refine ⟨shape_of_firstPiece ?_ hfirst (hallowed p hmem) hkept, hkept⟩
  rintro rfl
  refine ((flatMap_pieces .lineStart (glyphs [] 0 t)).2 p hmem).1 ?_
  rw [hfirst, firstPiece, List.take_nil]

/-- What a pass takes out of the pieces is no token, or a string. -/
theorem sourceToken_filter (ps : List Piece) :
    (ps.filter Piece.isKept).filterMap Piece.sourceToken =
      (ps.filterMap Piece.sourceToken).filter fun t => !t.isString := by
  induction ps with
  | nil => rfl
  | cons p ps ih =>
    rw [List.filterMap_cons]
    rcases p.sourceToken_cases with ⟨-, htoken⟩ | ⟨hstring, _, _, _, htoken⟩ |
      ⟨⟨-, hcomment⟩, hstring, htoken⟩
    · -- nothing to see of it, whether it is kept or not
      rw [htoken]
      cases hkept : p.isKept with
      | true =>
        rw [List.filter_cons_of_pos hkept, List.filterMap_cons, htoken]
        exact ih
      | false =>
        rw [List.filter_cons_of_neg (by simp [hkept])]
        exact ih
    · rw [htoken, List.filter_cons_of_neg (by simp [Piece.isKept, hstring])]
      dsimp only
      rw [List.filter_cons_of_neg (by simp [SourceToken.isString])]
      exact ih
    · have hkept : p.isKept = true := by simp [Piece.isKept, Piece.isComment, hcomment, hstring]
      rw [List.filter_cons_of_pos hkept, List.filterMap_cons, htoken]
      dsimp only
      rw [List.filter_cons_of_pos (by simp [SourceToken.isString]), ih]

/-- Tokens depend on the kinds and texts of the pieces only. -/
theorem filterMap_sourceToken_congr {ps qs : List Piece}
    (h : List.Forall₂ (fun p q => p.kind = q.kind ∧ p.text = q.text) ps qs) :
    ps.filterMap Piece.sourceToken = qs.filterMap Piece.sourceToken := by
  induction h with
  | nil => rfl
  | cons hpq hrest ih =>
    rw [List.filterMap_cons, List.filterMap_cons, (Piece.sourceToken_congr hpq.1 hpq.2).1, ih]

/-- What the passes leave of a text reads as the pieces that are kept. -/
theorem exists_reads_strip {t : Text} (hallowed : ∀ p ∈ piecesOf t, p.isAllowed = true)
    (hcomments : PassAgrees commentLength Piece.isComment Piece.raw (trailing t) (piecesOf t) = true)
    (hstrings : PassAgrees stringLength Piece.isString Piece.uncommented (trailing t)
      (piecesOf t) = true)
    (hsplices : SplicesStay (trailing t) (piecesOf t) = true) :
    ∃ gs, Reads (stripCommentsAndStrings t) gs ∧
      bytes gs = ((piecesOf t).filter Piece.isKept).flatMap Piece.text := by
  obtain ⟨hflat, hall⟩ := flatMap_pieces .lineStart (glyphs [] 0 t)
  have hreads : Reads ((piecesOf t).flatMap Piece.raw ++ trailing t)
      ((piecesOf t).flatMap Piece.glyphs) := by
    rw [← (eq_flatMap_raw t).1, piecesOf, hflat]
    exact reads_glyphs (.nil t)
  have hclosed : ∀ p ∈ piecesOf t, p.isKept = true → EscapesClosed p.glyphs := fun p hp hk =>
    escapesClosed_of_shape (keptPiece_of_mem hallowed (List.mem_filter.mpr ⟨hp, hk⟩)).shape
  rw [strip_eq_residue hcomments hstrings]
  exact exists_reads_residue hreads (fun p hp => (hall p hp).1) hsplices hclosed

/-- **Read as it stands**, what is left has the tokens of the kept pieces if and only if they stand
apart. -/
theorem tokens_strip_iff {t : Text} {gs : List Glyph}
    (hallowed : ∀ p ∈ piecesOf t, p.isAllowed = true) (hgs : Reads (stripCommentsAndStrings t) gs)
    (hbytes : bytes gs = ((piecesOf t).filter Piece.isKept).flatMap Piece.text) :
    (piecesOf (stripCommentsAndStrings t)).filterMap Piece.sourceToken =
        ((piecesOf t).filter Piece.isKept).filterMap Piece.sourceToken ↔
      StandsApart .lineStart ((piecesOf t).filter Piece.isKept) = true := by
  have hkept : ∀ p ∈ (piecesOf t).filter Piece.isKept, KeptPiece p :=
    fun p hp => keptPiece_of_mem hallowed hp
  rw [piecesOf, hgs.glyphs_eq]
  exact ⟨standsApart_of_tokens hkept hbytes, fun hapart =>
    filterMap_sourceToken_congr (pieces_stable hkept hbytes hapart)⟩

/-! ## A mark in front of what is left -/

/-- The passes do not touch it. -/
theorem strip_marked (t : Text) :
    stripCommentsAndStrings (mark ++ t) = mark ++ stripCommentsAndStrings t := by
  rw [stripCommentsAndStrings_eq, stripComments_append_of_notMem (by decide),
    stripStrings_append_of_notMem (by decide), ← stripCommentsAndStrings_eq]

/-- **A mark that comes to stand in front** is lost to the compiler, and the tokens with it. -/
theorem tokens_ne_of_marked {t rest : Text} {gs : List Glyph}
    (hallowed : ∀ p ∈ piecesOf t, p.isAllowed = true) (hgs : Reads (mark ++ rest) gs)
    (hbytes : bytes gs = ((piecesOf t).filter Piece.isKept).flatMap Piece.text) :
    (piecesOf rest).filterMap Piece.sourceToken ≠
      ((piecesOf t).filter Piece.isKept).filterMap Piece.sourceToken := by
  intro h
  -- the kept pieces show three bytes more than there are behind the mark
  have hshown := congrArg shownBy h
  rw [shownBy_eq fun p hp => keptPiece_of_mem hallowed hp, ← hbytes, ← hgs.glyphs_eq, glyphs_marked,
    bytes, List.map_append, ← bytes, ← bytes, solid, List.countP_append, ← solid, ← solid] at hshown
  have hle := shownBy_le (piecesOf rest)
  rw [piecesOf, flatMap_text_pieces] at hle
  have hmark : solid (bytes (mark.map fun b => ⟨[], b⟩)) = 3 := by decide
  rw [piecesOf] at hshown
  omega

/-- A splice makes none. -/
theorem marked_of_append {u rest : Text} (h : mark <+: u ++ rest)
    (hrest : ∀ b ∈ rest, b = escape ∨ isWhite b = true) : mark <+: u := by
  by_cases hle : mark.length ≤ u.length
  · exact List.prefix_of_prefix_length_le h (List.prefix_append u rest) hle
  · obtain ⟨v, hv⟩ := List.prefix_of_prefix_length_le (List.prefix_append u rest) h (by omega)
    have hlength := congrArg List.length hv
    rw [List.length_append] at hlength
    obtain ⟨b, v, rfl⟩ := List.exists_cons_of_length_pos (l := v) (by omega)
    have hb : b ∈ rest := by
      rw [← hv, List.prefix_append_right_inj] at h
      exact h.subset List.mem_cons_self
    have hmem : b ∈ mark := hv ▸ List.mem_append_right u List.mem_cons_self
    simp only [mark, List.mem_cons, List.not_mem_nil, or_false] at hmem
    rcases hmem with rfl | rfl | rfl <;> exact absurd (hrest _ hb) (by decide)

/-- **The sanitizer and the lexer**: where the passes agree, the tokens stay if and only if what is
left stands apart. -/
theorem tokensStay_iff {sourceCode : Text} (hlex : Lexable sourceCode) (h : PassesAgree sourceCode) :
    TokensStay sourceCode ↔ LeftApart sourceCode := by
  obtain ⟨gs, hgs, hbytes⟩ := exists_reads_strip hlex h.comments h.strings h.splices
  have hiff := tokens_strip_iff hlex hgs hbytes
  rw [TokensStay, sourceTokens, sourceTokens, ← sourceToken_filter, lex, LeftApart]
  rcases marked_or_not sourceCode with hmarked | ⟨hnot, hsame⟩
  · -- the mark stays where it is
    have hstrip : behindMark (stripCommentsAndStrings sourceCode) =
        stripCommentsAndStrings (behindMark sourceCode) := by
      conv_lhs => rw [hmarked, strip_marked, behindMark_marked]
    have hprefix : mark <+: sourceCode := ⟨_, hmarked.symm⟩
    rw [hstrip]
    exact hiff.trans ⟨fun hapart => ⟨hapart, Or.inl hprefix⟩, And.left⟩
  · -- a source without a mark: what is left may start with one all the same
    have hleft : stripCommentsAndStrings (behindMark sourceCode) =
        (piecesOf (behindMark sourceCode)).flatMap Piece.residue ++ trailing (behindMark sourceCode) :=
      strip_eq_residue h.comments h.strings
    by_cases hmark : mark <+: stripCommentsAndStrings (behindMark sourceCode)
    · have hresidue : mark <+: (piecesOf (behindMark sourceCode)).flatMap Piece.residue :=
        marked_of_append (hleft ▸ hmark) (eq_flatMap_raw (behindMark sourceCode)).2.escape_or_white
      obtain ⟨rest, hrest⟩ := hmark
      rw [← hrest] at hgs
      rw [hsame] at hrest
      -- then the compiler drops bytes that were tokens before
      refine iff_of_false ?_ fun hapart => ?_
      · rw [← hrest, behindMark_marked]
        exact tokens_ne_of_marked hlex hgs hbytes
      · exact hapart.2.elim hnot fun hnone => hnone hresidue
    · have hnone : ¬ mark <+: (lex sourceCode).flatMap Piece.residue := by
        intro hresidue
        rw [hleft] at hmark
        exact hmark (hresidue.trans (List.prefix_append _ _))
      have hstrip : behindMark (stripCommentsAndStrings sourceCode) =
          stripCommentsAndStrings (behindMark sourceCode) := by
        rw [hsame] at hmark ⊢
        exact behindMark_of_not hmark
      rw [hstrip]
      exact hiff.trans ⟨fun hapart => ⟨hapart, Or.inr hnone⟩, And.left⟩

/-- A comment and a string, between tokens. -/
def plainSource : Text := ascii "int n /* count */ = f(\"text\", '/'); // done"

theorem tokensStay_plainSource : TokensStay plainSource :=
  (tokensStay_iff (by decide +kernel) ⟨by decide +kernel, by decide +kernel, by decide +kernel⟩).mpr
    (by decide +kernel)

/-- A string that the expression for comments cuts off. -/
def addressSource : Text := ascii "s = \"http://x\"; int n;"

/-- A source without raw strings refutes the unconditional statement. -/
theorem tokensStay_fails : ¬ ∀ sourceCode, Lexable sourceCode →
    (∀ p ∈ lex sourceCode, p.isRaw = false) → TokensStay sourceCode := by
  intro h
  exact absurd (h addressSource (by decide +kernel) (by decide +kernel)) (by decide +kernel)

/-- The passes may fail and the tokens stay: the quote that is left of the first literal closes at
that of the second one, and what is left of this makes a line splice. -/
example : Lexable (ascii "\"//\"\n\"\\\" \"\n;") ∧ TokensStay (ascii "\"//\"\n\"\\\" \"\n;") ∧
    PassAgrees commentLength Piece.isComment Piece.raw []
      (lex (ascii "\"//\"\n\"\\\" \"\n;")) = false := by
  decide +kernel

end Swayam.Cpp
