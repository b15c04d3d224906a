import Swayam.Analyzer.FirstPiece

/-!
# SWAYAM — pieces that are put together again

Some of the pieces of a source, put one behind the other, with nothing between
them. They are the pieces of the text so made when each of them ends where it
ended and a header name may follow where one does (`StandsApart`); otherwise the
tokens of that text are others.

* `pieces_stable` — pieces that stand apart are the pieces of their text;
* `standsApart_of_tokens` — where the tokens are the same, they stand apart.
-/

namespace Swayam.Cpp

/-! ## Pieces that are kept -/

/-- None of the pieces joins with those behind it, and a header name may follow where one does. -/
def StandsApart (ctx : Context) : List Piece → Bool
  | [] => true
  | p :: ps =>
    !p.joins (ps.flatMap Piece.text) &&
      decide ((headerLength ctx (p.text ++ ps.flatMap Piece.text)).isSome = true ↔
        p.kind = .header) &&
      StandsApart (ctx.next p) ps

/-- A piece that a pass keeps. -/
structure KeptPiece (p : Piece) : Prop where
  shape : Shape p.kind p.text
  kept  : p.isKept = true

/-- A kept piece is neither of the two things the passes remove. -/
theorem KeptPiece.not_string {p : Piece} (h : KeptPiece p) :
    p.kind ≠ .comment ∧ p.isString = false := by
  have hkept := h.kept
  rw [Piece.isKept, Bool.and_eq_true, Bool.not_eq_true', Bool.not_eq_true', Piece.isComment,
    decide_eq_false_iff_not] at hkept
  exact hkept

/-- What a piece starts with: white space is white space, a quote opens a header name, and an
apostrophe a literal that is closed. -/
structure Head (kind : Kind) (text : Text) (b : Byte) (t : Text) : Prop where
  text       : text = b :: t
  space      : isWhite b = true ↔ kind = .space
  header     : b = quote → kind = .header
  apostrophe : b = asciiByte '\'' →
    ∃ n, ∀ behind, literalEnd (asciiByte '\'') (t ++ behind) = some n

/-- Most bytes are none of these. -/
theorem Head.of_ne {kind : Kind} {b : Byte} (t : Text) (hkind : kind ≠ .space)
    (hspace : isWhite b = false) (hquote : b ≠ quote) (hapostrophe : b ≠ asciiByte '\'') :
    Head kind (b :: t) b t :=
  ⟨rfl, iff_of_false (by simp [hspace]) hkind, fun h => absurd h hquote,
    fun h => absurd h hapostrophe⟩

/-- A letter in front settles every condition a head has. -/
theorem Head.of_isIdent {kind : Kind} {b : Byte} (t : Text) (hkind : kind ≠ .space)
    (hident : isIdent b = true) : Head kind (b :: t) b t := by
  have hne : ∀ c, isIdent c = false → b ≠ c := by
    rintro c hc rfl
    rw [hc] at hident
    exact absurd hident (by simp)
  refine .of_ne t hkind ?_ (hne _ rfl) (hne _ rfl)
  by_contra hspace
  rw [Bool.not_eq_false] at hspace
  exact hne b (isIdent_of_isWhite hspace) rfl

/-- **So starts every piece.** -/
theorem Shape.head {kind : Kind} {text : Text} (h : Shape kind text) :
    ∃ b t, Head kind text b t := by
  cases h with
  | @space b hspace =>
    refine ⟨b, [], rfl, iff_of_true hspace rfl, ?_, ?_⟩
    · rintro rfl
      exact absurd hspace (by decide)
    · rintro rfl
      exact absurd hspace (by decide)
  | @header opening close inner hmem hinner =>
    have hopening : isWhite opening = false ∧ opening ≠ asciiByte '\'' := by
      simp only [List.mem_cons, Prod.mk.injEq, List.not_mem_nil, or_false] at hmem
      rcases hmem with ⟨rfl, -⟩ | ⟨rfl, -⟩ <;> decide
    exact ⟨opening, _, rfl, iff_of_false (by simp [hopening.1]) (by simp), fun _ => rfl,
      fun h => absurd h hopening.2⟩
  | @number b t hnumber =>
    rw [opensNumber, Bool.or_eq_true, Bool.and_eq_true, decide_eq_true_eq] at hnumber
    rcases hnumber with hdigit | ⟨rfl, -⟩
    · refine ⟨b, _, .of_isIdent _ (by simp) ?_⟩
      rw [isIdent, isWord, hdigit]
      rfl
    · exact ⟨_, _, .of_ne _ (by simp) (by decide) (by decide) (by decide)⟩
  | @literal start inner after hstart hend hlast =>
    cases start with
    | nil =>
      -- without a prefix the quote itself is the first byte
      refine ⟨asciiByte '\'', _, rfl, iff_of_false (by decide) (by simp),
        fun h => absurd h (by decide), fun _ => ⟨inner.length, fun behind => ?_⟩⟩
      rw [List.append_assoc]
      exact hend _
    | cons c start =>
      have hstarts : ∀ start ∈ [] :: charStarts, start.all isIdent = true := by decide
      exact ⟨c, _, .of_isIdent _ (by simp)
        (List.all_eq_true.mp (hstarts _ hstart) c List.mem_cons_self)⟩
  | @punctuation b t j hspace _ _ _ hj hnot =>
    obtain ⟨hquote, hapostrophe⟩ := not_quote_of_notMem hj hnot
    exact ⟨b, _, .of_ne _ (by simp) hspace hquote hapostrophe⟩
  | @identifier b t hident _ _ => exact ⟨b, t, .of_isIdent t (by simp) hident⟩

/-- No literal prefix comes in front of a header name. -/
theorem Context.next_ne_header {ctx : Context} {p : Piece} (hkind : p.kind = .identifier)
    (hstart : p.text ∈ charStarts ++ rawStarts) : ctx.next p ≠ .header := by
  have hstarts : ∀ t ∈ charStarts ++ rawStarts, t ≠ ascii "#" ∧ t ≠ ascii "%:" ∧
      t ≠ ascii "include" ∧ t ≠ ascii "include_next" ∧ t ≠ ascii "import" ∧ t ≠ ascii "(" := by
    decide
  -- the prefix of a literal is none of the words a header name stands behind
  obtain ⟨h₁, h₂, h₃, h₄, h₅, h₆⟩ := hstarts _ hstart
  unfold Context.next
  rw [hkind]
  dsimp only
  have hline : Context.inLine ≠ .header := by decide
  have hcondition : Context.condition ≠ .header := by decide
  cases ctx with
  | lineStart =>
    dsimp only
    rw [if_neg (not_or.mpr ⟨h₁, h₂⟩)]
    exact hline
  | directive =>
    dsimp only
    rw [if_neg (not_or.mpr ⟨h₃, not_or.mpr ⟨h₄, h₅⟩⟩)]
    split
    · exact hcondition
    · exact hline
  | condition =>
    dsimp only
    split
    · decide
    · exact hcondition
  | hasInclude =>
    dsimp only
    rw [if_neg h₆]
    exact hcondition
  | header => exact hcondition
  | inLine => exact hline

/-! ## Pieces that stand apart -/

/-- What a piece leaves for the next one depends on its kind and text only. -/
theorem Context.next_congr {ctx : Context} {p q : Piece} (hkind : p.kind = q.kind)
    (htext : p.text = q.text) : ctx.next p = ctx.next q := by
  unfold Context.next
  rw [hkind, htext]

/-- A text starts with the piece that its first lexeme says. -/
theorem firstPiece_of_lexeme {ctx : Context} {gs : List Glyph} {p : Piece} {behind : Text}
    (hbytes : bytes gs = p.text ++ behind) (h : lexeme ctx gs = (p.kind, p.text.length)) :
    (firstPiece ctx gs).kind = p.kind ∧ (firstPiece ctx gs).text = p.text := by
  have hfirst : firstPiece ctx gs = ⟨p.kind, gs.take p.text.length⟩ := by rw [firstPiece, h]
  rw [hfirst]
  refine ⟨rfl, ?_⟩
  show bytes (gs.take p.text.length) = p.text
  rw [bytes, List.map_take, ← bytes, hbytes, List.take_left]

/-- **Pieces that stand apart** are the pieces of their text, however it is spliced. -/
theorem pieces_stable {ctx : Context} {gs : List Glyph} {ps : List Piece}
    (hps : ∀ p ∈ ps, KeptPiece p) (hbytes : bytes gs = ps.flatMap Piece.text)
    (h : StandsApart ctx ps = true) :
    List.Forall₂ (fun p q => p.kind = q.kind ∧ p.text = q.text) (pieces ctx 0 gs) ps := by
  -- the glyphs are generalised: behind the first piece they are any that spell out the rest
  induction ps generalizing ctx gs with
  | nil =>
    rw [List.map_eq_nil_iff.mp hbytes]
    exact .nil
  | cons p ps ih =>
    rw [StandsApart, Bool.and_eq_true, Bool.and_eq_true, Bool.not_eq_true', decide_eq_true_eq] at h
    obtain ⟨⟨hjoins, hheader⟩, hrest⟩ := h
    have hp := hps p List.mem_cons_self
    obtain ⟨b, t, hhead, -, -, -⟩ := hp.shape.head
    rw [List.flatMap_cons] at hbytes
    have hlexeme : lexeme ctx gs = (p.kind, p.text.length) := by
      refine lexeme_stable hp.shape hbytes hjoins hheader fun hkind hquote => ?_
      -- a quote behind it opens a header name, and none can stand there
      by_contra hstart
      rw [Bool.not_eq_false, List.contains_iff_mem] at hstart
      cases ps with
      | nil => exact absurd hquote (by simp)
      | cons q ps =>
        obtain ⟨c, u, hq, -, hopens, -⟩ :=
          (hps q (List.mem_cons_of_mem p List.mem_cons_self)).shape.head
        rw [List.flatMap_cons, hq] at hquote
        rw [StandsApart, Bool.and_eq_true, Bool.and_eq_true, decide_eq_true_eq] at hrest
        have hsome := hrest.1.2.mpr (hopens (Option.some.inj hquote))
        obtain ⟨n, hn⟩ := Option.isSome_iff_exists.mp hsome
        obtain ⟨_, _, _, _, _, hctx, _⟩ := headerLength_eq_some hn
        exact Context.next_ne_header hkind hstart hctx
    obtain ⟨hkind, htext⟩ := firstPiece_of_lexeme hbytes hlexeme
    obtain ⟨g, gs, rfl⟩ : ∃ g gs', gs = g :: gs' := by
      rw [hhead] at hbytes
      obtain ⟨g, gs', hgs, -⟩ := exists_cons_of_bytes hbytes
      exact ⟨g, gs', hgs⟩
    rw [pieces_cons_eq, hlexeme, Context.next_congr hkind htext]
    refine .cons ⟨hkind, htext⟩ (ih (fun q hq => hps q (List.mem_cons_of_mem p hq)) ?_ hrest)
    rw [bytes_drop, hbytes, List.drop_left]

/-! ## Pieces that grow together -/

/-- A header name is the first piece where one may stand. -/
theorem lexeme_header_iff {ctx : Context} {gs : List Glyph} (hne : gs ≠ []) :
    (headerLength ctx (bytes gs)).isSome = true ↔ (lexeme ctx gs).1 = .header := by
  obtain ⟨g, gs, rfl⟩ := List.exists_cons_of_ne_nil hne
  constructor
  · intro hsome
    obtain ⟨n, hn⟩ := Option.isSome_iff_exists.mp hsome
    obtain ⟨opening, close, inner, rest, hmem, -, heq, -, -⟩ := headerLength_eq_some hn
    have hbyte : isWhite g.byte = false ∧ g.byte ≠ slash := by
      obtain ⟨rfl, -⟩ := List.cons.inj heq
      simp only [List.mem_cons, Prod.mk.injEq, List.not_mem_nil, or_false] at hmem
      rcases hmem with ⟨h, -⟩ | ⟨h, -⟩ <;> rw [h] <;> decide
    have hcons : headerLength ctx (g.byte :: bytes gs) = some n := hn
    rw [lexeme_of_not hbyte.1 fun h => hbyte.2 h.1, hcons]
  · intro hkind
    have hbegins := begins_lexeme ctx g gs
    rw [hkind] at hbegins
    cases hbegins with
    | header h => exact Option.isSome_iff_exists.mpr ⟨_, h⟩

/-- Behind a literal and its suffix: no letter, or a digit where there is no suffix. -/
theorem next_of_literal {w behind : Text} {k : Nat} (hends : Ends w k)
    (hbehind : w.drop (k + suffixLength (w.drop k)) = behind) :
    (behind.head?.map fun b => isIdent b && (!isDigit b ||
      ((w.take (k + suffixLength (w.drop k))).getLast?.map isIdent).getD false)).getD false = false := by
  cases behind with
  | nil => rfl
  | cons c behind =>
    rw [List.head?_cons, Option.map_some, Option.getD_some]
    by_cases hdigit : ((w.drop k).head?.map isDigit).getD false = true
    · -- no suffix: the piece ends with the literal
      have hzero : suffixLength (w.drop k) = 0 := if_pos hdigit
      rw [hzero, Nat.add_zero] at hbehind ⊢
      rw [hbehind] at hdigit
      have hc : isDigit c = true := hdigit
      rcases hends with ⟨b, hb, hident⟩ | hnil
      · rw [hb, hc]
        simp [hident]
      · rw [hbehind] at hnil
        exact absurd hnil (List.cons_ne_nil _ _)
    · have hsuffix : suffixLength (w.drop k) = ((w.drop k).takeWhile isIdent).length :=
        if_neg hdigit
      rw [hsuffix, ← List.drop_drop] at hbehind
      have hc : isIdent c = false := head_drop_takeWhile (by rw [hbehind]; rfl)
      rw [hc, Bool.false_and]

/-- **A piece that is the first one** of a text does not join with what is behind it there. -/
theorem joins_of_lexeme {ctx : Context} {gs : List Glyph} {p : Piece} {behind : Text}
    (hbytes : bytes gs = p.text ++ behind) (hne : p.text ≠ [])
    (hclosed : behind.head? = some (asciiByte '\'') →
      ∃ n, literalEnd (asciiByte '\'') behind.tail = some n)
    (h : lexeme ctx gs = (p.kind, p.text.length)) :
    p.joins behind = false ∧
      ((headerLength ctx (p.text ++ behind)).isSome = true ↔ p.kind = .header) := by
  obtain ⟨b, t, htext⟩ := List.exists_cons_of_ne_nil hne
  have hcons : bytes gs = b :: (t ++ behind) := by rw [hbytes, htext]; rfl
  obtain ⟨g, gs, rfl, rfl, hgs⟩ := exists_cons_of_bytes hcons
  -- the piece and what is behind it, by its length
  have hfront : (g.byte :: (t ++ behind)).take p.text.length = p.text := by
    rw [← List.cons_append, ← htext, List.take_left]
  have hbehind : (g.byte :: (t ++ behind)).drop p.text.length = behind := by
    rw [← List.cons_append, ← htext, List.drop_left]
  constructor
  · have hbegins := begins_lexeme ctx g gs
    rw [h, hgs] at hbegins
    generalize hn : p.text.length = n at hbegins hfront hbehind
    rw [Piece.joins]
    cases hk : p.kind with
    | space => rfl
    | comment => rfl
    | header => rfl
    | number =>
      rw [hk] at hbegins
      cases hbegins with
      | number hnumber =>
        rw [htext, List.length_cons, Nat.add_comm] at hn
        dsimp only
        rw [decide_eq_false_iff_not, not_not, htext, List.tail_cons]
        exact (Nat.add_left_cancel hn).symm
    | literal =>
      rw [hk] at hbegins
      cases hbegins with
      | @literal m hliteral _ =>
        obtain ⟨hends, -⟩ := ends_literalLength hliteral
        rw [bytes_drop, hcons] at hends
        generalize g.byte :: (t ++ behind) = w at hfront hbehind hends
        have hends := hends.add
        generalize (w.takeWhile isIdent).length + m = k at hfront hbehind hends
        change w.take (k + suffixLength (w.drop k)) = p.text at hfront
        change w.drop (k + suffixLength (w.drop k)) = behind at hbehind
        rw [← hfront]
        exact next_of_literal hends hbehind
    | punctuation =>
      rw [hk] at hbegins
      cases hbegins with
      | punctuation _ _ hcomment hnumber _ =>
        dsimp only
        rw [Bool.or_eq_false_iff, Bool.or_eq_false_iff, decide_eq_false_iff_not, not_not]
        refine ⟨⟨?_, ?_⟩, ?_⟩
        · rw [hn, htext]
          rfl
        · rw [Bool.and_eq_false_iff, decide_eq_false_iff_not]
          by_contra hboth
          rw [not_or, not_not, Bool.not_eq_false, htext, slash_or_star_iff] at hboth
          obtain ⟨hslash, hnext⟩ := hboth
          obtain ⟨hbyte, rfl⟩ := List.cons.inj hslash
          exact hcomment ⟨hbyte, hnext⟩
        · rw [Bool.and_eq_false_iff, decide_eq_false_iff_not]
          by_contra hboth
          rw [not_or, not_not, Bool.not_eq_false, htext] at hboth
          obtain ⟨hpoint, hnext⟩ := hboth
          obtain ⟨hbyte, rfl⟩ := List.cons.inj hpoint
          rw [opensNumber, hbyte, Bool.or_eq_false_iff, Bool.and_eq_false_iff] at hnumber
          rcases hnumber.2 with h | h
          · exact absurd h (by simp)
          · rw [List.nil_append, hnext] at h
            exact absurd h (by simp)
    | identifier =>
      rw [hk] at hbegins
      cases hbegins with
      | identifier _ _ hliteral =>
        dsimp only
        rw [take_takeWhile_length] at hfront
        rw [hfront] at hliteral hbehind
        rw [Bool.or_eq_false_iff, Bool.and_eq_false_iff, decide_eq_false_iff_not]
        constructor
        · cases hhead : behind.head? with
          | none => rfl
          | some c =>
            rw [← hfront] at hbehind
            exact head_drop_takeWhile (by rw [hbehind, hhead])
        · by_contra hboth
          rw [not_or, not_not, Bool.not_eq_false, List.contains_iff_mem] at hboth
          obtain ⟨hhead, hstart⟩ := hboth
          obtain ⟨n, hend⟩ := hclosed hhead
          -- the literal behind it would have this prefix
          obtain ⟨q, rest, hq, hbyte, hrest⟩ : ∃ q rest, (g :: gs).drop p.text.length = q :: rest ∧
              q.byte = asciiByte '\'' ∧ bytes rest = behind.tail := by
            obtain ⟨c, behind, rfl⟩ := List.exists_cons_of_ne_nil
              (List.ne_nil_of_mem (List.mem_of_mem_head? hhead))
            refine exists_cons_of_bytes ?_
            rw [bytes_drop, hcons, hbehind, Option.some.inj hhead]
            rfl
          rw [hq, literalLength_char (List.mem_cons_of_mem _ hstart) hbyte (hrest ▸ hend)] at hliteral
          exact absurd hliteral (by simp)
  · rw [← hbytes, lexeme_header_iff (List.cons_ne_nil g gs), h]

/-! ## What the tokens show -/

/-- The bytes of a text that are no white space. -/
def solid (t : Text) : Nat := t.countP fun b => !isWhite b

/-- Those that a token shows. -/
def SourceToken.shown : SourceToken → Nat
  | .token _ text => solid text
  | .string _ _ _ => 0

def Piece.shown (p : Piece) : Nat := (p.sourceToken.map SourceToken.shown).getD 0

def shownBy : List SourceToken → Nat
  | [] => 0
  | t :: ts => t.shown + shownBy ts

/-- A piece shows at most its solid bytes. -/
theorem shown_le (p : Piece) : p.shown ≤ solid p.text := by
  rw [Piece.shown]
  rcases p.sourceToken_cases with ⟨-, htoken⟩ | ⟨-, _, _, _, htoken⟩ | ⟨-, -, htoken⟩
  · rw [htoken]
    exact Nat.zero_le _
  · rw [htoken]
    exact Nat.zero_le _
  · rw [htoken]
    exact Nat.le_refl _

/-- A kept piece is its own token. -/
theorem KeptPiece.sourceToken {p : Piece} (h : KeptPiece p) (hkind : p.kind ≠ .space) :
    p.sourceToken = some (.token p.kind p.text) := by
  obtain ⟨hcomment, hstring⟩ := h.not_string
  rcases p.sourceToken_cases with ⟨hnone, -⟩ | ⟨hnot, -⟩ | ⟨-, -, htoken⟩
  · exact absurd hnone (not_or.mpr ⟨hkind, hcomment⟩)
  · rw [hstring] at hnot
    exact absurd hnot (by simp)
  · exact htoken

/-- White space is one byte. -/
theorem KeptPiece.space {p : Piece} (h : KeptPiece p) (hkind : p.kind = .space) :
    ∃ b, p.text = [b] ∧ isWhite b = true := by
  have hshape := h.shape
  rw [hkind] at hshape
  generalize p.text = text at hshape ⊢
  cases hshape with
  | space hspace => exact ⟨_, rfl, hspace⟩

/-- A kept piece shows all that it has. -/
theorem KeptPiece.shown_eq {p : Piece} (h : KeptPiece p) : p.shown = solid p.text := by
  by_cases hkind : p.kind = .space
  · obtain ⟨b, htext, hspace⟩ := h.space hkind
    have hzero : solid p.text = 0 := by
      rw [htext, solid, List.countP_cons_of_neg (by simp [hspace]), List.countP_nil]
    rw [hzero]
    exact Nat.le_zero.mp (hzero ▸ shown_le p)
  · rw [Piece.shown, h.sourceToken hkind]
    rfl

/-- What the tokens of a list show, piece by piece. -/
theorem shownBy_cons (p : Piece) (ps : List Piece) :
    shownBy ((p :: ps).filterMap Piece.sourceToken) =
      p.shown + shownBy (ps.filterMap Piece.sourceToken) := by
  rw [List.filterMap_cons, Piece.shown]
  cases p.sourceToken with
  | none => exact (Nat.zero_add _).symm
  | some t => rfl

/-- The tokens show no more than the text has. -/
theorem shownBy_le (ps : List Piece) :
    shownBy (ps.filterMap Piece.sourceToken) ≤ solid (ps.flatMap Piece.text) := by
  induction ps with
  | nil => exact Nat.le_refl 0
  | cons p ps ih =>
    have hp := shown_le p
    rw [solid, List.flatMap_cons, List.countP_append, ← solid, ← solid, shownBy_cons]
    omega

/-- Kept pieces show all that they have. -/
theorem shownBy_eq {ps : List Piece} (hps : ∀ p ∈ ps, KeptPiece p) :
    shownBy (ps.filterMap Piece.sourceToken) = solid (ps.flatMap Piece.text) := by
  induction ps with
  | nil => rfl
  | cons p ps ih =>
    rw [solid, List.flatMap_cons, List.countP_append, ← solid, ← solid, shownBy_cons,
      (hps p List.mem_cons_self).shown_eq, ih fun q hq => hps q (List.mem_cons_of_mem p hq)]

/-- Lexing loses no byte. -/
theorem flatMap_text_pieces (ctx : Context) (gs : List Glyph) :
    (pieces ctx 0 gs).flatMap Piece.text = bytes gs := by
  conv_rhs => rw [← (flatMap_pieces ctx gs).1, bytes, List.map_flatMap]
  rfl

/-- Where the tokens of a text are those of the pieces that it is made of, it does not start with
a comment: the comment would hide some of them. -/
theorem not_comment_of_tokens {ctx : Context} {g : Glyph} {gs : List Glyph} {ps : List Piece}
    (hps : ∀ p ∈ ps, KeptPiece p) (hbytes : bytes (g :: gs) = ps.flatMap Piece.text)
    (h : (pieces ctx 0 (g :: gs)).filterMap Piece.sourceToken = ps.filterMap Piece.sourceToken) :
    (firstPiece ctx (g :: gs)).kind ≠ .comment := by
  intro hcomment
  -- both sides show as much; the pieces show all of the text, and the comment is a part of it
  have hsum := congrArg shownBy h
  rw [shownBy_eq hps, ← hbytes, ← flatMap_text_pieces ctx, pieces_cons_eq, shownBy_cons,
    List.flatMap_cons, solid, List.countP_append, ← solid, ← solid] at hsum
  have hrest := shownBy_le (pieces (ctx.next (firstPiece ctx (g :: gs))) 0
    ((g :: gs).drop (lexeme ctx (g :: gs)).2))
  have hzero : (firstPiece ctx (g :: gs)).shown = 0 := by
    rw [Piece.shown, Piece.sourceToken, hcomment]
    rfl
  -- its slash is no white space
  have hpos : 0 < solid (firstPiece ctx (g :: gs)).text := by
    obtain ⟨b, t, n, hwhole, hbegins, htext⟩ := exists_begins (List.cons_ne_nil g gs) rfl
    rw [hcomment] at hbegins
    obtain ⟨j, rfl⟩ := Nat.exists_eq_succ_of_ne_zero (hbegins.spec hwhole).2.1.ne'
    rw [htext, List.take_succ_cons, hbegins.slash, solid, List.countP_cons_of_pos (by decide)]
    exact Nat.succ_pos _
  omega

/-- **Where the tokens are the same**, the pieces stand apart. -/
theorem standsApart_of_tokens {ctx : Context} {gs : List Glyph} {ps : List Piece}
    (hps : ∀ p ∈ ps, KeptPiece p) (hbytes : bytes gs = ps.flatMap Piece.text)
    (h : (pieces ctx 0 gs).filterMap Piece.sourceToken = ps.filterMap Piece.sourceToken) :
    StandsApart ctx ps = true := by
  induction ps generalizing ctx gs with
  | nil => rfl
  | cons p ps ih =>
    have hp := hps p List.mem_cons_self
    have hrest : ∀ q ∈ ps, KeptPiece q := fun q hq => hps q (List.mem_cons_of_mem p hq)
    obtain ⟨b, t, hhead, hspace, -, -⟩ := hp.shape.head
    obtain ⟨g, gs, rfl, hg, -⟩ : ∃ g gs', gs = g :: gs' ∧ g.byte = b ∧
        bytes gs' = t ++ ps.flatMap Piece.text := by
      rw [List.flatMap_cons, hhead] at hbytes
      exact exists_cons_of_bytes hbytes
    have hnot := not_comment_of_tokens hps hbytes h
    rw [List.flatMap_cons] at hbytes
    -- the first piece is the first of those
    have hlexeme : lexeme ctx (g :: gs) = (p.kind, p.text.length) := by
      by_cases hkind : p.kind = .space
      · obtain ⟨c, htext, -⟩ := hp.space hkind
        rw [lexeme_space (hg ▸ hspace.mpr hkind), hkind, htext]
        rfl
      · rw [pieces_cons_eq, List.filterMap_cons, List.filterMap_cons, hp.sourceToken hkind] at h
        have hbegins := begins_lexeme ctx g gs
        have hfirst : (firstPiece ctx (g :: gs)).kind ≠ .space := by
          intro hfirst
          change (lexeme ctx (g :: gs)).1 = .space at hfirst
          rw [hfirst] at hbegins
          generalize (lexeme ctx (g :: gs)).2 = n at hbegins
          cases hbegins with
          | space hbyte => exact hkind (hspace.mp (hg ▸ hbyte))
        rcases (firstPiece ctx (g :: gs)).sourceToken_cases with
          ⟨hnone, -⟩ | ⟨-, _, _, _, htoken⟩ | ⟨-, -, htoken⟩
        · exact absurd hnone (not_or.mpr ⟨hfirst, hnot⟩)
        · -- a string is none of the tokens of kept pieces
          rw [htoken] at h
          exact absurd (List.cons.inj h).1 (by simp)
        · rw [htoken] at h
          have hsame := (List.cons.inj h).1
          rw [SourceToken.token.injEq] at hsame
          have hle := hbegins.le rfl
          have hlength : (firstPiece ctx (g :: gs)).text.length = (lexeme ctx (g :: gs)).2 := by
            rw [firstPiece, Piece.text, bytes, List.length_map, List.length_take]
            refine Nat.min_eq_left ?_
            rw [List.length_cons, bytes, List.length_map] at hle
            exact hle
          rw [← hsame.1, ← hsame.2, hlength]
          rfl
    -- an apostrophe behind it is that of a kept literal, and so it is closed
    have hclosed : (ps.flatMap Piece.text).head? = some (asciiByte '\'') →
        ∃ n, literalEnd (asciiByte '\'') (ps.flatMap Piece.text).tail = some n := by
      intro hapostrophe
      cases ps with
      | nil => exact absurd hapostrophe (by simp)
      | cons q ps =>
        obtain ⟨c, u, hq, -, -, hliteral⟩ := (hrest q List.mem_cons_self).shape.head
        rw [List.flatMap_cons, hq] at hapostrophe ⊢
        obtain ⟨n, hn⟩ := hliteral (Option.some.inj hapostrophe)
        exact ⟨n, hn _⟩
    obtain ⟨hjoins, hheader⟩ := joins_of_lexeme hbytes (by rw [hhead]; simp) hclosed hlexeme
    obtain ⟨hkind, htext⟩ := firstPiece_of_lexeme hbytes hlexeme
    -- and the rest goes on with the rest
    rw [StandsApart, hjoins, decide_eq_true hheader, Bool.not_false, Bool.true_and, Bool.true_and]
    have hdrop : bytes ((g :: gs).drop p.text.length) = ps.flatMap Piece.text := by
      rw [bytes_drop, hbytes, List.drop_left]
    refine ih hrest hdrop ?_
    rw [pieces_cons_eq, hlexeme, Context.next_congr hkind htext, List.filterMap_cons,
      List.filterMap_cons, (Piece.sourceToken_congr hkind htext).1] at h
    cases htoken : p.sourceToken with
    | none =>
      rw [htoken] at h
      exact h
    | some t =>
      rw [htoken] at h
      exact (List.cons.inj h).2

end Swayam.Cpp
