import Swayam.Analyzer.Shape

/-!
# SWAYAM — a piece in front of another text

When the first piece of a text is the first one of another, too. A piece ends
where it cannot go on, so it depends on the next few bytes only (`Piece.joins`),
and on whether a header name may stand there.

* `lexeme_stable` — a piece that does not join with the text behind it is the first
  one there.
-/

namespace Swayam.Cpp

section Lexeme

variable {ctx : Context} {g : Glyph} {gs : List Glyph}

/-- White space is a piece of one byte. -/
theorem lexeme_space (h : isWhite g.byte = true) : lexeme ctx (g :: gs) = (.space, 1) := by
  have hbytes : bytes (g :: gs) = g.byte :: bytes gs := rfl
  unfold lexeme
  rw [hbytes]
  dsimp only
  rw [if_pos h]

/-- The kinds that come behind white space and comments. -/
theorem lexeme_of_not (hspace : isWhite g.byte = false) (hcomment : ¬ opensComment g.byte (bytes gs)) :
    lexeme ctx (g :: gs) = match headerLength ctx (g.byte :: bytes gs) with
      | some n => (.header, n)
      | none =>
        if opensNumber g.byte (bytes gs) then (.number, 1 + numberLength (bytes gs))
        else match literalLength ((g.byte :: bytes gs).takeWhile isIdent)
            ((g :: gs).drop ((g.byte :: bytes gs).takeWhile isIdent).length) with
          | some n => (.literal, ((g.byte :: bytes gs).takeWhile isIdent).length + n +
              suffixLength ((g.byte :: bytes gs).drop
                (((g.byte :: bytes gs).takeWhile isIdent).length + n)))
          | none =>
            if ((g.byte :: bytes gs).takeWhile isIdent).length = 0 then
              (.punctuation, punctuatorLength (g.byte :: bytes gs))
            else (.identifier, ((g.byte :: bytes gs).takeWhile isIdent).length) := by
  have hbytes : bytes (g :: gs) = g.byte :: bytes gs := rfl
  unfold lexeme
  rw [hbytes]
  dsimp only
  rw [take_takeWhile_length, if_neg (by simp [hspace]), if_neg fun h => hcomment ⟨h.1, Or.inl h.2⟩,
    if_neg fun h => hcomment ⟨h.1, Or.inr h.2⟩]
  rfl

/-! ### In front of another text -/

variable {behind : Text}

/-- The glyph behind the first byte. -/
theorem exists_cons_of_bytes {gs : List Glyph} {b : Byte} {t : Text} (h : bytes gs = b :: t) :
    ∃ g gs', gs = g :: gs' ∧ g.byte = b ∧ bytes gs' = t := by
  cases gs with
  | nil => exact absurd h (by simp [bytes])
  | cons g gs =>
    obtain ⟨hb, ht⟩ := List.cons.inj h
    exact ⟨g, gs, rfl, hb, ht⟩

/-- No header name, and no number. -/
theorem lexeme_word {ctx : Context} {gs : List Glyph} {b : Byte} {t : Text}
    (hbytes : bytes gs = b :: t) (hspace : isWhite b = false) (hcomment : ¬ opensComment b t)
    (hheader : headerLength ctx (b :: t) = none) (hnumber : opensNumber b t = false) :
    lexeme ctx gs = match literalLength ((b :: t).takeWhile isIdent)
        (gs.drop ((b :: t).takeWhile isIdent).length) with
      | some n => (.literal, ((b :: t).takeWhile isIdent).length + n +
          suffixLength ((b :: t).drop (((b :: t).takeWhile isIdent).length + n)))
      | none =>
        if ((b :: t).takeWhile isIdent).length = 0 then (.punctuation, punctuatorLength (b :: t))
        else (.identifier, ((b :: t).takeWhile isIdent).length) := by
  obtain ⟨g, gs, rfl, rfl, rfl⟩ := exists_cons_of_bytes hbytes
  rw [lexeme_of_not hspace hcomment, hheader]
  dsimp only
  rw [if_neg (by simp [hnumber])]

/-- A number is read as before when what stands behind lets it end where it did. -/
theorem stable_number {ctx : Context} {gs : List Glyph} {b : Byte} {t : Text}
    (hbytes : bytes gs = b :: (t ++ behind)) (hnumber : opensNumber b t = true)
    (hlength : numberLength (t ++ behind) = t.length) : lexeme ctx gs = (.number, 1 + t.length) := by
  obtain ⟨g, gs, rfl, rfl, hgs⟩ := exists_cons_of_bytes hbytes
  have hbyte : isDigit g.byte = true ∨ g.byte = asciiByte '.' := by
    rw [opensNumber, Bool.or_eq_true, Bool.and_eq_true, decide_eq_true_eq] at hnumber
    exact hnumber.imp id And.left
  have hnumber' : opensNumber g.byte (bytes gs) = true := by
    rw [hgs]
    rw [opensNumber, Bool.or_eq_true, Bool.and_eq_true] at hnumber ⊢
    refine hnumber.imp id fun h => ⟨h.1, ?_⟩
    cases t with
    | nil => exact absurd h.2 (by simp)
    | cons c t => exact h.2
  -- a digit or a point starts none of the kinds that are looked for before
  have hother : ∀ c, isDigit c = false → c ≠ asciiByte '.' → g.byte ≠ c := by
    rintro c hdigit hpoint rfl
    rcases hbyte with h | h
    · rw [hdigit] at h
      exact absurd h (by simp)
    · exact hpoint h
  have hspace : isWhite g.byte = false := by
    cases h : isWhite g.byte with
    | false => rfl
    | true =>
      have hident := isIdent_of_isWhite h
      rcases hbyte with hdigit | hpoint
      · rw [isIdent, isWord, hdigit] at hident
        exact absurd hident (by simp)
      · rw [hpoint] at h
        exact absurd h (by decide)
  rw [lexeme_of_not hspace fun h => hother slash rfl (by decide) h.1,
    headerLength_eq_none fun h => by
      rcases h with h | h
      · exact absurd h (hother _ rfl (by decide))
      · exact absurd h (hother _ rfl (by decide))]
  dsimp only
  rw [if_pos hnumber', hgs, hlength]

/-- A header name is read as before, whatever stands behind its closing byte. -/
theorem stable_header {gs : List Glyph} {opening close : Byte} {inner : Text}
    (hbytes : bytes gs = opening :: (inner ++ close :: behind))
    (hmem : (opening, close) ∈ [(asciiByte '<', asciiByte '>'), (quote, quote)])
    (hinner : ∀ b ∈ inner, b ≠ close ∧ isLineEnd b = false) :
    lexeme .header gs = (.header, inner.length + 2) := by
  obtain ⟨g, gs, rfl, rfl, hgs⟩ := exists_cons_of_bytes hbytes
  have hbyte : g.byte = asciiByte '<' ∨ g.byte = quote := by
    simp only [List.mem_cons, Prod.mk.injEq, List.not_mem_nil, or_false] at hmem
    exact hmem.imp And.left And.left
  have hspace : isWhite g.byte = false ∧ g.byte ≠ slash := by
    rcases hbyte with h | h <;> rw [h] <;> decide
  rw [lexeme_of_not hspace.1 (fun h => hspace.2 h.1), hgs, headerLength_closed hmem hinner]

/-- A text would be the prefix of the literal that starts behind it. -/
def opensLiteral (start behind : Text) : Bool :=
  (behind.head? = some (asciiByte '\'') && charStarts.contains start) ||
    (behind.head? = some quote && (charStarts ++ rawStarts).contains start)

/-- A start with no quote behind it opens no literal. -/
theorem literalLength_eq_none {start : Text} {gs : List Glyph} (hne : start ≠ [])
    (h : opensLiteral start (bytes gs) = false) : literalLength start gs = none := by
  cases gs with
  | nil => rfl
  | cons q rest =>
    have hhead : (bytes (q :: rest)).head? = some q.byte := rfl
    rw [opensLiteral, hhead, Bool.or_eq_false_iff, Bool.and_eq_false_iff, Bool.and_eq_false_iff,
      decide_eq_false_iff_not, decide_eq_false_iff_not] at h
    have hmem : ∀ starts : List Text, starts ⊆ charStarts ++ rawStarts →
        (charStarts ++ rawStarts).contains start = false → ¬ starts.contains start = true := by
      intro starts hsub hnot hin
      rw [← Bool.not_eq_true, List.contains_iff_mem] at hnot
      exact hnot (hsub (List.contains_iff_mem.mp hin))
    rw [literalLength, if_neg, if_neg]
    · rw [Bool.and_eq_true, Bool.or_eq_true, decide_eq_true_eq, decide_eq_true_eq,
        List.contains_iff_mem, List.mem_cons, or_iff_right hne, ← List.contains_iff_mem]
      rintro ⟨hq | hq, hin⟩
      · rcases h.2 with hnot | hnot
        · exact hnot (congrArg some hq)
        · exact hmem charStarts (List.subset_append_left _ _) hnot hin
      · rcases h.1 with hnot | hnot
        · exact hnot (congrArg some hq)
        · rw [← Bool.not_eq_true] at hnot
          exact hnot hin
    · rw [Bool.and_eq_true, decide_eq_true_eq]
      rintro ⟨hq, hin⟩
      rcases h.2 with hnot | hnot
      · exact hnot (congrArg some hq)
      · exact hmem rawStarts (List.subset_append_right _ _) hnot hin

/-- The bytes of a word are letters. -/
theorem word_of_isIdent {b : Byte} (h : isIdent b = true) (hdigit : isDigit b = false) (t : Text) :
    isWhite b = false ∧ ¬ opensComment b t ∧ (∀ ctx, headerLength ctx (b :: t) = none) ∧
      opensNumber b t = false := by
  have hne : ∀ c, isIdent c = false → b ≠ c := by
    rintro c hc rfl
    rw [hc] at h
    exact absurd h (by simp)
  refine ⟨?_, fun hcomment => hne slash rfl hcomment.1, ?_, ?_⟩
  · cases hspace : isWhite b with
    | false => rfl
    | true =>
      rw [isIdent_of_isWhite hspace] at h
      exact absurd h (by simp)
  · refine fun ctx => headerLength_eq_none ?_
    rintro (hopening | hopening)
    · exact absurd hopening (hne _ rfl)
    · exact absurd hopening (hne _ rfl)
  · rw [opensNumber, hdigit, Bool.false_or, Bool.and_eq_false_iff, decide_eq_false_iff_not]
    exact Or.inl (hne _ rfl)

/-- An identifier is read as before in front of a byte that is no part of one. -/
theorem stable_identifier {ctx : Context} {gs : List Glyph} {start : Text}
    (hbytes : bytes gs = start ++ behind) (hne : start ≠ []) (hident : ∀ b ∈ start, isIdent b = true)
    (hdigit : ∀ b, start.head? = some b → isDigit b = false)
    (hnext : ∀ b, behind.head? = some b → isIdent b = false)
    (hliteral : opensLiteral start behind = false) :
    lexeme ctx gs = (.identifier, start.length) := by
  obtain ⟨b, t, rfl⟩ := List.exists_cons_of_ne_nil hne
  obtain ⟨hspace, hcomment, hheader, hnumber⟩ :=
    word_of_isIdent (hident b List.mem_cons_self) (hdigit b rfl) (t ++ behind)
  have htake : (b :: (t ++ behind)).takeWhile isIdent = b :: t := takeWhile_eq hident hnext
  have hnone : literalLength (b :: t) (gs.drop (b :: t).length) = none := by
    refine literalLength_eq_none hne ?_
    rw [bytes_drop, hbytes, List.drop_left]
    exact hliteral
  have hcons : bytes gs = b :: (t ++ behind) := hbytes
  rw [lexeme_word hcons hspace hcomment (hheader ctx) hnumber, htake, hnone]
  dsimp only
  rw [if_neg (by simp)]

/-- Behind a prefix of its own, an apostrophe starts a literal where another one closes it. -/
theorem literalLength_char {start : Text} {q : Glyph} {rest : List Glyph} {n : Nat}
    (hstart : start ∈ [] :: charStarts) (hq : q.byte = asciiByte '\'')
    (hend : literalEnd (asciiByte '\'') (bytes rest) = some n) :
    literalLength start (q :: rest) = some (1 + n) := by
  have hquote : asciiByte '\'' ≠ quote := by decide
  rw [literalLength, if_neg, if_pos, hq, hend]
  · rfl
  · rw [Bool.and_eq_true, Bool.or_eq_true, decide_eq_true_eq, decide_eq_true_eq,
      List.contains_iff_mem]
    exact ⟨Or.inr hq, hstart⟩
  · rw [Bool.and_eq_true, decide_eq_true_eq, hq]
    exact fun h => hquote h.1

/-- A character literal, with its prefix and its suffix. -/
theorem stable_literal {ctx : Context} {gs : List Glyph} {start inner suffix : Text}
    (hbytes : bytes gs = start ++ asciiByte '\'' :: (inner ++ (suffix ++ behind)))
    (hstart : start ∈ [] :: charStarts)
    (hend : literalEnd (asciiByte '\'') (inner ++ (suffix ++ behind)) = some inner.length)
    (hsuffix : suffixLength (suffix ++ behind) = suffix.length) :
    lexeme ctx gs = (.literal, start.length + (1 + inner.length) + suffix.length) := by
  have hstarts : ∀ start ∈ [] :: charStarts, start.all isIdent = true ∧
      (start.head?.map isDigit).getD false = false := by decide
  -- the first byte is a letter of the prefix, or the apostrophe
  have htake : (start ++ asciiByte '\'' :: (inner ++ (suffix ++ behind))).takeWhile isIdent =
      start := by
    refine takeWhile_eq (fun b hb => ?_) fun b hb => Option.some.inj hb ▸ rfl
    exact List.all_eq_true.mp (hstarts start hstart).1 b hb
  obtain ⟨q, rest, hq⟩ : ∃ q rest, gs.drop start.length = q :: rest ∧ q.byte = asciiByte '\'' ∧
      bytes rest = inner ++ (suffix ++ behind) := by
    have h := bytes_drop gs start.length
    rw [hbytes, List.drop_left] at h
    exact exists_cons_of_bytes h
  have hliteral : literalLength start (gs.drop start.length) = some (1 + inner.length) := by
    rw [hq.1]
    exact literalLength_char hstart hq.2.1 (hq.2.2 ▸ hend)
  have hdrop : (start ++ asciiByte '\'' :: (inner ++ (suffix ++ behind))).drop
      (start.length + (1 + inner.length)) = suffix ++ behind := by
    rw [List.drop_length_add_append, Nat.add_comm 1, List.drop_succ_cons, List.drop_left]
  obtain ⟨b, t, hcons⟩ : ∃ b t, start ++ asciiByte '\'' :: (inner ++ (suffix ++ behind)) = b :: t :=
    List.exists_cons_of_ne_nil (by simp)
  have hword : isWhite b = false ∧ ¬ opensComment b t ∧ (∀ ctx, headerLength ctx (b :: t) = none) ∧
      opensNumber b t = false := by
    cases start with
    | nil =>
      obtain ⟨rfl, -⟩ := List.cons.inj hcons
      exact ⟨rfl, fun h => absurd h.1 (by decide),
        fun ctx => headerLength_eq_none fun h => absurd h (by decide), rfl⟩
    | cons c start =>
      obtain ⟨rfl, -⟩ := List.cons.inj hcons
      obtain ⟨hall, hdigit⟩ := hstarts _ hstart
      exact word_of_isIdent (List.all_eq_true.mp hall c List.mem_cons_self) hdigit t
  obtain ⟨hspace, hcomment, hheader, hnumber⟩ := hword
  rw [lexeme_word (hbytes.trans hcons) hspace hcomment (hheader ctx) hnumber, ← hcons, htake, hliteral]
  dsimp only
  rw [hdrop, hsuffix]

/-- Punctuation is read as before when it neither opens a literal, a comment or a number. -/
theorem stable_punctuation {ctx : Context} {gs : List Glyph} {b : Byte} {t : Text}
    (hbytes : bytes gs = b :: (t ++ behind)) (hspace : isWhite b = false) (hident : isIdent b = false)
    (hquote : b ≠ quote ∧ b ≠ asciiByte '\'') (hcomment : ¬ opensComment b (t ++ behind))
    (hnumber : opensNumber b (t ++ behind) = false)
    (hheader : headerLength ctx (b :: (t ++ behind)) = none)
    (hlength : punctuatorLength (b :: (t ++ behind)) = (b :: t).length) :
    lexeme ctx gs = (.punctuation, (b :: t).length) := by
  have htake : (b :: (t ++ behind)).takeWhile isIdent = [] :=
    List.takeWhile_cons_of_neg (by simp [hident])
  have hnone : literalLength [] gs = none := by
    obtain ⟨g, gs, rfl, rfl, -⟩ := exists_cons_of_bytes hbytes
    rw [literalLength, if_neg, if_neg]
    · rw [Bool.and_eq_true, Bool.or_eq_true, decide_eq_true_eq, decide_eq_true_eq]
      rintro ⟨h | h, -⟩
      · exact hquote.1 h
      · exact hquote.2 h
    · rw [Bool.and_eq_true, decide_eq_true_eq]
      exact fun h => hquote.1 h.1
  rw [lexeme_word hbytes hspace hcomment hheader hnumber, htake, List.length_nil, List.drop_zero,
    hnone]
  dsimp only
  rw [if_pos rfl, hlength]

end Lexeme

/-! ## Pieces that stay -/

/-- The bytes behind a piece would be read as a part of it, or change what it is. -/
def Piece.joins (p : Piece) (behind : Text) : Bool :=
  let next := fun test : Byte → Bool => (behind.head?.map test).getD false
  match p.kind with
  | .identifier =>
    next isIdent || (behind.head? = some (asciiByte '\'') && charStarts.contains p.text)
  | .number => numberLength (p.text.tail ++ behind) ≠ p.text.tail.length
  | .literal => next fun b => isIdent b && (!isDigit b || (p.text.getLast?.map isIdent).getD false)
  | .punctuation =>
    punctuatorLength (p.text ++ behind) ≠ p.text.length ||
      (p.text = [slash] && next fun b => b = slash || b = star) ||
      (p.text = [asciiByte '.'] && next isDigit)
  | _ => false

/-- The suffix of a literal, in front of another text. -/
theorem suffixLength_stable {after behind : Text}
    (h : ∀ c, behind.head? = some c → isIdent c = true →
      isDigit c = true ∧ after.take (suffixLength after) = []) :
    suffixLength (after.take (suffixLength after) ++ behind) =
      (after.take (suffixLength after)).length := by
  -- no suffix, so a letter behind must not make one
  by_cases hnil : after.take (suffixLength after) = []
  · rw [hnil, List.nil_append, List.length_nil]
    cases behind with
    | nil => rfl
    | cons c behind =>
      unfold suffixLength
      split
      · rfl
      · rename_i hdigit
        rw [List.takeWhile_cons_of_neg]
        · rfl
        · intro hident
          exact hdigit (h c rfl hident).1
  · have hsuffix : after.take (suffixLength after) = after.takeWhile isIdent ∧
        ¬ (after.head?.map isDigit).getD false = true := by
      unfold suffixLength at hnil ⊢
      split at hnil
      · exact absurd rfl hnil
      · rename_i hdigit
        rw [if_neg hdigit]
        exact ⟨take_takeWhile_length isIdent after, hdigit⟩
    obtain ⟨hword, hdigit⟩ := hsuffix
    rw [hword] at hnil ⊢
    -- a suffix, so no letter may go on with it
    have hnext : ∀ c, behind.head? = some c → isIdent c = false := by
      intro c hc
      by_contra hident
      rw [Bool.not_eq_false] at hident
      rw [hword] at h
      exact hnil (h c hc hident).2
    have htake : (after.takeWhile isIdent ++ behind).takeWhile isIdent = after.takeWhile isIdent :=
      takeWhile_eq (fun b hb => List.mem_takeWhile_imp hb) hnext
    have hhead : (after.takeWhile isIdent ++ behind).head? = after.head? := by
      cases after with
      | nil => exact absurd rfl hnil
      | cons b after =>
        by_cases hb : isIdent b = true
        · rw [List.takeWhile_cons_of_pos hb]
          rfl
        · rw [List.takeWhile_cons_of_neg hb] at hnil
          exact absurd rfl hnil
    unfold suffixLength
    rw [hhead, if_neg hdigit, htake]

/-! ### What `joins` keeps away -/

/-- The digit behind a point is in the number. -/
theorem opensNumber_take {b : Byte} {t : Text} (h : opensNumber b t = true) :
    opensNumber b (t.take (numberLength t)) = true := by
  rw [opensNumber, Bool.or_eq_true, Bool.and_eq_true] at h ⊢
  refine h.imp id fun hpoint => ⟨hpoint.1, ?_⟩
  cases t with
  | nil => exact absurd hpoint.2 (by simp)
  | cons c t =>
    have hident : isIdent c = true := by
      have hdigit : isDigit c = true := hpoint.2
      rw [isIdent, isWord, hdigit]
      rfl
    obtain ⟨j, hj⟩ := Nat.exists_eq_succ_of_ne_zero (numberLength_pos hident t).ne'
    rw [hj, List.take_succ_cons]
    exact hpoint.2

/-- The byte behind the first one of a piece is its own, or the first one behind it. -/
theorem head_take_append {t behind : Text} {j : Nat} {c : Byte}
    (h : (t.take j ++ behind).head? = some c) :
    t.head? = some c ∨ (t.take j = [] ∧ behind.head? = some c) := by
  rw [List.head?_append] at h
  cases hhead : (t.take j).head? with
  | none =>
    rw [hhead, Option.none_or] at h
    exact Or.inr ⟨List.head?_eq_none_iff.mp hhead, h⟩
  | some d =>
    rw [hhead, Option.some_or] at h
    rw [List.head?_take] at hhead
    split at hhead
    · exact absurd hhead (by simp)
    · exact Or.inl (hhead.trans h)

/-- A cut text opens no comment unless the slash stands alone in front of the cut. -/
theorem not_opensComment_append {b : Byte} {t behind : Text} {j : Nat} (h : ¬ opensComment b t)
    (hslash : ¬ (b :: t.take j = [slash] ∧ (behind.head? = some slash ∨ behind.head? = some star))) :
    ¬ opensComment b (t.take j ++ behind) := by
  rintro ⟨rfl, hhead⟩
  have hnot : ∀ c, c = slash ∨ c = star → (t.take j ++ behind).head? ≠ some c := by
    intro c hc hhead
    have hcases : ∀ u : Text, u.head? = some c → u.head? = some slash ∨ u.head? = some star := by
      intro u hu
      rcases hc with rfl | rfl
      · exact Or.inl hu
      · exact Or.inr hu
    rcases head_take_append hhead with hown | ⟨hnil, hnext⟩
    · exact h ⟨rfl, hcases t hown⟩
    · exact hslash ⟨by rw [hnil], hcases behind hnext⟩
  rcases hhead with hhead | hhead
  · exact hnot _ (Or.inl rfl) hhead
  · exact hnot _ (Or.inr rfl) hhead

/-- And no number unless the point does. -/
theorem opensNumber_append {b : Byte} {t behind : Text} {j : Nat} (h : opensNumber b t = false)
    (hpoint : ¬ (b :: t.take j = [asciiByte '.'] ∧ (behind.head?.map isDigit).getD false = true)) :
    opensNumber b (t.take j ++ behind) = false := by
  rw [opensNumber, Bool.or_eq_false_iff, Bool.and_eq_false_iff, decide_eq_false_iff_not] at h ⊢
  refine ⟨h.1, ?_⟩
  by_cases hb : b = asciiByte '.'
  · refine Or.inr ?_
    cases hhead : (t.take j ++ behind).head? with
    | none => rfl
    | some c =>
      rcases head_take_append hhead with hown | ⟨hnil, hnext⟩
      · rw [hown] at h
        exact h.2.resolve_left fun hne => hne hb
      · rw [hnil, hb, hnext] at hpoint
        exact Bool.eq_false_iff.mpr fun hdigit => hpoint ⟨rfl, hdigit⟩
  · exact Or.inl hb

/-- The test of the second comment byte, read off. -/
theorem slash_or_star_iff {behind : Text} :
    (behind.head?.map fun b => decide (b = slash) || decide (b = star)).getD false = true ↔
      behind.head? = some slash ∨ behind.head? = some star := by
  cases behind with
  | nil => simp
  | cons c behind => simp

/-- The end of a character literal, with its suffix. -/
theorem suffix_of_not_joins (front : Text) {behind after : Text}
    (h : ∀ c, behind.head? = some c → isIdent c = true → isDigit c = true ∧
      ((front ++ after.take (suffixLength after)).getLast?.map isIdent).getD false = false) :
    suffixLength (after.take (suffixLength after) ++ behind) =
      (after.take (suffixLength after)).length := by
  refine suffixLength_stable fun c hc hident => ⟨(h c hc hident).1, ?_⟩
  by_contra hne
  -- the last byte would be a letter of the suffix
  obtain ⟨d, hd⟩ := Option.isSome_iff_exists.mp (List.getLast?_isSome.mpr hne)
  have hlast := (h c hc hident).2
  rw [List.getLast?_append, hd] at hlast
  have hword : isIdent d = false := hlast
  rw [isIdent_of_mem_suffix (List.mem_of_getLast? hd)] at hword
  exact absurd hword (by simp)

/-- **A piece that does not join** with the text behind it is the first one there. -/
theorem lexeme_stable {ctx : Context} {gs : List Glyph} {p : Piece} {behind : Text}
    (hshape : Shape p.kind p.text) (hbytes : bytes gs = p.text ++ behind)
    (hjoins : p.joins behind = false)
    (hheader : (headerLength ctx (p.text ++ behind)).isSome = true ↔ p.kind = .header)
    (hquote : p.kind = .identifier → behind.head? = some quote →
      (charStarts ++ rawStarts).contains p.text = false) :
    lexeme ctx gs = (p.kind, p.text.length) := by
  rw [Piece.joins] at hjoins
  generalize p.kind = kind at hshape hjoins hheader hquote ⊢
  generalize p.text = text at hshape hbytes hjoins hheader hquote ⊢
  cases hshape with
  | space hspace =>
    obtain ⟨g, gs, rfl, rfl, -⟩ := exists_cons_of_bytes hbytes
    exact lexeme_space hspace
  | @header opening close inner hmem hinner =>
    -- a header name can only be read where one may stand
    have hctx : ctx = .header := by
      obtain ⟨m, hm⟩ := Option.isSome_iff_exists.mp (hheader.mpr rfl)
      obtain ⟨_, _, _, _, _, hctx, _⟩ := headerLength_eq_some hm
      exact hctx
    have hbytes' : bytes gs = opening :: (inner ++ close :: behind) := by
      rw [hbytes]
      simp
    rw [hctx, stable_header hbytes' hmem hinner]
    simp
  | @number b t hnumber =>
    dsimp only at hjoins
    rw [decide_eq_false_iff_not, not_not] at hjoins
    rw [stable_number hbytes (opensNumber_take hnumber) hjoins, List.length_cons, Nat.add_comm]
  | @literal start inner after hstart hend hlast =>
    dsimp only at hjoins
    have hsuffix : suffixLength (after.take (suffixLength after) ++ behind) =
        (after.take (suffixLength after)).length := by
      refine suffix_of_not_joins (start ++ asciiByte '\'' :: inner) fun c hc hident => ?_
      rw [hc, Option.map_some, Option.getD_some, hident, Bool.true_and, Bool.or_eq_false_iff,
        Bool.not_eq_false'] at hjoins
      rwa [List.append_assoc, List.cons_append]
    have hbytes' : bytes gs = start ++ asciiByte '\'' ::
        (inner ++ (after.take (suffixLength after) ++ behind)) := by
      rw [hbytes]
      simp
    rw [stable_literal hbytes' hstart (hend _) hsuffix]
    simp only [List.length_append, List.length_cons]
    congr 1
    omega
  | @punctuation b t j hspace hident hcomment hnumber hj hnot =>
    dsimp only at hjoins
    rw [Bool.or_eq_false_iff, Bool.or_eq_false_iff, decide_eq_false_iff_not, not_not] at hjoins
    obtain ⟨⟨hlength, hslash⟩, hpoint⟩ := hjoins
    refine stable_punctuation hbytes hspace hident (not_quote_of_notMem hj hnot)
      (not_opensComment_append hcomment ?_) (opensNumber_append hnumber ?_) ?_ hlength
    · rintro ⟨hone, hnext⟩
      rw [decide_eq_true hone, Bool.true_and, slash_or_star_iff.mpr hnext] at hslash
      exact absurd hslash (by simp)
    · rintro ⟨hone, hnext⟩
      rw [decide_eq_true hone, Bool.true_and, hnext] at hpoint
      exact absurd hpoint (by simp)
    · rw [← Option.not_isSome_iff_eq_none, ← List.cons_append, hheader]
      exact fun h => absurd h (by simp)
  | @identifier b t hident hdigit hword =>
    dsimp only at hjoins
    rw [Bool.or_eq_false_iff] at hjoins
    refine stable_identifier hbytes (List.cons_ne_nil b t) (fun c hc => ?_) (fun c hc => ?_)
      (fun c hc => ?_) ?_
    · rcases List.mem_cons.mp hc with rfl | hc
      · exact hident
      · exact hword c hc
    · rw [← Option.some.inj hc]
      exact hdigit
    · have h := hjoins.1
      rw [hc] at h
      exact h
    · -- a prefix needs a quote behind it: an apostrophe joins, a double quote is left to `hquote`
      rw [opensLiteral, hjoins.2, Bool.false_or, Bool.and_eq_false_iff, decide_eq_false_iff_not]
      by_cases hhead : behind.head? = some quote
      · exact Or.inr (hquote rfl hhead)
      · exact Or.inl hhead

end Swayam.Cpp
