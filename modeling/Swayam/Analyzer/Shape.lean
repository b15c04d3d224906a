import Swayam.Analyzer.Residue

/-!
# SWAYAM — what a piece looks like

The pieces that are neither comments nor string literals, kind by kind. The
lengths of the parts of a piece are bounded by its text, and where a literal or a
header name ends does not depend on what is behind it.

* `Begins.le` — a piece is a part of its text;
* `shape_of_firstPiece` — the kind and the text of a piece.
-/

namespace Swayam.Cpp

/-! ## Lengths -/

/-- A number ends within its text. -/
theorem numberLength_le (t : Text) : numberLength t ≤ t.length := by
  fun_induction numberLength t with
  | case1 => simp
  | case2 => simp
  | case3 => simp
  | case4 b c t h ih =>
    simp only [List.length_cons]
    omega
  | case5 b c t h h' ih =>
    simp only [List.length_cons]
    omega
  | case6 b c t h h' hb ih =>
    simp only [List.length_cons] at ih ⊢
    omega
  | case7 => simp

/-- So does a literal. -/
theorem literalEnd_le {close : Byte} {t : Text} {n : Nat} (h : literalEnd close t = some n) :
    n ≤ t.length := by
  fun_induction literalEnd close t generalizing n with
  | case1 => exact absurd h (by simp)
  | case2 =>
    obtain rfl := Option.some.inj h
    simp
  | case3 => exact absurd h (by simp)
  | case4 =>
    obtain rfl := Option.some.inj h
    simp
  | case5 => exact absurd h (by simp)
  | case6 c t hne hline ih =>
    obtain ⟨m, hm, rfl⟩ := Option.map_eq_some_iff.mp h
    have hle := ih hm
    simp only [List.length_cons]
    omega
  | case7 b c t hne hline hescape ih =>
    obtain ⟨m, hm, rfl⟩ := Option.map_eq_some_iff.mp h
    have hle := ih hm
    simp only [List.length_cons] at hle ⊢
    omega

/-- The closing byte ends a literal. -/
theorem literalEnd_close (close : Byte) (t : Text) : literalEnd close (close :: t) = some 1 := by
  cases t with
  | nil => rw [literalEnd, if_pos rfl]
  | cons c t => rw [literalEnd, if_pos rfl]

/-- A plain byte of a literal is skipped. -/
theorem literalEnd_cons {close b : Byte} (hne : b ≠ close) (hline : ¬ isLineEnd b = true)
    (hescape : b ≠ escape) (t : Text) :
    literalEnd close (b :: t) = (literalEnd close t).map (1 + ·) := by
  cases t with
  | nil => simp [literalEnd, hne]
  | cons c t => rw [literalEnd, if_neg hne, if_neg hline, if_neg hescape]

/-- Where a literal ends does not depend on what is behind it. -/
theorem literalEnd_take {close : Byte} {t : Text} {n : Nat} (h : literalEnd close t = some n)
    (behind : Text) : literalEnd close (t.take n ++ behind) = some n ∧
      (t.take n).getLast? = some close := by
  fun_induction literalEnd close t generalizing n with
  | case1 => exact absurd h (by simp)
  | case2 =>
    obtain rfl := Option.some.inj h
    exact ⟨literalEnd_close close behind, rfl⟩
  | case3 => exact absurd h (by simp)
  | case4 =>
    obtain rfl := Option.some.inj h
    exact ⟨literalEnd_close close behind, rfl⟩
  | case5 => exact absurd h (by simp)
  | case6 c t hne hline ih =>
    obtain ⟨m, hm, rfl⟩ := Option.map_eq_some_iff.mp h
    obtain ⟨hend, hlast⟩ := ih hm
    rw [Nat.add_comm, List.take_succ_cons, List.take_succ_cons, List.getLast?_cons,
      List.getLast?_cons, hlast]
    refine ⟨?_, rfl⟩
    rw [List.cons_append, List.cons_append, literalEnd, if_neg hne, if_neg hline, if_pos rfl, hend,
      Option.map_some, Nat.add_comm]
  | case7 b c t hne hline hescape ih =>
    obtain ⟨m, hm, rfl⟩ := Option.map_eq_some_iff.mp h
    obtain ⟨hend, hlast⟩ := ih hm
    rw [Nat.add_comm, List.take_succ_cons, List.getLast?_cons, hlast]
    refine ⟨?_, rfl⟩
    rw [List.cons_append, literalEnd_cons hne hline hescape, hend, Option.map_some, Nat.add_comm]

/-- A literal with its start ends within its text. -/
theorem literalLength_le {start : Text} {gs : List Glyph} {n : Nat}
    (h : literalLength start gs = some n) : n ≤ gs.length := by
  cases gs with
  | nil => exact absurd h (by simp [literalLength])
  | cons g rest =>
    rw [literalLength] at h
    rw [List.length_cons]
    split at h
    · obtain ⟨m, hm, rfl⟩ := Option.map_eq_some_iff.mp h
      obtain ⟨delim, rest', rfl, -, -, rfl⟩ := rawLength_eq_some_iff.mp hm
      have hle := rawEnd_le (closing (bytes delim)) rest'
      simp only [List.length_append, List.length_cons]
      omega
    · split at h
      · obtain ⟨m, hm, rfl⟩ := Option.map_eq_some_iff.mp h
        have hle := literalEnd_le hm
        rw [bytes, List.length_map] at hle
        omega
      · exact absurd h (by simp)

/-- So does a suffix. -/
theorem suffixLength_le (t : Text) : suffixLength t ≤ t.length := by
  rw [suffixLength]
  split
  · exact Nat.zero_le _
  · exact (List.takeWhile_sublist isIdent).length_le

/-- A punctuator is one byte, or one of the longer ones. -/
theorem punctuator_cases (b : Byte) (t : Text) :
    (b :: t).take (punctuatorLength (b :: t)) = [b] ∧ punctuatorLength (b :: t) = 1 ∨
      ∃ op ∈ longPunctuators, ascii op <+: b :: t ∧ punctuatorLength (b :: t) = (ascii op).length := by
  rw [punctuatorLength]
  split
  · exact Or.inl ⟨rfl, rfl⟩
  · cases hfind : longPunctuators.find? fun op => (ascii op).isPrefixOf (b :: t) with
    | none => exact Or.inl ⟨rfl, rfl⟩
    | some op =>
      have hpart := List.isPrefixOf_iff_prefix.mp
        (List.find?_some (p := fun op => (ascii op).isPrefixOf (b :: t)) hfind)
      exact Or.inr ⟨op, List.mem_of_find?_eq_some hfind, hpart, rfl⟩

/-- A header name up to and with its closing byte. -/
theorem headerLength_eq_some {ctx : Context} {t : Text} {n : Nat} (h : headerLength ctx t = some n) :
    ∃ opening close inner rest, (opening, close) ∈ [(asciiByte '<', asciiByte '>'), (quote, quote)] ∧
      ctx = .header ∧ t = opening :: (inner ++ close :: rest) ∧ n = inner.length + 2 ∧
      ∀ b ∈ inner, b ≠ close ∧ isLineEnd b = false := by
  have hclosed : ∀ {close : Byte} {rest : Text},
      (if (rest.drop (rest.takeWhile fun b => decide (b ≠ close) && !isLineEnd b).length).head? =
          some close then
        some ((rest.takeWhile fun b => decide (b ≠ close) && !isLineEnd b).length + 2) else none) =
          some n →
      ∃ inner rest', rest = inner ++ close :: rest' ∧ n = inner.length + 2 ∧
        ∀ b ∈ inner, b ≠ close ∧ isLineEnd b = false := by
    intro close rest h
    obtain ⟨hhead, hn⟩ := Option.ite_none_right_eq_some.mp h
    generalize hinner : rest.takeWhile (fun b => decide (b ≠ close) && !isLineEnd b) = inner
      at hhead hn
    have hsplit := List.take_append_drop inner.length rest
    rw [← hinner, take_takeWhile_length, hinner] at hsplit
    obtain ⟨rest', hrest'⟩ : ∃ rest', rest.drop inner.length = close :: rest' := by
      cases hdrop : rest.drop inner.length with
      | nil =>
        rw [hdrop] at hhead
        exact absurd hhead (by simp)
      | cons c rest' =>
        rw [hdrop] at hhead
        exact ⟨rest', by rw [Option.some.inj hhead]⟩
    rw [hrest'] at hsplit
    refine ⟨inner, rest', hsplit.symm, (Option.some.inj hn).symm, fun b hb => ?_⟩
    rw [← hinner] at hb
    have hmem := List.mem_takeWhile_imp hb
    rw [Bool.and_eq_true, decide_eq_true_eq, Bool.not_eq_true'] at hmem
    exact hmem
  unfold headerLength at h
  dsimp only at h
  split at h
  · rename_i b rest
    split at h
    · rename_i hb
      obtain ⟨inner, rest', rfl, hn, hinner⟩ := hclosed h
      exact ⟨_, _, inner, rest', List.mem_cons_self, rfl, by rw [hb], hn, hinner⟩
    · split at h
      · rename_i hb
        obtain ⟨inner, rest', rfl, hn, hinner⟩ := hclosed h
        exact ⟨_, _, inner, rest', List.mem_cons_of_mem _ List.mem_cons_self, rfl, by rw [hb], hn,
          hinner⟩
      · exact absurd h (by simp)
  · exact absurd h (by simp)

/-- Where it ends does not depend on what is behind it. -/
theorem headerLength_closed {opening close : Byte} {inner : Text}
    (hmem : (opening, close) ∈ [(asciiByte '<', asciiByte '>'), (quote, quote)])
    (hinner : ∀ b ∈ inner, b ≠ close ∧ isLineEnd b = false) (rest : Text) :
    headerLength .header (opening :: (inner ++ close :: rest)) = some (inner.length + 2) := by
  have htake : (inner ++ close :: rest).takeWhile (fun b => decide (b ≠ close) && !isLineEnd b) =
      inner := by
    refine takeWhile_eq (fun b hb => ?_) fun b hb => ?_
    · rw [Bool.and_eq_true, decide_eq_true_eq, Bool.not_eq_true']
      exact hinner b hb
    · rw [← Option.some.inj hb]
      simp
  have hdrop : ((inner ++ close :: rest).drop inner.length).head? = some close := by
    rw [List.drop_left]
    rfl
  have hne : quote ≠ asciiByte '<' := by decide
  simp only [List.mem_cons, Prod.mk.injEq, List.not_mem_nil, or_false] at hmem
  rcases hmem with ⟨rfl, rfl⟩ | ⟨rfl, rfl⟩
  · unfold headerLength
    dsimp only
    rw [if_pos rfl, htake, if_pos hdrop]
  · unfold headerLength
    dsimp only
    rw [if_neg hne, if_pos rfl, htake, if_pos hdrop]

/-- Outside a header context no byte opens a header name. -/
theorem headerLength_eq_none {ctx : Context} {b : Byte} {t : Text}
    (h : (b = asciiByte '<' ∨ b = quote) → ctx ≠ .header) : headerLength ctx (b :: t) = none := by
  cases hsome : headerLength ctx (b :: t) with
  | none => rfl
  | some n =>
    obtain ⟨opening, close, inner, rest, hmem, hctx, heq, -, -⟩ := headerLength_eq_some hsome
    obtain ⟨rfl, -⟩ := List.cons.inj heq
    simp only [List.mem_cons, Prod.mk.injEq, List.not_mem_nil, or_false] at hmem
    exact absurd hctx (h (hmem.imp And.left And.left))

/-- A letter or digit extends a number. -/
theorem numberLength_pos {c : Byte} (hc : isIdent c = true) (t : Text) :
    0 < numberLength (c :: t) := by
  cases t with
  | nil =>
    rw [numberLength, if_pos (by simp [hc])]
    exact Nat.one_pos
  | cons d t =>
    rw [numberLength]
    split
    · omega
    · split
      · omega
      · rw [if_pos (by simp [hc])]
        omega

/-- A suffix is made of letters and digits. -/
theorem isIdent_of_mem_suffix {after : Text} {c : Byte} (h : c ∈ after.take (suffixLength after)) :
    isIdent c = true := by
  unfold suffixLength at h
  split at h
  · exact absurd h (by simp)
  · rw [take_takeWhile_length] at h
    exact List.mem_takeWhile_imp h

/-- Punctuation is never empty. -/
theorem punctuatorLength_pos (b : Byte) (t : Text) : 0 < punctuatorLength (b :: t) := by
  rcases punctuator_cases b t with ⟨-, hone⟩ | ⟨op, hop, -, hlong⟩
  · omega
  · have hpos : ∀ op ∈ longPunctuators, 0 < (ascii op).length := by decide
    rw [hlong]
    exact hpos op hop

/-- No longer punctuator starts with a quote. -/
theorem punctuatorLength_quote (t : Text) : punctuatorLength (quote :: t) = 1 ∧
    punctuatorLength (asciiByte '\'' :: t) = 1 := ⟨rfl, rfl⟩

/-! ## How long a piece is -/

/-- A piece is a part of its text. -/
theorem Begins.le {ctx : Context} {gs : List Glyph} {b : Byte} {t : Text} {kind : Kind} {n : Nat}
    (h : Begins ctx gs b t kind n) (hbytes : bytes gs = b :: t) : n ≤ (b :: t).length := by
  cases h with
  | space _ => simp
  | lineComment _ _ => exact (List.takeWhile_sublist _).length_le
  | blockComment _ hstar =>
    -- open, it is the whole text; closed, it ends within it
    cases hend : commentEnd t.tail with
    | none => exact Nat.le_refl _
    | some k =>
      have hle := (commentEnd_append_of_eq_some hend []).2
      cases t with
      | nil => exact absurd hstar (by simp)
      | cons c t =>
        simp only [List.tail_cons] at hle
        simp only [Option.map_some, Option.getD_some, List.length_cons]
        omega
  | header hheader =>
    obtain ⟨opening, close, inner, rest, -, -, heq, rfl, -⟩ := headerLength_eq_some hheader
    rw [heq]
    simp only [List.length_cons, List.length_append]
    omega
  | number _ =>
    have hle := numberLength_le t
    rw [List.length_cons]
    omega
  | @literal m hliteral _ =>
    have hle := literalLength_le hliteral
    -- prefix, literal and suffix follow one another
    have hsuffix := suffixLength_le ((b :: t).drop (((b :: t).takeWhile isIdent).length + m))
    have hword := (List.takeWhile_sublist isIdent (l := b :: t)).length_le
    have hlength : gs.length = (b :: t).length := by rw [← hbytes, bytes, List.length_map]
    rw [List.length_drop] at hle hsuffix
    omega
  | punctuation _ _ _ _ _ =>
    rcases punctuator_cases b t with ⟨-, hone⟩ | ⟨op, -, hpart, hlong⟩
    · rw [hone, List.length_cons]
      omega
    · rw [hlong]
      exact hpart.length_le
  | identifier _ _ _ => exact (List.takeWhile_sublist isIdent).length_le

/-! ## What a piece looks like -/

/-- The encoding prefixes of character literals. -/
def charStarts : List Text := [ascii "L", ascii "u", ascii "U", ascii "u8"]

/-- A literal that is no string literal: an apostrophe, and what is closed by another. -/
theorem exists_charLiteral {gs : List Glyph} {t : Text} {n : Nat} {k : Piece} (hbytes : bytes gs = t)
    (hliteral : literalLength (t.takeWhile isIdent) (gs.drop (t.takeWhile isIdent).length) = some n)
    (htext : k.text = t.take ((t.takeWhile isIdent).length + n +
      suffixLength (t.drop ((t.takeWhile isIdent).length + n))))
    (hkind : k.kind = .literal) (hstring : k.isString = false) :
    ∃ start inner after : Text, start ∈ [] :: charStarts ∧
      k.text = start ++ asciiByte '\'' :: (inner ++ after.take (suffixLength after)) ∧
      (∀ behind, literalEnd (asciiByte '\'') (inner ++ behind) = some inner.length) ∧
      inner.getLast? = some (asciiByte '\'') := by
  have hpos := (ends_literalLength hliteral).2
  generalize hstart : t.takeWhile isIdent = start at hliteral htext
  have hident : ∀ b ∈ start, isIdent b = true := by
    rw [← hstart]
    exact fun b hb => List.mem_takeWhile_imp hb
  have hsplit := List.take_append_drop start.length t
  rw [← hstart, take_takeWhile_length, hstart] at hsplit
  obtain ⟨q, rest, hq⟩ : ∃ q rest, gs.drop start.length = q :: rest := by
    cases hdrop : gs.drop start.length with
    | nil =>
      rw [hdrop] at hliteral
      exact absurd hliteral (by simp [literalLength])
    | cons q rest => exact ⟨q, rest, rfl⟩
  have hrest : t.drop start.length = q.byte :: bytes rest := by
    rw [← hbytes, ← bytes_drop, hq]
    rfl
  rw [hrest] at hsplit
  rw [hq, literalLength] at hliteral
  -- a double quote behind the prefix would make it a string literal
  have hquote : isIdent q.byte = false → q.byte ≠ quote := by
    rintro hnot heq
    obtain ⟨j, hj⟩ : ∃ j, start.length + n + suffixLength (t.drop (start.length + n)) =
        start.length + (j + 1) := ⟨n + suffixLength (t.drop (start.length + n)) - 1, by omega⟩
    rw [hj, ← hsplit, List.take_length_add_append, List.take_succ_cons] at htext
    have hbody := (Piece.start_eq htext hident hnot).2
    rw [Piece.isString, hkind, hbody, heq] at hstring
    exact absurd hstring (by simp)
  split at hliteral
  · rename_i hcond
    rw [Bool.and_eq_true, decide_eq_true_eq] at hcond
    exact absurd hcond.1 (hquote (by rw [hcond.1]; rfl))
  · split at hliteral
    · rename_i hcond
      rw [Bool.and_eq_true, List.contains_iff_mem, Bool.or_eq_true, decide_eq_true_eq,
        decide_eq_true_eq] at hcond
      have hbyte : q.byte = asciiByte '\'' := by
        rcases hcond.1 with h | h
        · exact absurd h (hquote (by rw [h]; rfl))
        · exact h
      rw [hbyte] at hliteral hsplit
      obtain ⟨m, hm, rfl⟩ := Option.map_eq_some_iff.mp hliteral
      have hinner : ((bytes rest).take m).length = m := by
        rw [List.length_take]
        exact Nat.min_eq_left (literalEnd_le hm)
      refine ⟨start, (bytes rest).take m, (bytes rest).drop m, hcond.2, ?_, fun behind => ?_,
        (literalEnd_take hm []).2⟩
      · have hafter : t.drop (start.length + (1 + m)) = (bytes rest).drop m := by
          rw [← hsplit, List.drop_length_add_append, Nat.add_comm 1, List.drop_succ_cons]
        rw [htext, hafter, Nat.add_assoc, Nat.add_comm 1, Nat.add_right_comm]
        conv_lhs => rw [← hsplit]
        rw [List.take_length_add_append, List.take_succ_cons, List.take_add]
      · rw [(literalEnd_take hm behind).1, hinner]
    · exact absurd hliteral (by simp)

/-- The kind and the text of a piece that is neither a comment nor a string literal. -/
inductive Shape : Kind → Text → Prop
  | space {b : Byte} : isWhite b = true → Shape .space [b]
  | header {opening close : Byte} {inner : Text} :
      (opening, close) ∈ [(asciiByte '<', asciiByte '>'), (quote, quote)] →
      (∀ b ∈ inner, b ≠ close ∧ isLineEnd b = false) → Shape .header (opening :: (inner ++ [close]))
  | number {b : Byte} {t : Text} : opensNumber b t = true →
      Shape .number (b :: t.take (numberLength t))
  | literal {start inner after : Text} : start ∈ [] :: charStarts →
      (∀ behind, literalEnd (asciiByte '\'') (inner ++ behind) = some inner.length) →
      inner.getLast? = some (asciiByte '\'') →
      Shape .literal (start ++ asciiByte '\'' :: (inner ++ after.take (suffixLength after)))
  | punctuation {b : Byte} {t : Text} {j : Nat} : isWhite b = false → isIdent b = false →
      ¬ opensComment b t → opensNumber b t = false → punctuatorLength (b :: t) = j + 1 →
      b :: t.take j ∉ [[quote], [asciiByte '\''], [escape]] → Shape .punctuation (b :: t.take j)
  | identifier {b : Byte} {t : Text} : isIdent b = true → isDigit b = false →
      (∀ c ∈ t, isIdent c = true) → Shape .identifier (b :: t)

/-- The piece cut off a text has the shape of its kind. -/
theorem shape_of_firstPiece {ctx : Context} {gs : List Glyph} {p : Piece} (hne : gs ≠ [])
    (hfirst : p = firstPiece ctx gs) (hallowed : p.isAllowed = true) (hkept : p.isKept = true) :
    Shape p.kind p.text := by
  obtain ⟨b, t, n, hwhole, hbegins, htext⟩ := exists_begins hne hfirst
  rw [Piece.isKept, Bool.and_eq_true, Bool.not_eq_true', Bool.not_eq_true'] at hkept
  cases hk : p.kind with
  | space =>
    rw [hk] at hbegins
    cases hbegins with
    | space hspace =>
      rw [htext]
      exact .space hspace
  | comment =>
    -- comments are not kept
    rw [Piece.isComment, hk] at hkept
    exact absurd hkept.1 (by simp)
  | header =>
    rw [hk] at hbegins
    cases hbegins with
    | header h =>
      obtain ⟨opening, close, inner, rest, hmem, -, heq, rfl, hinner⟩ := headerLength_eq_some h
      rw [htext, heq, List.take_succ_cons, List.take_length_add_append]
      exact .header hmem hinner
  | number =>
    rw [hk] at hbegins
    cases hbegins with
    | number hnumber =>
      rw [htext, Nat.add_comm, List.take_succ_cons]
      exact .number hnumber
  | literal =>
    rw [hk] at hbegins
    cases hbegins with
    | literal hliteral _ =>
      obtain ⟨start, inner, after, hstart, hname, hend, hlast⟩ :=
        exists_charLiteral hwhole hliteral htext hk hkept.2
      rw [hname]
      exact .literal hstart hend hlast
  | punctuation =>
    rw [hk] at hbegins
    cases hbegins with
    | punctuation hspace hident hcomment hnumber _ =>
      obtain ⟨j, hj⟩ := Nat.exists_eq_succ_of_ne_zero (punctuatorLength_pos b t).ne'
      rw [hj, List.take_succ_cons] at htext
      rw [Piece.isAllowed, hk] at hallowed
      dsimp only at hallowed
      -- what is allowed excludes a stray quote or backslash
      rw [Bool.not_eq_true', ← Bool.not_eq_true, List.contains_iff_mem, htext] at hallowed
      rw [htext]
      exact .punctuation hspace hident hcomment hnumber hj hallowed
  | identifier =>
    rw [hk] at hbegins
    cases hbegins with
    | identifier hident hdigit _ =>
      rw [htext, take_takeWhile_length, List.takeWhile_cons_of_pos hident]
      exact .identifier hident hdigit fun c hc => List.mem_takeWhile_imp hc

/-- A quote does not stand by itself. -/
theorem not_quote_of_notMem {b : Byte} {t : Text} {j : Nat} (hj : punctuatorLength (b :: t) = j + 1)
    (h : b :: t.take j ∉ [[quote], [asciiByte '\''], [escape]]) : b ≠ quote ∧ b ≠ asciiByte '\'' := by
  constructor
  · rintro rfl
    rw [(punctuatorLength_quote t).1, Nat.right_eq_add] at hj
    rw [hj] at h
    exact h List.mem_cons_self
  · rintro rfl
    rw [(punctuatorLength_quote t).2, Nat.right_eq_add] at hj
    rw [hj] at h
    exact h (List.mem_cons_of_mem _ List.mem_cons_self)

end Swayam.Cpp
