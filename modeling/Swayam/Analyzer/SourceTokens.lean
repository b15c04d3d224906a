import Swayam.Analyzer.Tokens

/-!
# SWAYAM — the tokens of a source, with what they say

A token is what the compiler sees of a piece: its kind and its text, and of a
string literal only what stands around its contents. What is written between
the tokens, and into the string literals, is left out.

* `exists_rawParts` — a raw string literal, part by part: nothing is spliced in
  its delimiter, and the delimiter is what closes it.
-/

namespace Swayam.Cpp

/-! ## Literals -/

section Literals

variable (p : Piece)

/-- The encoding prefix of a literal. -/
def Piece.start : Text := p.text.takeWhile isIdent

/-- What follows it. -/
def Piece.body : Text := p.text.dropWhile isIdent

def Piece.isString : Bool := p.kind = .literal && p.body.head? = some quote

def Piece.isRaw : Bool := p.isString && p.start.getLast? = some (asciiByte 'R')

/-- What stands in front of the first parenthesis of a raw string literal, and behind the last. -/
def Piece.delimiter : Text := p.body.tail.takeWhile fun b => b ≠ asciiByte '('

def Piece.suffix : Text := (p.text.reverse.takeWhile fun b => b ≠ quote).reverse

/-- A raw string literal from its first quote up to its contents. -/
def Piece.opening : Text := quote :: p.delimiter ++ ascii "("

/-- A piece of a text that C++ allows: comments and raw string literals are closed, and no quote
and no backslash stands by itself. -/
def Piece.isAllowed : Bool :=
  match p.kind with
  | .comment => (ascii "//").isPrefixOf p.text || commentEnd (p.text.drop 2) = some (p.text.length - 2)
  | .literal => !p.isRaw ||
      (asciiByte ')' :: p.delimiter ++ quote :: p.suffix).isSuffixOf p.text
  | .punctuation => !List.contains [[quote], [asciiByte '\''], [escape]] p.text
  | _ => true

end Literals

/-- The text lexes as C++. -/
def Lexable (sourceCode : Text) : Prop := ∀ p ∈ lex sourceCode, p.isAllowed = true

instance : DecidablePred Lexable := fun sourceCode =>
  inferInstanceAs (Decidable (∀ p ∈ lex sourceCode, p.isAllowed = true))

/-! ## Tokens -/

inductive SourceToken where
  | token (kind : Kind) (text : Text)
  | string (start : Text) (delimiter : Option Text) (suffix : Text)
  deriving DecidableEq, Repr

/-- Comments are dropped, and the contents of string literals are blanked. -/
def Piece.sourceToken (p : Piece) : Option SourceToken :=
  match p.kind with
  | .space => none
  | .comment => none
  | kind =>
    if p.isString then
      some (.string p.start (if p.isRaw then some p.delimiter else none) p.suffix)
    else some (.token kind p.text)

def sourceTokens (sourceCode : Text) : List SourceToken :=
  (lex sourceCode).filterMap Piece.sourceToken

/-- No token, a string, or the piece itself. -/
theorem Piece.sourceToken_cases (p : Piece) :
    ((p.kind = .space ∨ p.kind = .comment) ∧ p.sourceToken = none) ∨
      (p.isString = true ∧ ∃ start delimiter suffix,
        p.sourceToken = some (.string start delimiter suffix)) ∨
      ((p.kind ≠ .space ∧ p.kind ≠ .comment) ∧ p.isString = false ∧
        p.sourceToken = some (.token p.kind p.text)) := by
  unfold Piece.sourceToken
  split
  · rename_i hkind
    exact Or.inl ⟨Or.inl hkind, rfl⟩
  · rename_i hkind
    exact Or.inl ⟨Or.inr hkind, rfl⟩
  · rename_i hspace hcomment
    refine Or.inr ?_
    split
    · rename_i hstring
      exact Or.inl ⟨hstring, _, _, _, rfl⟩
    · rename_i hstring
      exact Or.inr ⟨⟨hspace, hcomment⟩, Bool.eq_false_iff.mpr hstring, rfl⟩

/-- Splices are no part of a token. -/
theorem Piece.sourceToken_congr {p q : Piece} (hkind : p.kind = q.kind) (htext : p.text = q.text) :
    p.sourceToken = q.sourceToken ∧ p.isAllowed = q.isAllowed := by
  have hstart : p.start = q.start := by rw [Piece.start, htext, Piece.start]
  have hbody : p.body = q.body := by rw [Piece.body, htext, Piece.body]
  have hstring : p.isString = q.isString := by rw [Piece.isString, hkind, hbody, Piece.isString]
  have hraw : p.isRaw = q.isRaw := by rw [Piece.isRaw, hstring, hstart, Piece.isRaw]
  have hdelimiter : p.delimiter = q.delimiter := by rw [Piece.delimiter, hbody, Piece.delimiter]
  have hsuffix : p.suffix = q.suffix := by rw [Piece.suffix, htext, Piece.suffix]
  constructor
  · unfold Piece.sourceToken
    rw [hkind, hstring, hraw, hstart, hdelimiter, hsuffix, htext]
  · unfold Piece.isAllowed
    rw [hkind, hraw, hdelimiter, hsuffix, htext]

/-! ## Raw string literals -/

def rawStarts : List Text := [ascii "R", ascii "LR", ascii "uR", ascii "UR", ascii "u8R"]

/-- What a delimiter is made of. -/
def isDelimiter (g : Glyph) : Bool :=
  g.splice.isEmpty && !isSpace g.byte && decide (g.byte ∉ ascii "()\\")

def paren : Glyph := ⟨[], asciiByte '('⟩

/-- What closes a raw string literal. -/
def closing (delimiter : Text) : Text := asciiByte ')' :: delimiter ++ [quote]

/-- Where a maximal run ends. -/
theorem takeWhile_eq {p : Byte → Bool} {u v : Text} (hu : ∀ b ∈ u, p b = true)
    (hv : ∀ b, v.head? = some b → p b = false) : (u ++ v).takeWhile p = u := by
  rw [List.takeWhile_append_of_pos hu]
  cases v with
  | nil => simp
  | cons b v => rw [List.takeWhile_cons_of_neg (by simp [hv b rfl]), List.append_nil]

theorem isIdent_of_rawStart {start : Text} (h : start ∈ rawStarts) :
    ∀ b ∈ start, isIdent b = true := by
  have hall : ∀ start ∈ rawStarts, start.all isIdent = true := by decide
  exact List.all_eq_true.mp (hall start h)

/-- A raw string ends within its text. -/
theorem rawEnd_le (close : Text) (gs : List Glyph) : rawEnd close gs ≤ gs.length := by
  induction gs with
  | nil => exact Nat.le_refl 0
  | cons g gs ih =>
    rw [rawEnd]
    split
    · rename_i hclose
      rw [Bool.and_eq_true, List.isPrefixOf_iff_prefix] at hclose
      have hle := hclose.1.length_le
      rwa [bytes, List.length_map] at hle
    · rw [List.length_cons]
      omega

/-- A raw string literal behind its delimiter, from the parenthesis on. -/
def rawBehind (delim : List Glyph) : List Glyph → Option Nat
  | [] => none
  | g :: rest =>
    if g = paren ∧ delim.length ≤ 16 then
      some (delim.length + 1 + rawEnd (closing (bytes delim)) rest)
    else none

theorem rawLength_eq (gs : List Glyph) : rawLength gs =
    rawBehind (gs.takeWhile isDelimiter) (gs.drop (gs.takeWhile isDelimiter).length) := rfl

/-- The delimiter, the parenthesis, and what is closed. -/
theorem rawLength_eq_some_iff {gs : List Glyph} {m : Nat} : rawLength gs = some m ↔
    ∃ delim rest, gs = delim ++ paren :: rest ∧ (∀ g ∈ delim, isDelimiter g = true) ∧
      delim.length ≤ 16 ∧ m = delim.length + 1 + rawEnd (closing (bytes delim)) rest := by
  rw [rawLength_eq]
  constructor
  · intro h
    have hsplit := List.take_append_drop (gs.takeWhile isDelimiter).length gs
    rw [take_takeWhile_length] at hsplit
    cases hdrop : gs.drop (gs.takeWhile isDelimiter).length with
    | nil =>
      rw [hdrop] at h
      exact absurd h (by simp [rawBehind])
    | cons g rest =>
      rw [hdrop, rawBehind] at h
      obtain ⟨⟨rfl, hle⟩, hm⟩ := Option.ite_none_right_eq_some.mp h
      rw [hdrop] at hsplit
      exact ⟨_, rest, hsplit.symm, fun g hg => List.mem_takeWhile_imp hg, hle,
        (Option.some.inj hm).symm⟩
  · rintro ⟨delim, rest, rfl, hdelim, hle, rfl⟩
    have htake : (delim ++ paren :: rest).takeWhile isDelimiter = delim := by
      rw [List.takeWhile_append_of_pos hdelim, List.takeWhile_cons_of_neg (by decide),
        List.append_nil]
    rw [htake, List.drop_left, rawBehind, if_pos ⟨rfl, hle⟩]

/-- Behind an encoding prefix with `R` and a quote, a raw string literal is the first piece. -/
theorem lexeme_of_raw (ctx : Context) {start rest : List Glyph} {q : Glyph} {m : Nat}
    (hstart : bytes start ∈ rawStarts) (hq : q.byte = quote) (hm : rawLength rest = some m) :
    lexeme ctx (start ++ q :: rest) = (.literal, start.length + (1 + m) +
      suffixLength ((bytes (start ++ q :: rest)).drop (start.length + (1 + m)))) := by
  have hlength : (bytes start).length = start.length := List.length_map ..
  have hbytes : bytes (start ++ q :: rest) = bytes start ++ quote :: bytes rest := by
    simp [bytes, hq]
  have htake : (bytes (start ++ q :: rest)).takeWhile isIdent = bytes start := by
    rw [hbytes]
    exact takeWhile_eq (isIdent_of_rawStart hstart) fun b hb => Option.some.inj hb ▸ rfl
  -- none of the kinds that are looked for first
  obtain ⟨b, t, hb, hkinds⟩ : ∃ b t, bytes start = b :: t ∧ isWhite b = false ∧ b ≠ slash ∧
      isDigit b = false ∧ b ≠ asciiByte '.' ∧ b ≠ asciiByte '<' ∧ b ≠ quote := by
    simp only [rawStarts, List.mem_cons, List.not_mem_nil, or_false] at hstart
    rcases hstart with h | h | h | h | h <;> exact ⟨_, _, h, by decide⟩
  obtain ⟨hspace, hslash, hdigit, hpoint, hangle, hquote⟩ := hkinds
  have hcons : bytes (start ++ q :: rest) = b :: (t ++ quote :: bytes rest) := by rw [hbytes, hb]; rfl
  have hheader : headerLength ctx (b :: (t ++ quote :: bytes rest)) = none := by
    unfold headerLength
    dsimp only
    split
    · rename_i heq
      obtain ⟨rfl, -⟩ := List.cons.inj heq
      rw [if_neg hangle, if_neg hquote]
    · rfl
  have hliteral : literalLength (bytes start) (q :: rest) = some (1 + m) := by
    rw [literalLength, if_pos, hm]
    · rfl
    · rw [Bool.and_eq_true, decide_eq_true_eq, List.contains_iff_mem]
      exact ⟨hq, hstart⟩
  have hdrop : (start ++ q :: rest).drop (bytes start).length = q :: rest := by
    rw [hlength, List.drop_left]
  have hfirst : ((b :: (t ++ quote :: bytes rest)).take (bytes start).length) = bytes start := by
    rw [← hcons, hbytes, List.take_left]
  rw [hcons] at htake
  unfold lexeme
  rw [hcons]
  dsimp only
  rw [htake, hfirst, hdrop, hliteral, if_neg (by simp [hspace]), if_neg (fun h => hslash h.1),
    if_neg (fun h => hslash h.1), hheader, if_neg (by simp [hdigit, hpoint])]
  dsimp only
  rw [hlength]

/-- A literal is one behind its encoding prefix. -/
theorem lexeme_literal {ctx : Context} {gs : List Glyph} (h : (lexeme ctx gs).1 = .literal) :
    ∃ m, literalLength ((bytes gs).takeWhile isIdent)
        (gs.drop ((bytes gs).takeWhile isIdent).length) = some m ∧
      (lexeme ctx gs).2 = ((bytes gs).takeWhile isIdent).length + m +
        suffixLength ((bytes gs).drop (((bytes gs).takeWhile isIdent).length + m)) := by
  cases gs with
  | nil => exact absurd h (by simp [lexeme, bytes])
  | cons g gs =>
    have hbegins := begins_lexeme ctx g gs
    rw [h] at hbegins
    generalize (lexeme ctx (g :: gs)).2 = n at hbegins ⊢
    cases hbegins with
    | @literal m hliteral _ => exact ⟨m, hliteral, rfl⟩

/-- The glyphs of a raw string literal up to its contents, and those from there on. -/
structure RawParts (p : Piece) (start : List Glyph) (q : Glyph) (delim body : List Glyph) :
    Prop where
  glyphs    : p.glyphs = start ++ q :: (delim ++ paren :: body)
  start     : bytes start ∈ rawStarts
  quoted    : q.byte = quote
  delimiter : (∀ g ∈ delim, isDelimiter g = true) ∧ delim.length ≤ 16

/-- The start of a literal is the letters in front of its quote. -/
theorem Piece.start_eq {p : Piece} {start : Text} {q : Byte} {rest : Text}
    (h : p.text = start ++ q :: rest) (hstart : ∀ b ∈ start, isIdent b = true)
    (hq : isIdent q = false) : p.start = start ∧ p.body = q :: rest := by
  constructor
  · rw [Piece.start, h]
    exact takeWhile_eq hstart fun b hb => Option.some.inj hb ▸ hq
  · rw [Piece.body, h, List.dropWhile_append_of_pos hstart, List.dropWhile_cons_of_neg (by simp [hq])]

/-- The text of a raw string, part by part. -/
theorem RawParts.text {p : Piece} {start : List Glyph} {q : Glyph} {delim body : List Glyph}
    (h : RawParts p start q delim body) :
    p.text = bytes start ++ quote :: (bytes delim ++ asciiByte '(' :: bytes body) := by
  rw [Piece.text, h.glyphs]
  simp [bytes, h.quoted, paren]

/-- And its start and delimiter, read back. -/
theorem RawParts.delimiter_eq {p : Piece} {start : List Glyph} {q : Glyph} {delim body : List Glyph}
    (h : RawParts p start q delim body) : p.start = bytes start ∧ p.delimiter = bytes delim := by
  obtain ⟨hstart, hbody⟩ := Piece.start_eq h.text (isIdent_of_rawStart h.start) rfl
  refine ⟨hstart, ?_⟩
  rw [Piece.delimiter, hbody, List.tail_cons]
  refine takeWhile_eq (fun b hb => ?_) fun b hb => ?_
  · obtain ⟨g, hg, rfl⟩ := List.mem_map.mp hb
    have hdelim := h.delimiter.1 g hg
    rw [decide_eq_true_eq]
    intro hparen
    rw [isDelimiter, hparen, Bool.and_eq_true] at hdelim
    exact absurd hdelim.2 (by decide)
  · rw [← Option.some.inj hb]
    rfl

/-- Nothing is spliced in the delimiter. -/
theorem RawParts.delimiter_raw {p : Piece} {start : List Glyph} {q : Glyph} {delim body : List Glyph}
    (h : RawParts p start q delim body) : delim.flatMap Glyph.raw = bytes delim := by
  refine flatMap_raw_of_unspliced fun g hg => ?_
  have hdelim := h.delimiter.1 g hg
  rw [isDelimiter, Bool.and_eq_true, Bool.and_eq_true, List.isEmpty_iff] at hdelim
  exact hdelim.1.1

/-- **A raw string literal, part by part.** -/
theorem exists_rawParts {ctx : Context} {gs : List Glyph} {p : Piece}
    (hp : p = firstPiece ctx gs) (hraw : p.isRaw = true) :
    ∃ start q delim body rest, gs = p.glyphs ++ rest ∧ RawParts p start q delim body ∧
      rawEnd (closing (bytes delim)) (body ++ rest) ≤ body.length ∧
      ∀ g ∈ body.drop (rawEnd (closing (bytes delim)) (body ++ rest)), isIdent g.byte = true := by
  rw [Piece.isRaw, Piece.isString, Bool.and_eq_true, Bool.and_eq_true, decide_eq_true_eq,
    decide_eq_true_eq, decide_eq_true_eq] at hraw
  obtain ⟨⟨hkind, hquote⟩, hlast⟩ := hraw
  rw [firstPiece] at hp
  rw [hp] at hkind
  obtain ⟨m, hm, hn⟩ := lexeme_literal hkind
  -- the encoding prefix
  generalize hstart : (bytes gs).takeWhile isIdent = start at hm hn
  have hident : ∀ b ∈ start, isIdent b = true := by
    rw [← hstart]
    exact fun b hb => List.mem_takeWhile_imp hb
  obtain ⟨front, q, r, rfl, rfl⟩ : ∃ front q r, gs = front ++ q :: r ∧ bytes front = start := by
    cases hdrop : gs.drop start.length with
    | nil =>
      rw [hdrop] at hm
      exact absurd hm (by simp [literalLength])
    | cons q r =>
      refine ⟨gs.take start.length, q, r, by rw [← hdrop, List.take_append_drop], ?_⟩
      rw [bytes, List.map_take, ← bytes, ← hstart]
      exact take_takeWhile_length isIdent _
  have hlength : (bytes front).length = front.length := List.length_map ..
  rw [hlength, List.drop_left] at hm
  rw [hlength] at hn
  have hpos := (ends_literalLength hm).2
  -- the piece goes on behind it
  obtain ⟨t, ht⟩ : ∃ t, p.text = bytes front ++ q.byte :: t := by
    obtain ⟨j, hj⟩ : ∃ j, (lexeme ctx (front ++ q :: r)).2 = front.length + (j + 1) := by
      refine ⟨(lexeme ctx (front ++ q :: r)).2 - front.length - 1, ?_⟩
      omega
    refine ⟨bytes (r.take j), ?_⟩
    rw [hp, Piece.text, hj, List.take_length_add_append, List.take_succ_cons]
    simp [bytes]
  rw [literalLength] at hm
  split at hm
  · rename_i hcond
    rw [Bool.and_eq_true, decide_eq_true_eq, List.contains_iff_mem] at hcond
    obtain ⟨m', hm', rfl⟩ := Option.map_eq_some_iff.mp hm
    obtain ⟨delim, rest, rfl, hdelim, hle, rfl⟩ := rawLength_eq_some_iff.mp hm'
    generalize hend : rawEnd (closing (bytes delim)) rest = e at hn
    have hel : e ≤ rest.length := hend ▸ rawEnd_le _ _
    -- what is behind the closing quote
    have hbehind : (bytes (front ++ q :: (delim ++ paren :: rest))).drop
        (front.length + (1 + (delim.length + 1 + e))) = bytes (rest.drop e) := by
      rw [bytes, ← List.map_drop, List.drop_length_add_append, Nat.add_comm 1, List.drop_succ_cons,
        Nat.add_assoc, List.drop_length_add_append, Nat.add_comm 1, List.drop_succ_cons]
      rfl
    rw [hbehind] at hn
    generalize hsuffix : suffixLength (bytes (rest.drop e)) = sl at hn
    have hglyphs : p.glyphs = front ++ q :: (delim ++ paren :: rest.take (e + sl)) := by
      have hj : (lexeme ctx (front ++ q :: (delim ++ paren :: rest))).2 =
          front.length + ((delim.length + ((e + sl) + 1)) + 1) := by omega
      rw [hp]
      dsimp only
      rw [hj, List.take_length_add_append, List.take_succ_cons, List.take_length_add_append,
        List.take_succ_cons]
    have hwhole : rest.take (e + sl) ++ rest.drop (e + sl) = rest := List.take_append_drop ..
    refine ⟨front, q, delim, rest.take (e + sl), rest.drop (e + sl), ?_,
      ⟨hglyphs, hcond.2, hcond.1, hdelim, hle⟩, ?_, ?_⟩
    · rw [hglyphs]
      conv_lhs => rw [← hwhole]
      simp only [List.append_assoc, List.cons_append]
    · rw [hwhole, hend, List.length_take]
      omega
    · rw [hwhole, hend]
      intro g hg
      rw [List.drop_take, Nat.add_sub_cancel_left] at hg
      have hmem : g.byte ∈ (bytes (rest.drop e)).take sl := by
        rw [bytes, ← List.map_take]
        exact List.mem_map_of_mem hg
      rw [← hsuffix, suffixLength] at hmem
      split at hmem
      · exact absurd hmem (by simp)
      · rw [take_takeWhile_length] at hmem
        exact List.mem_takeWhile_imp hmem
  · -- the other prefixes have no `R`
    split at hm
    · rename_i hcond
      rw [Bool.and_eq_true, List.contains_iff_mem, Bool.or_eq_true, decide_eq_true_eq,
        decide_eq_true_eq] at hcond
      have hq : isIdent q.byte = false := by
        rcases hcond.1 with hq | hq <;> rw [hq] <;> rfl
      have hends : ∀ start ∈ [[], ascii "L", ascii "u", ascii "U", ascii "u8"],
          start.getLast? ≠ some (asciiByte 'R') := by decide
      rw [(Piece.start_eq ht hident hq).1] at hlast
      exact absurd hlast (hends _ hcond.2)
    · exact absurd hm (by simp)

end Swayam.Cpp
