import Mathlib.Data.List.TakeWhile
import Swayam.Analyzer.Stripping

/-!
# SWAYAM — C++ tokens

What the compiler of the runner (`c++ -std=c++23`, without modules) sees of a
source text: the first phases of translation, as far as they decide which names
and parentheses there are. A byte order mark at the start is dropped
(`behindMark`), line splices are taken out (`glyphs`), and the text is cut into
pieces from the front, the longest that fit (`pieces`): white space, comments,
identifiers, numbers, character and string literals with their prefixes and
suffixes, raw strings (in which a splice is none), header names, and punctuators.

What is taken as given:

* a NUL is white space, and a byte from 128 on and a dollar sign are letters;
* universal character names outside of literals are not read as letters: their
  backslash is a punctuator, which no text that lexes as C++ has (`Lexable`);
* directives are pieces like others: nothing is included, no macro is expanded,
  and no conditional group is skipped. A header name is one where a directive or
  the condition of one allows it (`Context`).

Main results:

* `begins_lexeme` — how the first piece of a text comes about, kind by kind;
* `flatMap_pieces` — the pieces are the text;
* `identifier_boundary` — no identifier starts in the middle of another piece.
-/

namespace Swayam.Cpp

/-- White space for the compiler, which takes a NUL for it. -/
def isWhite (b : Byte) : Bool := isSpace b || b = 0

/-! ## Line splices -/

/-- What is behind the line splice at the start of a text: a backslash, white space, and the end
of the line. -/
def afterSplice : Text → Option Text
  | [] => none
  | b :: t =>
    if b = escape then
      match t.dropWhile fun b => isWhite b && !isLineEnd b with
      | [] => none
      | c :: rest =>
        if isLineEnd c then
          -- the two bytes of one line end
          if c = asciiByte '\r' ∧ rest.head? = some newline then some rest.tail else some rest
        else none
    else none

/-- A byte of the text without splices, with the splices in front of it. -/
structure Glyph where
  splice : Text
  byte   : Byte
  deriving DecidableEq, Repr

def Glyph.raw (g : Glyph) : Text := g.splice ++ [g.byte]

/-- The text without splices: `splice` stands in front of it, and `skip` is what is left of the
last one. -/
def glyphs (splice : Text) : Nat → Text → List Glyph
  | _, [] => []
  | skip + 1, b :: t => glyphs (splice ++ [b]) skip t
  | 0, b :: t =>
    match afterSplice (b :: t) with
    | some rest => glyphs (splice ++ [b]) (t.length - rest.length) t
    | none => ⟨splice, b⟩ :: glyphs [] 0 t

def bytes (gs : List Glyph) : Text := gs.map Glyph.byte

/-! ## Pieces -/

inductive Kind where
  | space
  | comment
  | identifier
  | number
  | literal
  | header
  | punctuation
  deriving DecidableEq, Repr

structure Piece where
  kind   : Kind
  glyphs : List Glyph
  deriving DecidableEq, Repr

def Piece.text (p : Piece) : Text := bytes p.glyphs

/-- The letters and digits of an identifier, the dollar sign with them. -/
def isIdent (b : Byte) : Bool := isWord b || b = asciiByte '$' || 128 ≤ b.toNat

/-- The length of what follows the start of a number: digits and letters, points, signs behind
an exponent, and separators. -/
def numberLength : Text → Nat
  | [] => 0
  | [b] => if isIdent b || b = asciiByte '.' then 1 else 0
  | b :: c :: t =>
    if b ∈ ascii "eEpP" ∧ c ∈ ascii "+-" then 2 + numberLength t
    else if b = asciiByte '\'' && isWord c then 2 + numberLength t
    else if isIdent b || b = asciiByte '.' then 1 + numberLength (c :: t)
    else 0

/-- The length up to and with the closing quote, on the same line. -/
def literalEnd (close : Byte) : Text → Option Nat
  | [] => none
  | [b] => if b = close then some 1 else none
  | b :: c :: t =>
    if b = close then some 1
    else if isLineEnd b then none
    else if b = escape then (literalEnd close t).map (2 + ·)
    else (literalEnd close (c :: t)).map (1 + ·)

/-- The same for a raw string: up to and with `close`, in which there is no splice, or all of
the text. -/
def rawEnd (close : Text) : List Glyph → Nat
  | [] => 0
  | g :: gs =>
    if close.isPrefixOf (bytes (g :: gs)) && (gs.take (close.length - 1)).all (·.splice.isEmpty) then
      close.length
    else 1 + rawEnd close gs

/-- The length of a raw string behind its first quote, from its delimiter on. -/
def rawLength (gs : List Glyph) : Option Nat :=
  let delimiter := gs.takeWhile fun g => g.splice.isEmpty && !isSpace g.byte &&
    decide (g.byte ∉ ascii "()\\")
  match gs.drop delimiter.length with
  | [] => none
  | g :: rest =>
    -- a delimiter has sixteen bytes at most
    if g = ⟨[], asciiByte '('⟩ ∧ delimiter.length ≤ 16 then
      some (delimiter.length + 1 +
        rawEnd (asciiByte ')' :: bytes delimiter ++ [quote]) rest)
    else none

/-- The length of a literal behind its prefix. -/
def literalLength (start : Text) (gs : List Glyph) : Option Nat :=
  match gs with
  | [] => none
  | g :: rest =>
    if g.byte = quote &&
        [ascii "R", ascii "LR", ascii "uR", ascii "UR", ascii "u8R"].contains start then
      (rawLength rest).map (1 + ·)
    else if (g.byte = quote || g.byte = asciiByte '\'') &&
        [[], ascii "L", ascii "u", ascii "U", ascii "u8"].contains start then
      (literalEnd g.byte (bytes rest)).map (1 + ·)
    else none

/-- The length of the suffix of a literal. -/
def suffixLength (t : Text) : Nat :=
  if (t.head?.map isDigit).getD false then 0 else (t.takeWhile isIdent).length

/-- The punctuators of more than one byte, the longest first. -/
def longPunctuators : List String :=
  ["%:%:", "...", "->*", "<=>", "<<=", ">>=", "<:", ":>", "<%", "%>", "::", ".*", "->", "+=", "-=",
    "*=", "/=", "%=", "^=", "&=", "|=", "==", "!=", "<=", ">=", "&&", "||", "<<", ">>", "++", "--",
    "##", "%:"]

/-- The length of the punctuator at the start of a text. The first byte of `<::` is one by itself,
unless another colon or `>` follows. -/
def punctuatorLength (t : Text) : Nat :=
  if (ascii "<::").isPrefixOf t && !((t.drop 3).head?.map fun b => decide (b ∈ ascii ":>")).getD false
  then 1
  else ((longPunctuators.find? fun op => (ascii op).isPrefixOf t).map fun op =>
    (ascii op).length).getD 1

/-- Where in a line a text stands, as far as it decides whether a header name may follow. -/
inductive Context where
  | lineStart
  | directive
  | condition
  | hasInclude
  | header
  | inLine
  deriving DecidableEq, Repr

/-- The length of a header name. -/
def headerLength (ctx : Context) (t : Text) : Option Nat :=
  let closed := fun (close : Byte) (rest : Text) =>
    let n := (rest.takeWhile fun b => decide (b ≠ close) && !isLineEnd b).length
    if (rest.drop n).head? = some close then some (n + 2) else none
  match ctx, t with
  | .header, b :: rest =>
    if b = asciiByte '<' then closed (asciiByte '>') rest
    else if b = quote then closed quote rest
    else none
  | _, _ => none

/-- The first piece of a text: its kind and its length. -/
def lexeme (ctx : Context) (gs : List Glyph) : Kind × Nat :=
  match bytes gs with
  | [] => (.space, 0)
  | b :: t =>
    let start := ((b :: t).takeWhile isIdent).length
    if isWhite b then (.space, 1)
    else if b = slash ∧ t.head? = some slash then
      (.comment, ((b :: t).takeWhile fun b => !isLineEnd b).length)
    else if b = slash ∧ t.head? = some star then
      -- without its end it runs to the end of the text
      (.comment, ((commentEnd t.tail).map (2 + ·)).getD (b :: t).length)
    else match headerLength ctx (b :: t) with
      | some n => (.header, n)
      | none =>
        if isDigit b || (b = asciiByte '.' && (t.head?.map isDigit).getD false) then
          (.number, 1 + numberLength t)
        -- a prefix counts only with its quote
        else match literalLength ((b :: t).take start) (gs.drop start) with
          | some n => (.literal, start + n + suffixLength ((b :: t).drop (start + n)))
          | none =>
            if start = 0 then (.punctuation, punctuatorLength (b :: t)) else (.identifier, start)

/-- Where the text behind a piece stands. -/
def Context.next (ctx : Context) (p : Piece) : Context :=
  match p.kind with
  | .comment => ctx
  | .space => if p.text.any isLineEnd then .lineStart else ctx
  | _ =>
    match ctx with
    -- a directive is the first on its line
    | .lineStart => if p.text = ascii "#" ∨ p.text = ascii "%:" then .directive else .inLine
    | .directive =>
      if p.text = ascii "include" ∨ p.text = ascii "include_next" ∨ p.text = ascii "import" then
        .header
      -- in a condition the two operators name headers, too
      else if p.text = ascii "if" ∨ p.text = ascii "elif" then .condition
      else .inLine
    | .condition =>
      if p.text = ascii "__has_include" ∨ p.text = ascii "__has_include_next" then .hasInclude
      else .condition
    | .hasInclude => if p.text = ascii "(" then .header else .condition
    | .header => .condition
    | .inLine => .inLine

/-- The pieces of a text; `skip` is what is left of the last one. -/
def pieces : Context → Nat → List Glyph → List Piece
  | _, _, [] => []
  | ctx, skip + 1, _ :: gs => pieces ctx skip gs
  | ctx, 0, g :: gs =>
    let first := lexeme ctx (g :: gs)
    let piece := ⟨first.1, (g :: gs).take first.2⟩
    piece :: pieces (ctx.next piece) (first.2 - 1) gs

/-- The pieces of a text that is read as it stands. -/
def piecesOf (t : Text) : List Piece := pieces .lineStart 0 (glyphs [] 0 t)

/-- The byte order mark of UTF-8. -/
def mark : Text := [239, 187, 191]

/-- The compiler drops one at the start of a source. -/
def behindMark (sourceCode : Text) : Text :=
  if mark.isPrefixOf sourceCode then sourceCode.drop mark.length else sourceCode

def lex (sourceCode : Text) : List Piece := piecesOf (behindMark sourceCode)

/-! ## Tokens -/

/-- A token; what stands in a number, a literal and a header name is left out. -/
inductive Token where
  | identifier (name : Text)
  | punctuation (t : Text)
  | number
  | literal
  | header
  deriving DecidableEq, Repr

/-- White space and comments are none. -/
def Piece.token (p : Piece) : Option Token :=
  match p.kind with
  | .space => none
  | .comment => none
  | .identifier => some (.identifier p.text)
  | .punctuation => some (.punctuation p.text)
  | .number => some .number
  | .literal => some .literal
  | .header => some .header

def tokens (sourceCode : Text) : List Token := (lex sourceCode).filterMap Piece.token

/-! ## The mark -/

/-- The mark is dropped. -/
theorem behindMark_marked (t : Text) : behindMark (mark ++ t) = t := by
  rw [behindMark, if_pos (List.isPrefixOf_iff_prefix.mpr (List.prefix_append _ _)), List.drop_left]

/-- A text without it stays. -/
theorem behindMark_of_not {t : Text} (h : ¬ mark <+: t) : behindMark t = t := by
  rw [behindMark, if_neg (by rwa [List.isPrefixOf_iff_prefix])]

/-- A source is what is read, behind a mark or not. -/
theorem marked_or_not (sourceCode : Text) :
    sourceCode = mark ++ behindMark sourceCode ∨
      (¬ mark <+: sourceCode ∧ behindMark sourceCode = sourceCode) := by
  by_cases h : mark <+: sourceCode
  · obtain ⟨t, rfl⟩ := h
    rw [behindMark_marked]
    exact Or.inl rfl
  · exact Or.inr ⟨h, behindMark_of_not h⟩

/-- What is behind the mark is the end of the source. -/
theorem behindMark_suffix (sourceCode : Text) : behindMark sourceCode <:+ sourceCode := by
  rcases marked_or_not sourceCode with hmarked | ⟨-, hsame⟩
  · exact ⟨mark, hmarked.symm⟩
  · rw [hsame]

/-- Read with its mark, a text has three glyphs more. -/
theorem glyphs_marked (t : Text) :
    glyphs [] 0 (mark ++ t) = mark.map (fun b => ⟨[], b⟩) ++ glyphs [] 0 t := by
  have hnone : ∀ {b : Byte} {t : Text}, b ≠ escape → afterSplice (b :: t) = none :=
    fun hb => if_neg hb
  simp [mark, glyphs, hnone (b := 239) (by decide), hnone (b := 187) (by decide),
    hnone (b := 191) (by decide)]

/-! ## Glyphs -/

/-- A splice ends with the end of a line. -/
def EndsSplice (splice : Text) : Prop := ∀ b, splice.getLast? = some b → isLineEnd b = true

/-- A splice is not empty and ends as one. -/
theorem afterSplice_eq_some {t rest : Text} (h : afterSplice t = some rest) :
    ∃ splice, splice ≠ [] ∧ t = splice ++ rest ∧ EndsSplice splice := by
  cases t with
  | nil => exact absurd h (by simp [afterSplice])
  | cons b t =>
    rw [afterSplice] at h
    split at h
    · obtain ⟨blank, hsplit⟩ := List.dropWhile_suffix (l := t) fun b => isWhite b && !isLineEnd b
      split at h
      · exact absurd h (by simp)
      · rename_i c u hdrop
        rw [hdrop] at hsplit
        split at h
        · rename_i hc
          -- the end of the line, with a carriage return in front or without
          have hend : ∀ v : Text, EndsSplice (b :: (v ++ [c])) := by
            intro v d hd
            rw [← List.cons_append, List.getLast?_concat] at hd
            rw [← Option.some.inj hd]
            exact hc
          split at h
          · rename_i hcr
            cases u with
            | nil => exact absurd hcr.2 (by simp)
            | cons d u =>
              obtain rfl := Option.some.inj h
              obtain rfl := Option.some.inj hcr.2
              refine ⟨b :: (blank ++ [c, newline]), by simp, by rw [← hsplit]; simp, ?_⟩
              intro d hd
              rw [List.getLast?_cons, List.getLast?_append] at hd
              rw [← Option.some.inj hd]
              rfl
          · obtain rfl := Option.some.inj h
            exact ⟨b :: (blank ++ [c]), by simp, by rw [← hsplit]; simp, hend _⟩
        · exact absurd h (by simp)
    · exact absurd h (by simp)

/-- The bytes of a splice are put in front of the next glyph. -/
theorem glyphs_skip (splice : Text) (n : Nat) (t : Text) :
    glyphs splice n t = glyphs (splice ++ t.take n) 0 (t.drop n) := by
  induction t generalizing splice n with
  | nil => cases n <;> simp [glyphs]
  | cons b t ih =>
    cases n with
    | zero => simp
    | succ n => rw [glyphs, ih, List.take_succ_cons, List.drop_succ_cons, List.append_assoc]; rfl

/-- **The glyphs are the text**, but for a splice at its end. -/
theorem flatMap_glyphs (splice : Text) (h : EndsSplice splice) (t : Text) :
    (∃ trailing, splice ++ t = (glyphs splice 0 t).flatMap Glyph.raw ++ trailing) ∧
      ∀ g ∈ glyphs splice 0 t, EndsSplice g.splice := by
  match t with
  | [] => exact ⟨⟨splice, by simp [glyphs]⟩, by simp [glyphs]⟩
  | b :: t =>
    rw [glyphs]
    split
    · rename_i rest hsplice
      obtain ⟨w, hne, hw, hends⟩ := afterSplice_eq_some hsplice
      obtain ⟨c, w, rfl⟩ := List.exists_cons_of_ne_nil hne
      obtain ⟨rfl, ht⟩ := List.cons.inj hw
      have hlength : t.length = w.length + rest.length := by rw [ht]; exact List.length_append
      -- the splice is skipped and goes in front of the next glyph
      have hskip : t.length - rest.length = w.length := by omega
      have htake : t.take w.length = w ∧ t.drop w.length = rest := by
        rw [ht]
        exact ⟨List.take_left, List.drop_left⟩
      rw [hskip, glyphs_skip, htake.1, htake.2]
      have hends' : EndsSplice (splice ++ [b] ++ w) := by
        intro d hd
        rw [List.append_assoc, List.singleton_append, List.getLast?_append] at hd
        cases hlast : (b :: w).getLast? with
        | none => exact absurd hlast (by simp)
        | some e =>
          rw [hlast] at hd
          rw [← Option.some.inj hd]
          exact hends e hlast
      obtain ⟨⟨trailing, htrailing⟩, hall⟩ := flatMap_glyphs (splice ++ [b] ++ w) hends' rest
      refine ⟨⟨trailing, ?_⟩, hall⟩
      rw [← htrailing, List.append_assoc, List.append_assoc, hw, List.singleton_append]
      rfl
    · obtain ⟨⟨trailing, htrailing⟩, hall⟩ :=
        flatMap_glyphs [] (fun _ h => absurd h (by simp)) t
      refine ⟨⟨trailing, ?_⟩, fun g hg => ?_⟩
      · rw [List.flatMap_cons, List.append_assoc, ← htrailing]
        simp [Glyph.raw]
      · rcases List.mem_cons.mp hg with rfl | hg
        · exact h
        · exact hall g hg
termination_by t.length
decreasing_by
  all_goals simp_wf
  all_goals omega

/-- Without splices the text is its bytes. -/
theorem flatMap_raw_of_unspliced {gs : List Glyph} (h : ∀ g ∈ gs, g.splice = []) :
    gs.flatMap Glyph.raw = bytes gs := by
  induction gs with
  | nil => rfl
  | cons g gs ih =>
    rw [List.flatMap_cons, ih fun g' hg' => h g' (List.mem_cons_of_mem g hg'), Glyph.raw,
      h g List.mem_cons_self]
    rfl

/-! ## The first piece -/

/-- Bytes behind dropped glyphs. -/
theorem bytes_drop (gs : List Glyph) (n : Nat) : bytes (gs.drop n) = (bytes gs).drop n :=
  List.map_drop

/-- No identifier goes on behind a piece of this length. -/
def Closed (t : Text) (n : Nat) : Prop :=
  ∀ b c, (t.take n).getLast? = some b → (t.drop n).head? = some c →
    isIdent b = true → isIdent c = false

/-- A piece is closed by its last byte, -/
theorem closed_of_last {t : Text} {n : Nat}
    (h : ∀ b, (t.take n).getLast? = some b → isIdent b = false) : Closed t n := by
  intro b c hb _ hident
  rw [h b hb] at hident
  exact absurd hident (by simp)

/-- or by the one behind it. -/
theorem closed_of_next {t : Text} {n : Nat}
    (h : ∀ c, (t.drop n).head? = some c → isIdent c = false) : Closed t n :=
  fun _ c _ hc _ => h c hc

theorem take_takeWhile_length {α : Type} (p : α → Bool) (t : List α) :
    t.take (t.takeWhile p).length = t.takeWhile p :=
  (List.prefix_iff_eq_take.mp (List.takeWhile_prefix p)).symm

/-- What a scan takes in goes up to the first byte that it does not. -/
theorem head_drop_takeWhile {p : Byte → Bool} {t : Text} {c : Byte}
    (h : (t.drop (t.takeWhile p).length).head? = some c) : p c = false := by
  have hdrop : t.drop (t.takeWhile p).length = t.dropWhile p := by
    have hleft : (t.takeWhile p ++ t.dropWhile p).drop (t.takeWhile p).length = t.dropWhile p :=
      List.drop_left
    rwa [List.takeWhile_append_dropWhile] at hleft
  rw [hdrop] at h
  have hnot := List.head?_dropWhile_not p t
  rw [h] at hnot
  exact hnot

/-- A piece of this length ends with its own last byte, or with the text. -/
def Ends (t : Text) (n : Nat) : Prop :=
  (∃ b, (t.take n).getLast? = some b ∧ isIdent b = false) ∨ t.drop n = []

/-- What ends is closed. -/
theorem Ends.closed {t : Text} {n : Nat} (h : Ends t n) : Closed t n := by
  rcases h with ⟨b, hb, hident⟩ | hdrop
  · refine closed_of_last fun c hc => ?_
    rw [hb] at hc
    rw [← Option.some.inj hc]
    exact hident
  · refine closed_of_next fun c hc => ?_
    rw [hdrop] at hc
    exact absurd hc (by simp)

/-- A start in front of it. -/
theorem Ends.add {t : Text} {n : Nat} (k : Nat) (h : Ends (t.drop k) n) : Ends t (k + n) := by
  rcases h with ⟨b, hb, hident⟩ | hdrop
  · refine Or.inl ⟨b, ?_, hident⟩
    rw [List.take_add, List.getLast?_append, hb]
    rfl
  · refine Or.inr ?_
    rw [← List.drop_drop]
    exact hdrop

/-- And stays so with a byte in front. -/
theorem Ends.cons {b : Byte} {t : Text} {n : Nat} (h : Ends t n) : Ends (b :: t) (1 + n) :=
  Ends.add (t := b :: t) 1 h

/-- A literal ends. -/
theorem ends_literalEnd {close : Byte} (hclose : isIdent close = false) {t : Text} {n : Nat}
    (h : literalEnd close t = some n) : Ends t n := by
  fun_induction literalEnd close t generalizing n with
  | case1 => exact absurd h (by simp)
  | case2 =>
    obtain rfl := Option.some.inj h
    exact Or.inl ⟨close, rfl, hclose⟩
  | case3 => exact absurd h (by simp)
  | case4 c t =>
    obtain rfl := Option.some.inj h
    exact Or.inl ⟨close, rfl, hclose⟩
  | case5 => exact absurd h (by simp)
  | case6 c t hne hline ih =>
    obtain ⟨m, hm, rfl⟩ := Option.map_eq_some_iff.mp h
    exact Ends.add (t := escape :: c :: t) 2 (ih hm)
  | case7 b c t hne hline hescape ih =>
    obtain ⟨m, hm, rfl⟩ := Option.map_eq_some_iff.mp h
    exact (ih hm).cons

/-- So does a raw string, closed or not. -/
theorem ends_rawEnd (close : Text) (gs : List Glyph) :
    Ends (bytes gs) (rawEnd (close ++ [quote]) gs) := by
  induction gs with
  | nil => exact Or.inr rfl
  | cons g gs ih =>
    rw [rawEnd]
    split
    · rename_i hclose
      rw [Bool.and_eq_true, List.isPrefixOf_iff_prefix] at hclose
      obtain ⟨rest, hrest⟩ := hclose.1
      refine Or.inl ⟨quote, ?_, rfl⟩
      rw [← hrest, List.take_left, List.getLast?_concat]
    · exact ih.cons

/-- So does one with its delimiter. -/
theorem ends_rawLength {gs : List Glyph} {n : Nat} (h : rawLength gs = some n) :
    Ends (bytes gs) n := by
  rw [rawLength] at h
  split at h
  · exact absurd h (by simp)
  · rename_i g rest hdrop
    split at h
    · obtain rfl := Option.some.inj h
      have hbytes : ∀ k, gs.drop k = g :: rest → (bytes gs).drop k = g.byte :: bytes rest := by
        intro k hk
        rw [bytes, ← List.map_drop, hk]
        rfl
      rw [Nat.add_assoc]
      refine Ends.add _ ?_
      rw [hbytes _ hdrop]
      exact (ends_rawEnd _ rest).cons
    · exact absurd h (by simp)

/-- So does every literal with its start, -/
theorem ends_literalLength {start : Text} {gs : List Glyph} {n : Nat}
    (h : literalLength start gs = some n) : Ends (bytes gs) n ∧ 0 < n := by
  cases gs with
  | nil => exact absurd h (by simp [literalLength])
  | cons g rest =>
    rw [literalLength] at h
    split at h
    · obtain ⟨m, hm, rfl⟩ := Option.map_eq_some_iff.mp h
      exact ⟨Ends.add (t := bytes (g :: rest)) 1 (ends_rawLength hm), by omega⟩
    · split at h
      · rename_i hquote
        obtain ⟨m, hm, rfl⟩ := Option.map_eq_some_iff.mp h
        have hident : isIdent g.byte = false := by
          rw [Bool.and_eq_true, Bool.or_eq_true, decide_eq_true_eq, decide_eq_true_eq] at hquote
          rcases hquote.1 with hq | hq <;> rw [hq] <;> rfl
        exact ⟨(ends_literalEnd hident hm).cons, by omega⟩
      · exact absurd h (by simp)

/-- The suffix of a literal takes in what would go on behind it. -/
theorem closed_suffixLength {t : Text} {n : Nat} (h : Ends t n) :
    Closed t (n + suffixLength (t.drop n)) := by
  unfold suffixLength
  split
  · exact h.closed
  · refine closed_of_next fun c hc => ?_
    rw [← List.drop_drop] at hc
    exact head_drop_takeWhile hc

/-- every header name, -/
theorem ends_headerLength {ctx : Context} {t : Text} {n : Nat} (h : headerLength ctx t = some n) :
    Ends t n ∧ 0 < n := by
  have hclosed : ∀ (b close : Byte) (rest : Text) (m : Nat), isIdent close = false →
      (rest.drop m).head? = some close → Ends (b :: rest) (m + 2) := by
    intro b close rest m hident hhead
    have hdrop : Ends (rest.drop m) 1 := by
      cases hrest : rest.drop m with
      | nil =>
        rw [hrest] at hhead
        exact absurd hhead (by simp)
      | cons c u =>
        rw [hrest] at hhead
        obtain rfl := Option.some.inj hhead
        exact Or.inl ⟨c, rfl, hident⟩
    have hends := (hdrop.add m).cons (b := b)
    rwa [Nat.add_comm 1] at hends
  unfold headerLength at h
  dsimp only at h
  split at h
  · split at h
    · obtain ⟨hhead, hn⟩ := Option.ite_none_right_eq_some.mp h
      rw [← Option.some.inj hn]
      exact ⟨hclosed _ _ _ _ rfl hhead, by omega⟩
    · split at h
      · obtain ⟨hhead, hn⟩ := Option.ite_none_right_eq_some.mp h
        rw [← Option.some.inj hn]
        exact ⟨hclosed _ _ _ _ rfl hhead, by omega⟩
      · exact absurd h (by simp)
  · exact absurd h (by simp)

/-- and every block comment. -/
theorem ends_commentEnd {t : Text} {k : Nat} (h : commentEnd t = some k) : Ends t k := by
  induction t generalizing k with
  | nil => exact absurd h (by simp [commentEnd])
  | cons b t ih =>
    rw [commentEnd] at h
    split at h
    · rename_i hend
      obtain rfl := Option.some.inj h
      cases t with
      | nil => exact absurd hend.2 (by simp)
      | cons c t =>
        obtain rfl := Option.some.inj hend.2
        exact Or.inl ⟨_, rfl, rfl⟩
    · obtain ⟨j, hj, rfl⟩ := Option.map_eq_some_iff.mp h
      rw [Nat.add_comm]
      exact (ih hj).cons

/-- Behind a number no identifier starts. -/
theorem closed_numberLength (t : Text) (c : Byte)
    (h : (t.drop (numberLength t)).head? = some c) : isIdent c = false := by
  fun_induction numberLength t with
  | case1 => exact absurd h (by simp)
  | case2 => exact absurd h (by simp)
  | case3 b hb =>
    obtain rfl := Option.some.inj h
    simp only [Bool.or_eq_true, not_or, Bool.not_eq_true] at hb
    exact hb.1
  | case4 b d t hexponent ih => exact ih (by rwa [Nat.add_comm] at h)
  | case5 b d t hexponent hseparator ih => exact ih (by rwa [Nat.add_comm] at h)
  | case6 b d t hexponent hseparator hident ih => exact ih (by rwa [Nat.add_comm] at h)
  | case7 b d t hexponent hseparator hb =>
    obtain rfl := Option.some.inj h
    simp only [Bool.or_eq_true, not_or, Bool.not_eq_true] at hb
    exact hb.1

/-- A punctuator holds no letters. -/
theorem ends_punctuatorLength {b : Byte} {t : Text} (hb : isIdent b = false) :
    Ends (b :: t) (punctuatorLength (b :: t)) ∧ 0 < punctuatorLength (b :: t) := by
  have hone : Ends (b :: t) 1 := Or.inl ⟨b, rfl, hb⟩
  rw [punctuatorLength]
  split
  · exact ⟨hone, Nat.one_pos⟩
  · cases hfind : longPunctuators.find? fun op => (ascii op).isPrefixOf (b :: t) with
    | none => exact ⟨hone, Nat.one_pos⟩
    | some op =>
      have hop : ∀ op ∈ longPunctuators, 0 < (ascii op).length ∧
          ((ascii op).getLast?.map isIdent) = some false := by decide
      obtain ⟨hpos, hlast⟩ := hop op (List.mem_of_find?_eq_some hfind)
      obtain ⟨rest, hrest⟩ := List.isPrefixOf_iff_prefix.mp
        (List.find?_some (p := fun op => (ascii op).isPrefixOf (b :: t)) hfind)
      obtain ⟨c, hc, hident⟩ := Option.map_eq_some_iff.mp hlast
      refine ⟨Or.inl ⟨c, ?_, hident⟩, hpos⟩
      rw [← hrest, Option.map_some, Option.getD_some, List.take_left]
      exact hc

/-- White space is no part of a word. -/
theorem isIdent_of_isWhite {b : Byte} (h : isWhite b = true) : isIdent b = false := by
  have hdollar : asciiByte '$' = 36 := by decide
  simp only [isWhite, isSpace, isIdent, isWord, isDigit, hdollar, Bool.or_eq_true, Bool.and_eq_true,
    decide_eq_true_eq, Bool.or_eq_false_iff, Bool.and_eq_false_iff, decide_eq_false_iff_not,
    ← UInt8.toNat_inj, UInt8.reduceToNat] at h ⊢
  omega

/-! ## How a piece comes about -/

/-- The first byte of a text starts a comment. -/
def opensComment (b : Byte) (t : Text) : Prop :=
  b = slash ∧ (t.head? = some slash ∨ t.head? = some star)

/-- The first byte of a text starts a number. -/
def opensNumber (b : Byte) (t : Text) : Bool :=
  isDigit b || (b = asciiByte '.' && (t.head?.map isDigit).getD false)

/-- How the first piece of a text comes about: `b` is its first byte, and `t` what follows. -/
inductive Begins (ctx : Context) (gs : List Glyph) (b : Byte) (t : Text) : Kind → Nat → Prop
  | space : isWhite b = true → Begins ctx gs b t .space 1
  | lineComment : b = slash → t.head? = some slash →
      Begins ctx gs b t .comment ((b :: t).takeWhile fun b => !isLineEnd b).length
  | blockComment : b = slash → t.head? = some star →
      Begins ctx gs b t .comment (((commentEnd t.tail).map (2 + ·)).getD (b :: t).length)
  | header {n : Nat} : headerLength ctx (b :: t) = some n → Begins ctx gs b t .header n
  | number : opensNumber b t = true → Begins ctx gs b t .number (1 + numberLength t)
  | literal {n : Nat} : literalLength ((b :: t).takeWhile isIdent)
        (gs.drop ((b :: t).takeWhile isIdent).length) = some n →
      isDigit b = false → Begins ctx gs b t .literal (((b :: t).takeWhile isIdent).length + n +
        suffixLength ((b :: t).drop (((b :: t).takeWhile isIdent).length + n)))
  | punctuation : isWhite b = false → isIdent b = false → ¬ opensComment b t →
      opensNumber b t = false → literalLength [] gs = none →
      Begins ctx gs b t .punctuation (punctuatorLength (b :: t))
  | identifier : isIdent b = true → isDigit b = false →
      literalLength ((b :: t).takeWhile isIdent) (gs.drop ((b :: t).takeWhile isIdent).length) = none →
      Begins ctx gs b t .identifier ((b :: t).takeWhile isIdent).length

/-- Every first piece begins as its kind says. -/
theorem begins_lexeme (ctx : Context) (g : Glyph) (gs : List Glyph) :
    Begins ctx (g :: gs) g.byte (bytes gs) (lexeme ctx (g :: gs)).1 (lexeme ctx (g :: gs)).2 := by
  have hbytes : bytes (g :: gs) = g.byte :: bytes gs := rfl
  -- the lexer's tests in its order
  unfold lexeme
  rw [hbytes]
  dsimp only
  rw [take_takeWhile_length]
  split
  · rename_i hspace
    exact .space hspace
  · rename_i hspace
    rw [Bool.not_eq_true] at hspace
    split
    · rename_i hline
      exact .lineComment hline.1 hline.2
    · rename_i hline
      split
      · rename_i hblock
        exact .blockComment hblock.1 hblock.2
      · rename_i hblock
        split
        · rename_i n hheader
          exact .header hheader
        · split
          · rename_i hnumber
            exact .number hnumber
          · rename_i hnumber
            rw [Bool.not_eq_true] at hnumber
            have hdigit : isDigit g.byte = false := (Bool.or_eq_false_iff.mp hnumber).1
            split
            · rename_i n hliteral
              exact .literal hliteral hdigit
            · rename_i hliteral
              split
              · -- no letter in front: punctuation
                rename_i hstart
                rw [List.eq_nil_of_length_eq_zero hstart] at hliteral
                have hident : isIdent g.byte = false := by
                  by_contra hident
                  rw [Bool.not_eq_false] at hident
                  rw [List.takeWhile_cons_of_pos hident] at hstart
                  exact absurd hstart (by simp)
                refine .punctuation hspace hident ?_ hnumber hliteral
                rintro ⟨hb, hhead | hhead⟩
                · exact hline ⟨hb, hhead⟩
                · exact hblock ⟨hb, hhead⟩
              · rename_i hstart
                refine .identifier ?_ hdigit hliteral
                by_contra hident
                rw [List.takeWhile_cons_of_neg hident] at hstart
                exact hstart rfl

/-- **How a piece begins** says that it is not empty, that no identifier goes on behind it, and, when
it is an identifier or white space, what it starts with. The cases are the kinds. -/
theorem Begins.spec {ctx : Context} {gs : List Glyph} {b : Byte} {t : Text} {kind : Kind} {n : Nat}
    (h : Begins ctx gs b t kind n) (hbytes : bytes gs = b :: t) :
    Closed (b :: t) n ∧ 0 < n ∧ (kind = .identifier → isIdent b = true) ∧
      (kind = .space → n = 1 ∧ isWhite b = true) := by
  -- the kinds that are neither identifiers nor white space
  have hother : ∀ {kind : Kind} {n : Nat}, Closed (b :: t) n → 0 < n →
      kind ≠ .identifier → kind ≠ .space → Closed (b :: t) n ∧ 0 < n ∧
        (kind = .identifier → isIdent b = true) ∧ (kind = .space → n = 1 ∧ isWhite b = true) :=
    fun hclosed hpos hident hspace =>
      ⟨hclosed, hpos, fun h => absurd h hident, fun h => absurd h hspace⟩
  cases h with
  | space hspace =>
    exact ⟨Ends.closed (Or.inl ⟨b, rfl, isIdent_of_isWhite hspace⟩), Nat.one_pos,
      fun h => absurd h (by simp), fun _ => ⟨rfl, hspace⟩⟩
  | lineComment hslash _ =>
    have hstart : (!isLineEnd b) = true := by rw [hslash]; rfl
    refine hother (closed_of_next fun c hc => ?_) ?_ (by simp) (by simp)
    · have hend := head_drop_takeWhile hc
      refine isIdent_of_isWhite ?_
      rw [Bool.not_eq_false', isLineEnd, Bool.or_eq_true, decide_eq_true_eq, decide_eq_true_eq] at hend
      rcases hend with rfl | rfl <;> rfl
    · rw [List.takeWhile_cons_of_pos (p := fun b => !isLineEnd b) hstart]
      exact Nat.succ_pos _
  | blockComment _ hstar =>
    -- up to its end, or all there is
    refine hother (Ends.closed ?_) ?_ (by simp) (by simp)
    · cases hend : commentEnd t.tail with
      | none => exact Or.inr (List.drop_length ..)
      | some k =>
        cases t with
        | nil => exact absurd hstar (by simp)
        | cons c t => exact Ends.add (t := b :: c :: t) 2 (ends_commentEnd hend)
    · cases commentEnd t.tail with
      | none => exact Nat.succ_pos _
      | some k => exact Nat.lt_of_lt_of_le Nat.two_pos (Nat.le_add_right 2 k)
  | header hheader =>
    obtain ⟨hends, hpos⟩ := ends_headerLength hheader
    exact hother hends.closed hpos (by simp) (by simp)
  | number _ =>
    refine hother (closed_of_next fun c hc => ?_) (by omega) (by simp) (by simp)
    rw [Nat.add_comm, List.drop_succ_cons] at hc
    exact closed_numberLength _ c hc
  | literal hliteral _ =>
    obtain ⟨hends, hpos⟩ := ends_literalLength hliteral
    rw [bytes_drop, hbytes] at hends
    exact hother (closed_suffixLength (hends.add _)) (by omega) (by simp) (by simp)
  | punctuation _ hident _ _ _ =>
    obtain ⟨hends, hpos⟩ := ends_punctuatorLength (t := t) hident
    exact hother hends.closed hpos (by simp) (by simp)
  | identifier hident _ _ =>
    refine ⟨closed_of_next fun c hc => head_drop_takeWhile hc, ?_, fun _ => hident,
      fun h => absurd h (by simp)⟩
    rw [List.takeWhile_cons_of_pos hident]
    exact Nat.succ_pos _

/-- A comment starts with a slash. -/
theorem Begins.slash {ctx : Context} {gs : List Glyph} {b : Byte} {t : Text} {n : Nat}
    (h : Begins ctx gs b t .comment n) : b = slash := by
  cases h with
  | lineComment hslash _ => exact hslash
  | blockComment hslash _ => exact hslash

/-- **The first piece** is not empty, no identifier goes on behind it, and when it is one, it
starts like one. -/
theorem lexeme_spec (ctx : Context) (g : Glyph) (gs : List Glyph) :
    Closed (bytes (g :: gs)) (lexeme ctx (g :: gs)).2 ∧ 0 < (lexeme ctx (g :: gs)).2 ∧
      ((lexeme ctx (g :: gs)).1 = .identifier → isIdent g.byte = true) ∧
      ((lexeme ctx (g :: gs)).1 = .space →
        (lexeme ctx (g :: gs)).2 = 1 ∧ isWhite g.byte = true) :=
  (begins_lexeme ctx g gs).spec rfl

/-! ## The pieces of a text -/

/-- Cutting goes on behind the glyphs skipped. -/
theorem pieces_skip (ctx : Context) (n : Nat) (gs : List Glyph) :
    pieces ctx n gs = pieces ctx 0 (gs.drop n) := by
  induction gs generalizing n with
  | nil => cases n <;> simp [pieces]
  | cons g gs ih =>
    cases n with
    | zero => rfl
    | succ n => exact ih n

def firstPiece (ctx : Context) (gs : List Glyph) : Piece :=
  ⟨(lexeme ctx gs).1, gs.take (lexeme ctx gs).2⟩

/-- It comes about as the first piece of the text. -/
theorem exists_begins {ctx : Context} {gs : List Glyph} {p : Piece} (hne : gs ≠ [])
    (hfirst : p = firstPiece ctx gs) :
    ∃ b t n, bytes gs = b :: t ∧ Begins ctx gs b t p.kind n ∧ p.text = (b :: t).take n := by
  obtain ⟨g, gs, rfl⟩ := List.exists_cons_of_ne_nil hne
  refine ⟨g.byte, bytes gs, (lexeme ctx (g :: gs)).2, rfl, ?_, ?_⟩
  · rw [hfirst]
    exact begins_lexeme ctx g gs
  · rw [hfirst, firstPiece, Piece.text, bytes, List.map_take]
    rfl

/-- The first piece, and the pieces of the rest. -/
theorem pieces_cons_eq (ctx : Context) (g : Glyph) (gs : List Glyph) :
    pieces ctx 0 (g :: gs) = firstPiece ctx (g :: gs) ::
      pieces (ctx.next (firstPiece ctx (g :: gs))) 0 ((g :: gs).drop (lexeme ctx (g :: gs)).2) := by
  obtain ⟨n, hn⟩ : ∃ n, (lexeme ctx (g :: gs)).2 = n + 1 :=
    ⟨_, (Nat.succ_pred_eq_of_pos (lexeme_spec ctx g gs).2.1).symm⟩
  rw [pieces, pieces_skip, firstPiece, hn, Nat.add_sub_cancel, List.drop_succ_cons]

/-- One piece is cut off, the rest is cut in the context it leaves. -/
theorem pieces_cons (ctx : Context) (g : Glyph) (gs : List Glyph) :
    ∃ ctx', pieces ctx 0 (g :: gs) =
      ⟨(lexeme ctx (g :: gs)).1, (g :: gs).take (lexeme ctx (g :: gs)).2⟩ ::
        pieces ctx' 0 ((g :: gs).drop (lexeme ctx (g :: gs)).2) :=
  ⟨_, pieces_cons_eq ctx g gs⟩

/-- **The pieces are the text**; none of them is empty, and white space is white space. -/
theorem flatMap_pieces (ctx : Context) (gs : List Glyph) :
    (pieces ctx 0 gs).flatMap Piece.glyphs = gs ∧ ∀ p ∈ pieces ctx 0 gs, p.glyphs ≠ [] ∧
      (p.kind = .space → ∀ b ∈ p.text, isWhite b = true) := by
  match gs with
  | [] => exact ⟨rfl, by simp [pieces]⟩
  | g :: gs =>
    obtain ⟨ctx', hpieces⟩ := pieces_cons ctx g gs
    obtain ⟨-, hpos, -, hspace⟩ := lexeme_spec ctx g gs
    obtain ⟨hrest, hall⟩ := flatMap_pieces ctx' ((g :: gs).drop (lexeme ctx (g :: gs)).2)
    rw [hpieces]
    constructor
    · rw [List.flatMap_cons, hrest, List.take_append_drop]
    · intro p hp
      rcases List.mem_cons.mp hp with rfl | hp
      · refine ⟨fun hnil => ?_, fun hkind b hb => ?_⟩
        · rcases List.take_eq_nil_iff.mp hnil with hzero | hnil
          · exact absurd hzero hpos.ne'
          · exact absurd hnil (by simp)
        · obtain ⟨hone, hbyte⟩ := hspace hkind
          rw [Piece.text, hone] at hb
          rw [List.mem_singleton.mp hb]
          exact hbyte
      · exact hall p hp
termination_by gs.length
decreasing_by
  rw [List.length_drop, List.length_cons]
  exact Nat.sub_lt (Nat.succ_pos _) (lexeme_spec ctx g gs).2.1

/-- A piece is the first one of what is left of the text. -/
theorem exists_firstPiece {ctx : Context} {gs : List Glyph} {p : Piece}
    (hp : p ∈ pieces ctx 0 gs) : ∃ ctx' gs', p = firstPiece ctx' gs' ∧ gs' <:+ gs := by
  match gs with
  | [] => exact absurd hp (by simp [pieces])
  | g :: gs =>
    rw [pieces_cons_eq] at hp
    rcases List.mem_cons.mp hp with rfl | hp
    · exact ⟨ctx, g :: gs, rfl, List.suffix_refl _⟩
    · obtain ⟨ctx', gs', hfirst, hsuffix⟩ := exists_firstPiece hp
      exact ⟨ctx', gs', hfirst, hsuffix.trans (List.drop_suffix _ _)⟩
termination_by gs.length
decreasing_by
  rw [List.length_drop, List.length_cons]
  exact Nat.sub_lt (Nat.succ_pos _) (lexeme_spec ctx g gs).2.1

/-- **No identifier starts in the middle of another piece.** -/
theorem identifier_boundary {ctx : Context} {gs : List Glyph} {front rest : List Piece} {p : Piece}
    (h : pieces ctx 0 gs = front ++ p :: rest) (hp : p.kind = .identifier) {g : Glyph}
    (hg : (front.flatMap Piece.glyphs).getLast? = some g) : isIdent g.byte = false := by
  induction front generalizing ctx gs with
  | nil => exact absurd hg (by simp)
  | cons f front ih =>
    cases gs with
    | nil => exact absurd h (by simp [pieces])
    | cons g₀ gs =>
      obtain ⟨ctx', hpieces⟩ := pieces_cons ctx g₀ gs
      obtain ⟨hclosed, -⟩ := lexeme_spec ctx g₀ gs
      rw [hpieces] at h
      obtain ⟨rfl, hrest⟩ := List.cons.inj h
      rw [List.flatMap_cons, List.getLast?_append] at hg
      cases hlast : (front.flatMap Piece.glyphs).getLast? with
      | some g' =>
        rw [hlast, Option.some_or] at hg
        exact ih hrest (hlast.trans hg)
      | none =>
        -- the identifier is the next piece
        rw [hlast, Option.none_or] at hg
        have hfront : front = [] := by
          cases front with
          | nil => rfl
          | cons f' front =>
            rw [List.getLast?_eq_none_iff, List.flatMap_cons, List.append_eq_nil_iff] at hlast
            exact absurd hlast.1 ((flatMap_pieces ctx' _).2 f' (by rw [hrest]; simp)).1
        subst hfront
        cases hdrop : (g₀ :: gs).drop (lexeme ctx (g₀ :: gs)).2 with
        | nil =>
          rw [hdrop] at hrest
          exact absurd hrest (by simp [pieces])
        | cons g₁ gs₁ =>
          rw [hdrop] at hrest
          obtain ⟨ctx'', hpieces'⟩ := pieces_cons ctx' g₁ gs₁
          rw [hpieces'] at hrest
          obtain ⟨rfl, -⟩ := List.cons.inj hrest
          have hnext : isIdent g₁.byte = true := (lexeme_spec ctx' g₁ gs₁).2.2.1 hp
          by_contra hident
          rw [Bool.not_eq_false] at hident
          have hlastByte : ((bytes (g₀ :: gs)).take (lexeme ctx (g₀ :: gs)).2).getLast? =
              some g.byte := by
            rw [bytes, ← List.map_take, List.getLast?_map, hg]
            rfl
          have hnextByte : ((bytes (g₀ :: gs)).drop (lexeme ctx (g₀ :: gs)).2).head? =
              some g₁.byte := by
            rw [bytes, ← List.map_drop, hdrop]
            rfl
          have hnot := hclosed g.byte g₁.byte hlastByte hnextByte hident
          rw [hnext] at hnot
          exact absurd hnot (by simp)

end Swayam.Cpp
