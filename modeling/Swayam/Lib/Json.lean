import Mathlib.Data.List.Induction
import Swayam.Lib.Utf8

/-!
# JSON texts

The grammar in two layers. A scanner takes a text in byte by byte and gives its
tokens (`tokens`); a value is written as the tokens of `Value.tokens`, and the texts
of a value are those with its tokens, as long as they are UTF-8 (`Writes`).

A string token stands between two quotes, without control characters. What it
stands for is never longer than what stands there, and shorter as soon as an escape
is used. So a text that is put between quotes as it is comes back only when it has
nothing to be escaped:

* `decode_cases` — an escape makes a string shorter;
* `run_quoted` — the string tokens that a text between quotes is scanned to: the
  text itself, or shorter ones only;
* `run_newline` — no token goes over a newline.
-/

namespace Json

open Utf8

abbrev Byte := UInt8

abbrev Bytes := List UInt8

/-! ## Strings -/

def quote : Byte := 34
def backslash : Byte := 92

/-- A piece of a string: a byte, or a UTF-16 code unit that is escaped by its number. -/
inductive Piece
  | byte (b : Byte)
  | unit (u : UInt16)
  deriving DecidableEq, Repr

/-- The value of a hexadecimal digit. -/
def hexDigit (b : Byte) : Option Nat :=
  if 48 ≤ b.toNat ∧ b.toNat ≤ 57 then some (b.toNat - 48)
  else if 65 ≤ b.toNat ∧ b.toNat ≤ 70 then some (b.toNat - 55)
  else if 97 ≤ b.toNat ∧ b.toNat ≤ 102 then some (b.toNat - 87)
  else none

/-- What a letter stands for behind a backslash. -/
def simpleEscape (b : Byte) : Option Byte :=
  if b = quote ∨ b = backslash ∨ b = 47 then some b
  else if b = 98 then some 8
  else if b = 102 then some 12
  else if b = 110 then some 10
  else if b = 114 then some 13
  else if b = 116 then some 9
  else none

/-- The letter in front of four hexadecimal digits. -/
def unitEscape : Byte := 117

/-- The code unit of four digits. -/
def codeUnit (a b c d : Byte) : Option UInt16 :=
  (hexDigit a).bind fun a => (hexDigit b).bind fun b => (hexDigit c).bind fun c =>
    (hexDigit d).map fun d => UInt16.ofNat (4096 * a + 256 * b + 16 * c + d)

/-- The pieces of what stands between the quotes. -/
def pieces : Bytes → Option (List Piece)
  | [] => some []
  | b :: t =>
    if b ≠ backslash then (pieces t).map (.byte b :: ·)
    else match t with
      | [] => none
      | e :: t =>
        if e = unitEscape then
          match t with
          | h₁ :: h₂ :: h₃ :: h₄ :: t =>
            (codeUnit h₁ h₂ h₃ h₄).bind fun u => (pieces t).map (.unit u :: ·)
          | _ => none
        else (simpleEscape e).bind fun c => (pieces t).map (.byte c :: ·)

/-- A code unit as a character; half a surrogate pair becomes U+FFFD. -/
def unitBytes (u : UInt16) : Bytes :=
  if 0xD800 ≤ u.toNat ∧ u.toNat < 0xE000 then [0xEF, 0xBF, 0xBD]
  else String.utf8EncodeChar (Char.ofNat u.toNat)

/-- A surrogate pair as a character. -/
def pairBytes (hi lo : UInt16) : Bytes :=
  String.utf8EncodeChar
    (Char.ofNat (0x10000 + 1024 * (hi.toNat - 0xD800) + (lo.toNat - 0xDC00)))

def isPair (hi lo : UInt16) : Bool :=
  0xD800 ≤ hi.toNat && hi.toNat < 0xDC00 && 0xDC00 ≤ lo.toNat && lo.toNat < 0xE000

/-- The text that the pieces stand for. -/
def spell : List Piece → Bytes
  | [] => []
  | .byte b :: ps => b :: spell ps
  | .unit hi :: .unit lo :: ps =>
    if isPair hi lo then pairBytes hi lo ++ spell ps else unitBytes hi ++ spell (.unit lo :: ps)
  | .unit u :: ps => unitBytes u ++ spell ps

/-- What a string stands for, given what stands between its quotes. -/
def decode (raw : Bytes) : Option Bytes := (pieces raw).map spell

/-! ### Their lengths -/

/-- How long a piece is at most. -/
def Piece.weight : Piece → Nat
  | .byte _ => 1
  | .unit _ => 3

def weight : List Piece → Nat
  | [] => 0
  | p :: ps => p.weight + weight ps

/-- A code unit takes at most three bytes, -/
theorem length_unitBytes (u : UInt16) : (unitBytes u).length ≤ 3 := by
  unfold unitBytes
  split
  · exact Nat.le_refl 3
  · rename_i hunit
    -- outside of the surrogates a code unit is a character of its own
    have hlt := u.toNat_lt
    have hvalid : u.toNat.isValidChar := by
      unfold Nat.isValidChar
      omega
    have hval : (Char.ofNat u.toNat).val.toNat = u.toNat := by
      rw [Char.ofNat, dif_pos hvalid]
      rfl
    rw [String.utf8EncodeChar, hval]
    split
    · simp
    · split
      · simp
      · rw [if_pos (by omega)]
        simp

/-- so a spelling is no longer than its weight. -/
theorem length_spell_le (ps : List Piece) : (spell ps).length ≤ weight ps := by
  -- the cases of `spell`: a pair of units is taken as one
  induction ps using spell.induct with
  | case1 => exact Nat.le_refl 0
  | case2 b ps ih =>
    rw [spell, List.length_cons, weight, Piece.weight]
    omega
  | case3 hi lo ps hpair ih =>
    -- four bytes, where the two units have six to spend
    have hfour : (pairBytes hi lo).length ≤ 4 := by
      rw [pairBytes, String.length_utf8EncodeChar]
      exact Char.utf8Size_le_four _
    rw [spell, if_pos hpair, List.length_append, weight, weight, Piece.weight, Piece.weight]
    omega
  | case4 hi lo ps hpair ih =>
    have hthree := length_unitBytes hi
    rw [spell, if_neg hpair, List.length_append, weight, Piece.weight]
    omega
  | case5 u ps hps ih =>
    have hthree := length_unitBytes u
    have hspell : spell (.unit u :: ps) = unitBytes u ++ spell ps := by
      rw [spell]
      exact hps
    rw [hspell, List.length_append, weight, Piece.weight]
    omega

/-- Plain bytes are spelled as they are. -/
theorem spell_bytes (t : Bytes) : spell (t.map .byte) = t := by
  induction t with
  | nil => rfl
  | cons b t ih => rw [List.map_cons, spell, ih]

/-- And weigh one each. -/
theorem weight_bytes (t : Bytes) : weight (t.map .byte) = t.length := by
  induction t with
  | nil => rfl
  | cons b t ih =>
    rw [List.map_cons, weight, ih, List.length_cons, Piece.weight]
    omega

/-! ### Escapes make a string shorter -/

/-- Reading the inside of a string: a plain byte, -/
theorem pieces_byte {b : Byte} (hb : b ≠ backslash) (t : Bytes) :
    pieces (b :: t) = (pieces t).map (.byte b :: ·) := by
  rw [pieces.eq_def]
  dsimp only
  rw [if_pos hb]

/-- a code unit in hexadecimal, -/
theorem pieces_unit (h₁ h₂ h₃ h₄ : Byte) (t : Bytes) :
    pieces (backslash :: unitEscape :: h₁ :: h₂ :: h₃ :: h₄ :: t) =
      (codeUnit h₁ h₂ h₃ h₄).bind fun u => (pieces t).map (.unit u :: ·) := by
  rw [pieces.eq_def]
  dsimp only
  rw [if_neg (by simp), if_pos rfl]

/-- or a simple escape. -/
theorem pieces_escape {e : Byte} (he : e ≠ unitEscape) (t : Bytes) :
    pieces (backslash :: e :: t) =
      (simpleEscape e).bind fun c => (pieces t).map (.byte c :: ·) := by
  rw [pieces.eq_def]
  dsimp only
  rw [if_neg (by simp), if_neg he]

/-- How the pieces of a string are related to it: they are its bytes, or weigh less. -/
def Shrinks (raw : Bytes) (ps : List Piece) : Prop :=
  (backslash ∉ raw ∧ ps = raw.map .byte) ∨ (backslash ∈ raw ∧ weight ps < raw.length)

/-- What is read weighs no more than what was written. -/
theorem Shrinks.weight_le {raw : Bytes} {ps : List Piece} (h : Shrinks raw ps) :
    weight ps ≤ raw.length := by
  rcases h with ⟨-, rfl⟩ | ⟨-, hlt⟩
  · exact Nat.le_of_eq (weight_bytes raw)
  · omega

/-- **The pieces of a string** are its bytes, or some are escaped. -/
theorem pieces_cases {raw : Bytes} {ps : List Piece} (h : pieces raw = some ps) :
    Shrinks raw ps := by
  -- the cases of `pieces`: a byte, an escaped code unit, an escaped letter, and what it rejects
  induction raw using pieces.induct generalizing ps with
  | case1 =>
    rw [pieces, Option.some.injEq] at h
    exact Or.inl ⟨List.not_mem_nil, h.symm⟩
  | case2 b t hb ih =>
    rw [pieces_byte hb, Option.map_eq_some_iff] at h
    obtain ⟨qs, hqs, rfl⟩ := h
    rcases ih hqs with ⟨hfree, rfl⟩ | ⟨hmem, hlen⟩
    · exact Or.inl ⟨by simp [hfree, Ne.symm hb], rfl⟩
    · refine Or.inr ⟨List.mem_cons_of_mem _ hmem, ?_⟩
      rw [weight, Piece.weight, List.length_cons]
      omega
  | case3 b hb =>
    obtain rfl := not_not.mp hb
    rw [pieces.eq_def] at h
    simp at h
  | case4 b hb h₁ h₂ h₃ h₄ t ih =>
    obtain rfl := not_not.mp hb
    rw [pieces_unit, Option.bind_eq_some_iff] at h
    obtain ⟨u, -, h⟩ := h
    rw [Option.map_eq_some_iff] at h
    obtain ⟨qs, hqs, rfl⟩ := h
    -- a weight of three for six bytes
    have hrest := (ih hqs).weight_le
    refine Or.inr ⟨List.mem_cons_self .., ?_⟩
    rw [weight, Piece.weight]
    simp only [List.length_cons]
    omega
  | case5 b hb t ht =>
    obtain rfl := not_not.mp hb
    rw [pieces.eq_def] at h
    dsimp only at h
    rw [if_neg (by simp), if_pos rfl] at h
    split at h
    · exact absurd rfl (ht _ _ _ _ _)
    · simp at h
  | case6 b hb e t he ih =>
    obtain rfl := not_not.mp hb
    rw [pieces_escape he, Option.bind_eq_some_iff] at h
    obtain ⟨c, -, h⟩ := h
    rw [Option.map_eq_some_iff] at h
    obtain ⟨qs, hqs, rfl⟩ := h
    -- a weight of one for two bytes
    have hrest := (ih hqs).weight_le
    refine Or.inr ⟨List.mem_cons_self .., ?_⟩
    rw [weight, Piece.weight]
    simp only [List.length_cons]
    omega

/-- A string without escapes is read byte by byte, -/
theorem pieces_of_free {raw : Bytes} (h : backslash ∉ raw) : pieces raw = some (raw.map .byte) := by
  induction raw with
  | nil => rfl
  | cons b t ih =>
    rw [List.mem_cons, not_or] at h
    rw [pieces_byte (Ne.symm h.1), ih h.2, Option.map_some, List.map_cons]

/-- **An escape makes a string shorter**, and nothing else changes it. -/
theorem decode_cases {raw v : Bytes} (h : decode raw = some v) :
    (backslash ∉ raw ∧ v = raw) ∨ (backslash ∈ raw ∧ v.length < raw.length) := by
  rw [decode, Option.map_eq_some_iff] at h
  obtain ⟨ps, hps, rfl⟩ := h
  have hle := length_spell_le ps
  rcases pieces_cases hps with ⟨hfree, rfl⟩ | ⟨hmem, hlt⟩
  · exact Or.inl ⟨hfree, spell_bytes raw⟩
  · exact Or.inr ⟨hmem, by omega⟩

/-- and stands for itself. -/
theorem decode_of_free {raw : Bytes} (h : backslash ∉ raw) : decode raw = some raw := by
  rw [decode, pieces_of_free h, Option.map_some, spell_bytes]

/-! ## Tokens -/

inductive Token
  | openObject
  | closeObject
  | openArray
  | closeArray
  | colon
  | comma
  | null
  | bool (b : Bool)
  | num (raw : Bytes)
  | str (value : Bytes)
  deriving DecidableEq, Repr

def isSpace (b : Byte) : Bool := b == 32 || b == 9 || b == 10 || b == 13

/-- The bytes of numbers and of `true`, `false` and `null`. -/
def isWordByte (b : Byte) : Bool :=
  isDigit b || (65 ≤ b.toNat && b.toNat ≤ 90) || (97 ≤ b.toNat && b.toNat ≤ 122) ||
    b == 43 || b == 45 || b == 46

def punctuation (b : Byte) : Option Token :=
  if b = 123 then some .openObject
  else if b = 125 then some .closeObject
  else if b = 91 then some .openArray
  else if b = 93 then some .closeArray
  else if b = 58 then some .colon
  else if b = 44 then some .comma
  else none

/-- One digit or more, and nothing else. -/
def isDigits (t : Bytes) : Bool := !t.isEmpty && t.all isDigit

/-- An exponent, when there is one. -/
def isExponent : Bytes → Bool
  | [] => true
  | e :: t =>
    (e == 101 || e == 69) &&
      (match t with
        | sign :: digits => if sign = 43 ∨ sign = 45 then isDigits digits else isDigits t
        | [] => false)

/-- A fraction and an exponent, each when there is one. -/
def isFraction : Bytes → Bool
  | [] => true
  | b :: t =>
    if b = 46 then isDigits (t.takeWhile isDigit) && isExponent (t.dropWhile isDigit)
    else isExponent (b :: t)

/-- The numbers of JSON. -/
def isNumber (t : Bytes) : Bool :=
  match (if t.head? = some 45 then t.tail else t) with
  | [] => false
  | b :: rest =>
    if b = 48 then isFraction rest else isDigit b && isFraction (rest.dropWhile isDigit)

def wordToken (w : Bytes) : Option Token :=
  if w = [116, 114, 117, 101] then some (.bool true)
  else if w = [102, 97, 108, 115, 101] then some (.bool false)
  else if w = [110, 117, 108, 108] then some .null
  else if isNumber w then some (.num w)
  else none

/-- Where the scanner stands: between tokens, in a word, or in a string, behind a backslash or
not. -/
inductive Mode
  | outside
  | word (w : Bytes)
  | string (raw : Bytes) (escaped : Bool)
  deriving DecidableEq, Repr

structure Scan where
  toks : List Token
  mode : Mode
  deriving DecidableEq, Repr

/-- A byte between tokens. -/
def outsideStep (toks : List Token) (b : Byte) : Option Scan :=
  if isSpace b then some ⟨toks, .outside⟩
  else if b = quote then some ⟨toks, .string [] false⟩
  else if isWordByte b then some ⟨toks, .word [b]⟩
  else (punctuation b).map fun t => ⟨toks ++ [t], .outside⟩

/-- A byte in a string; there are no control characters in one. -/
def stringStep (toks : List Token) (raw : Bytes) (escaped : Bool) (b : Byte) : Option Scan :=
  if b.toNat < 32 then none
  else if escaped then some ⟨toks, .string (raw ++ [b]) false⟩
  else if b = quote then (decode raw).map fun v => ⟨toks ++ [.str v], .outside⟩
  else some ⟨toks, .string (raw ++ [b]) (b == backslash)⟩

def step (s : Scan) (b : Byte) : Option Scan :=
  match s.mode with
  | .outside => outsideStep s.toks b
  | .word w =>
    if isWordByte b then some ⟨s.toks, .word (w ++ [b])⟩
    else (wordToken w).bind fun t => outsideStep (s.toks ++ [t]) b
  | .string raw escaped => stringStep s.toks raw escaped b

def run (s : Scan) (t : Bytes) : Option Scan := t.foldlM step s

/-- The tokens at the end of a text. -/
def Scan.finish (s : Scan) : Option (List Token) :=
  match s.mode with
  | .outside => some s.toks
  | .word w => (wordToken w).map fun t => s.toks ++ [t]
  | .string .. => none

/-- The tokens of a text. -/
def tokens (t : Bytes) : Option (List Token) := (run ⟨[], .outside⟩ t).bind Scan.finish

/-! ## Values -/

mutual

inductive Value
  | null
  | bool (b : Bool)
  | num (raw : Bytes)
  | str (value : Bytes)
  | arr (elements : Elements)
  | obj (members : Members)

inductive Elements
  | nil
  | cons (v : Value) (rest : Elements)

inductive Members
  | nil
  | cons (key : Bytes) (v : Value) (rest : Members)

end

mutual

/-- The tokens that a value is written as. -/
def Value.tokens : Value → List Token
  | .null => [.null]
  | .bool b => [.bool b]
  | .num raw => [.num raw]
  | .str value => [.str value]
  | .arr elements => .openArray :: (elements.tokens ++ [.closeArray])
  | .obj members => .openObject :: (members.tokens ++ [.closeObject])

def Elements.tokens : Elements → List Token
  | .nil => []
  | .cons v .nil => v.tokens
  | .cons v (.cons v' rest) => v.tokens ++ .comma :: (Elements.cons v' rest).tokens

def Members.tokens : Members → List Token
  | .nil => []
  | .cons key v .nil => .str key :: .colon :: v.tokens
  | .cons key v (.cons key' v' rest) =>
    .str key :: .colon :: (v.tokens ++ .comma :: (Members.cons key' v' rest).tokens)

end

/-- The text is one value. -/
structure Writes (text : Bytes) (v : Value) : Prop where
  utf8   : IsUtf8 text
  tokens : Json.tokens text = some v.tokens

/-- The field of an object: of several with one key the last counts. -/
def Members.get (key : Bytes) : Members → Option Value
  | .nil => none
  | .cons k v rest =>
    match rest.get key with
    | some v' => some v'
    | none => if k = key then some v else none

/-! ## Runs of the scanner -/

theorem run_append (s : Scan) (x y : Bytes) : run s (x ++ y) = (run s x).bind (run · y) :=
  List.foldlM_append ..

/-- Byte by byte, -/
theorem run_cons (s : Scan) (b : Byte) (t : Bytes) :
    run s (b :: t) = (step s b).bind (run · t) := rfl

/-- and from behind. -/
theorem run_concat (s : Scan) (t : Bytes) (b : Byte) :
    run s (t ++ [b]) = (run s t).bind (step · b) := by
  rw [run_append]
  congr 1
  funext s'
  rw [run_cons]
  exact Option.bind_fun_some _

/-- A scan that finishes is in no string. -/
theorem finish_eq_some {s : Scan} {toks : List Token} (h : s.finish = some toks) :
    ∀ raw escaped, s.mode ≠ .string raw escaped := by
  intro raw escaped hmode
  rw [Scan.finish, hmode] at h
  simp at h

/-- A byte of white space or punctuation ends a word, and stands for itself. -/
theorem step_of_finish {s : Scan} {b : Byte} {toks : List Token} (h : s.finish = some toks)
    (hb : isWordByte b = false) : step s b = outsideStep toks b := by
  cases hmode : s.mode with
  | outside =>
    rw [Scan.finish, hmode, Option.some.injEq] at h
    rw [step, hmode, h]
  | word w =>
    rw [Scan.finish, hmode, Option.map_eq_some_iff] at h
    obtain ⟨t, ht, rfl⟩ := h
    rw [step, hmode]
    dsimp only
    rw [if_neg (by simp [hb]), ht, Option.bind_some]
  | string raw escaped => exact absurd hmode (finish_eq_some h raw escaped)

def newline : Byte := 10

/-- **No token goes over a newline.** -/
theorem run_newline {s s' : Scan} {t : Bytes} (h : run s (newline :: t) = some s') :
    ∃ toks, s.finish = some toks ∧ run ⟨toks, .outside⟩ t = some s' := by
  rw [run_cons, Option.bind_eq_some_iff] at h
  obtain ⟨m, hm, hrun⟩ := h
  cases hfinish : s.finish with
  | some toks =>
    -- the newline is white space, and ends a word
    rw [step_of_finish hfinish rfl, outsideStep, if_pos (show isSpace newline = true from rfl),
      Option.some.injEq] at hm
    exact ⟨toks, rfl, hm ▸ hrun⟩
  | none =>
    -- neither a word that is no token nor a string goes on with one
    exfalso
    cases hmode : s.mode with
    | outside => simp [Scan.finish, hmode] at hfinish
    | word w =>
      rw [Scan.finish, hmode, Option.map_eq_none_iff] at hfinish
      rw [step, hmode] at hm
      dsimp only at hm
      rw [if_neg (by decide), hfinish] at hm
      simp at hm
    | string raw escaped =>
      rw [step, hmode] at hm
      dsimp only at hm
      rw [stringStep, if_pos (by decide)] at hm
      simp at hm

/-! ## Text between quotes -/

/-- A text with nothing to be escaped. -/
structure Plain (x : Bytes) : Prop where
  noQuote     : quote ∉ x
  noBackslash : backslash ∉ x
  noControl   : ∀ b ∈ x, 32 ≤ b.toNat

/-- Plainness, as a test of bytes. -/
theorem plain_of_all {x : Bytes}
    (h : x.all (fun b => b != quote && b != backslash && 32 ≤ b.toNat) = true) : Plain x := by
  have hall := List.all_eq_true.mp h
  refine ⟨fun hmem => ?_, fun hmem => ?_, fun b hb => ?_⟩
  · simpa using hall _ hmem
  · simpa using hall _ hmem
  · have hbyte := hall b hb
    rw [Bool.and_eq_true, decide_eq_true_eq] at hbyte
    exact hbyte.2

/-- The strings among the tokens are shorter than this. -/
def Short (n : Nat) (toks : List Token) : Prop := ∀ v, .str v ∈ toks → v.length < n

theorem Short.mono {m n : Nat} {toks : List Token} (h : Short m toks) (hle : m ≤ n) :
    Short n toks := fun v hv => Nat.lt_of_lt_of_le (h v hv) hle

/-- Two short lists are short together. -/
theorem Short.append {n : Nat} {toks toks' : List Token} (h : Short n toks) (h' : Short n toks') :
    Short n (toks ++ toks') := by
  intro v hv
  rcases List.mem_append.mp hv with hv | hv
  · exact h v hv
  · exact h' v hv

theorem short_nil (n : Nat) : Short n [] := fun _ h => absurd h List.not_mem_nil

/-- A short string alone is, -/
theorem short_str {n : Nat} {v : Bytes} (h : v.length < n) : Short n [.str v] := by
  intro w hw
  rw [List.mem_singleton, Token.str.injEq] at hw
  rwa [hw]

/-- and any other token. -/
theorem short_of_ne {t : Token} (h : ∀ v, t ≠ .str v) (n : Nat) : Short n [t] := by
  intro v hv
  rw [List.mem_singleton] at hv
  exact absurd hv.symm (h v)

/-- Punctuation is no string, -/
theorem punctuation_ne_str {b : Byte} {t : Token} (h : punctuation b = some t) (v : Bytes) :
    t ≠ .str v := by
  rintro rfl
  unfold punctuation at h
  repeat' split at h
  all_goals simp at h

/-- nor is a word. -/
theorem wordToken_ne_str {w : Bytes} {t : Token} (h : wordToken w = some t) (v : Bytes) :
    t ≠ .str v := by
  rintro rfl
  unfold wordToken at h
  repeat' split at h
  all_goals simp at h

/-- Between tokens no string is finished, and one that is opened is empty. -/
theorem outsideStep_cases {toks : List Token} {b : Byte} {s : Scan}
    (h : outsideStep toks b = some s) (n : Nat) :
    (∃ new, s.toks = toks ++ new ∧ Short n new) ∧
      ∀ raw escaped, s.mode = .string raw escaped → raw = [] := by
  unfold outsideStep at h
  split at h
  · obtain rfl := Option.some.inj h
    exact ⟨⟨[], (List.append_nil toks).symm, short_nil n⟩, fun _ _ hmode => nomatch hmode⟩
  · split at h
    · obtain rfl := Option.some.inj h
      refine ⟨⟨[], (List.append_nil toks).symm, short_nil n⟩, fun raw escaped hmode => ?_⟩
      exact (Mode.string.inj hmode).1.symm
    · split at h
      · obtain rfl := Option.some.inj h
        exact ⟨⟨[], (List.append_nil toks).symm, short_nil n⟩, fun _ _ hmode => nomatch hmode⟩
      · rw [Option.map_eq_some_iff] at h
        obtain ⟨t, ht, rfl⟩ := h
        exact ⟨⟨[t], rfl, short_of_ne (punctuation_ne_str ht) n⟩, fun _ _ hmode => nomatch hmode⟩

/-- The scanner behind a quote and `y`, from these tokens: still in the string, with all of `y` in
it; or behind the end of a string, with shorter ones only. -/
inductive Quoting (toks : List Token) (y : Bytes) (s : Scan) : Prop
  | inside (escaped : Bool) (htoks : s.toks = toks) (hmode : s.mode = .string y escaped)
      (hescaped : escaped = true → backslash ∈ y) (hquote : quote ∈ y → backslash ∈ y)
      (hcontrol : ∀ b ∈ y, 32 ≤ b.toNat)
  | behind (new : List Token) (htoks : s.toks = toks ++ new) (hshort : Short y.length new)
      (hquote : quote ∈ y) (hmode : ∀ raw escaped, s.mode = .string raw escaped →
        raw.length < y.length)

section Quoted

variable {toks : List Token} {x y : Bytes} {s s' : Scan} {b : Byte}

/-- Decoding makes nothing longer. -/
theorem decode_length_le {raw v : Bytes} (h : decode raw = some v) : v.length ≤ raw.length := by
  rcases decode_cases h with ⟨-, rfl⟩ | ⟨-, hlt⟩
  · exact Nat.le_refl _
  · omega

/-- Tokens of which none is a new long string. -/
theorem Quoting.of_outside {new : List Token} (hshort : Short y.length new) (hquote : quote ∈ y)
    (h : outsideStep (toks ++ new) b = some s') : Quoting toks (y ++ [b]) s' := by
  -- the byte finishes no string, and one that it opens is empty so far
  obtain ⟨⟨more, htoks, hmore⟩, hmode⟩ := outsideStep_cases h (y.length + 1)
  have hlen : (y ++ [b]).length = y.length + 1 := by simp
  refine .behind (new ++ more) (by rw [htoks, List.append_assoc]) ?_
    (List.mem_append_left _ hquote) fun raw escaped hraw => ?_
  · rw [hlen]
    exact (hshort.mono (by omega)).append hmore
  · rw [hmode raw escaped hraw, hlen]
    exact Nat.succ_pos _

/-- **One byte more.** -/
theorem Quoting.step (hq : Quoting toks y s) (h : Json.step s b = some s') :
    Quoting toks (y ++ [b]) s' := by
  have hlen : (y ++ [b]).length = y.length + 1 := by simp
  cases hq with
  | inside escaped htoks hmode hescaped hquote hcontrol =>
    -- the string that was opened goes on: with a byte, an escape or its end
    rw [Json.step, hmode] at h
    dsimp only at h
    unfold stringStep at h
    split at h
    · simp at h
    · rename_i hge
      have hcontrol' : ∀ c ∈ y ++ [b], 32 ≤ c.toNat := by
        intro c hc
        rcases List.mem_append.mp hc with hc | hc
        · exact hcontrol c hc
        · rw [List.mem_singleton.mp hc]
          omega
      split at h
      · -- the byte behind a backslash
        rename_i hesc
        obtain rfl := Option.some.inj h
        have hmem : backslash ∈ y ++ [b] := List.mem_append_left _ (hescaped hesc)
        exact .inside false htoks rfl (fun _ => hmem) (fun _ => hmem) hcontrol'
      · split at h
        · -- the closing quote
          rename_i hb
          rw [Option.map_eq_some_iff] at h
          obtain ⟨v, hv, rfl⟩ := h
          have hle := decode_length_le hv
          refine .behind [.str v] (by rw [htoks]) (short_str (by omega)) (by simp [hb])
            fun raw escaped hraw => nomatch hraw
        · rename_i hb
          obtain rfl := Option.some.inj h
          refine .inside (b == backslash) htoks rfl (fun hback => ?_) (fun hmem => ?_) hcontrol'
          · rw [beq_iff_eq] at hback
            simp [hback]
          · rcases List.mem_append.mp hmem with hmem | hmem
            · exact List.mem_append_left _ (hquote hmem)
            · exact absurd (List.mem_singleton.mp hmem).symm hb
  | behind new htoks hshort hquote hmode =>
    rw [Json.step] at h
    cases hm : s.mode with
    | outside =>
      rw [hm] at h
      dsimp only at h
      rw [htoks] at h
      -- the byte opens something or stands alone
      exact .of_outside hshort hquote h
    | word w =>
      rw [hm] at h
      dsimp only at h
      split at h
      · -- the word goes on
        obtain rfl := Option.some.inj h
        exact .behind new htoks (hshort.mono (by omega)) (List.mem_append_left _ hquote)
          fun raw escaped hraw => nomatch hraw
      · -- the word is over, and the byte is read outside it
        rw [Option.bind_eq_some_iff] at h
        obtain ⟨t, ht, h⟩ := h
        rw [htoks, List.append_assoc] at h
        exact .of_outside (hshort.append (short_of_ne (wordToken_ne_str ht) _)) hquote h
    | string raw escaped =>
      have hraw := hmode raw escaped hm
      rw [hm] at h
      dsimp only at h
      unfold stringStep at h
      split at h
      · simp at h
      · split at h
        · obtain rfl := Option.some.inj h
          refine .behind new htoks (hshort.mono (by omega)) (List.mem_append_left _ hquote)
            fun raw' escaped' hraw' => ?_
          rw [← (Mode.string.inj hraw').1, hlen, List.length_append, List.length_singleton]
          omega
        · split at h
          · rw [Option.map_eq_some_iff] at h
            obtain ⟨v, hv, rfl⟩ := h
            have hle := decode_length_le hv
            refine .behind (new ++ [.str v]) (by rw [htoks, List.append_assoc])
              ((hshort.mono (by omega)).append (short_str (by omega)))
              (List.mem_append_left _ hquote) fun raw' escaped' hraw' => nomatch hraw'
          · obtain rfl := Option.some.inj h
            refine .behind new htoks (hshort.mono (by omega)) (List.mem_append_left _ hquote)
              fun raw' escaped' hraw' => ?_
            rw [← (Mode.string.inj hraw').1, hlen, List.length_append, List.length_singleton]
            omega

/-- **A whole text** behind a quote. -/
theorem quoting_run (toks : List Token) (h : run ⟨toks, .string [] false⟩ x = some s) :
    Quoting toks x s := by
  -- from the front: each byte is one `Quoting.step` on what came before it
  induction x using List.reverseRecOn generalizing s with
  | nil =>
    obtain rfl := Option.some.inj h
    exact .inside false rfl rfl (fun h => Bool.noConfusion h) (fun h => absurd h List.not_mem_nil)
      fun _ h => absurd h List.not_mem_nil
  | append_singleton y b ih =>
    rw [run_concat, Option.bind_eq_some_iff] at h
    obtain ⟨m, hm, hstep⟩ := h
    exact (ih hm).step hstep

/-- The string tokens of a text between quotes: itself, when nothing has to be escaped, and
shorter ones otherwise. -/
def Quoted (x : Bytes) (new : List Token) : Prop :=
  (Plain x ∧ new = [.str x]) ∨ (¬ Plain x ∧ Short x.length new)

/-- A string among them is plain, or shorter than a text that is not. -/
theorem Quoted.of_mem {new : List Token} {v : Bytes} (h : Quoted x new) (hv : .str v ∈ new) :
    Plain v ∨ (¬ Plain x ∧ v.length < x.length) := by
  rcases h with ⟨hplain, rfl⟩ | ⟨hnot, hshort⟩
  · rw [List.mem_singleton, Token.str.injEq] at hv
    exact Or.inl (hv ▸ hplain)
  · exact Or.inr ⟨hnot, hshort v hv⟩

theorem run_quote (toks : List Token) (t : Bytes) :
    run ⟨toks, .outside⟩ (quote :: t) = run ⟨toks, .string [] false⟩ t := rfl

/-- The quote behind the text: it ends a string, or opens one. -/
theorem Quoting.close (hq : Quoting toks x s) (h : Json.step s quote = some s')
    (hmode : ∀ raw escaped, s'.mode ≠ .string raw escaped) :
    ∃ new, s' = ⟨toks ++ new, .outside⟩ ∧ Quoted x new := by
  rw [Json.step] at h
  cases hq with
  | inside escaped htoks hin hescaped hquote hcontrol =>
    rw [hin] at h
    dsimp only at h
    rw [stringStep, if_neg (by decide)] at h
    cases escaped with
    | true =>
      obtain rfl := Option.some.inj h
      exact absurd rfl (hmode _ _)
    | false =>
      rw [if_neg (by simp), if_pos rfl, Option.map_eq_some_iff] at h
      obtain ⟨v, hv, rfl⟩ := h
      -- all of the text is in the string that ends here
      refine ⟨[.str v], by rw [htoks], ?_⟩
      rcases decode_cases hv with ⟨hfree, rfl⟩ | ⟨hmem, hlt⟩
      · exact Or.inl ⟨⟨fun hmem => hfree (hquote hmem), hfree, hcontrol⟩, rfl⟩
      · exact Or.inr ⟨fun hplain => hplain.noBackslash hmem, short_str hlt⟩
  | behind new htoks hshort hquote hlast =>
    have hnot : ¬ Plain x := fun hplain => hplain.noQuote hquote
    -- outside of a string the quote opens one
    have hopens : ∀ toks, outsideStep toks quote = some s' → False := by
      intro toks hopen
      obtain rfl := Option.some.inj hopen
      exact hmode _ _ rfl
    cases hm : s.mode with
    | outside =>
      rw [hm] at h
      exact (hopens _ h).elim
    | word w =>
      rw [hm] at h
      dsimp only at h
      rw [if_neg (by decide), Option.bind_eq_some_iff] at h
      obtain ⟨t, -, h⟩ := h
      exact (hopens _ h).elim
    | string raw escaped =>
      have hraw := hlast raw escaped hm
      rw [hm] at h
      dsimp only at h
      rw [stringStep, if_neg (by decide)] at h
      cases escaped with
      | true =>
        obtain rfl := Option.some.inj h
        exact absurd rfl (hmode _ _)
      | false =>
        rw [if_neg (by simp), if_pos rfl, Option.map_eq_some_iff] at h
        obtain ⟨v, hv, rfl⟩ := h
        -- it began behind an earlier quote of the text
        have hle := decode_length_le hv
        refine ⟨new ++ [.str v], by rw [htoks, List.append_assoc], Or.inr ⟨hnot, ?_⟩⟩
        exact hshort.append (short_str (by omega))

/-- **A text between quotes**, when no string is open behind it. -/
theorem run_quoted (h : run ⟨toks, .outside⟩ (quote :: (x ++ [quote])) = some s)
    (hmode : ∀ raw escaped, s.mode ≠ .string raw escaped) :
    ∃ new, s = ⟨toks ++ new, .outside⟩ ∧ Quoted x new := by
  rw [run_quote, run_concat, Option.bind_eq_some_iff] at h
  obtain ⟨m, hm, hstep⟩ := h
  exact (quoting_run toks hm).close hstep hmode

/-- The bytes of a plain text stay in the string. -/
theorem run_string (hplain : Plain x) (toks : List Token) (raw : Bytes) :
    run ⟨toks, .string raw false⟩ x = some ⟨toks, .string (raw ++ x) false⟩ := by
  induction x generalizing raw with
  | nil =>
    rw [List.append_nil]
    rfl
  | cons b x ih =>
    obtain ⟨hquote, hback, hcontrol⟩ := hplain
    rw [List.mem_cons, not_or] at hquote hback
    have hb : 32 ≤ b.toNat := hcontrol b (List.mem_cons_self ..)
    have htail : Plain x :=
      ⟨hquote.2, hback.2, fun c hc => hcontrol c (List.mem_cons_of_mem _ hc)⟩
    have hstep : Json.step ⟨toks, .string raw false⟩ b = some ⟨toks, .string (raw ++ [b]) false⟩ := by
      rw [Json.step]
      dsimp only
      rw [stringStep, if_neg (by omega), if_neg (by simp), if_neg (Ne.symm hquote.1),
        beq_eq_false_iff_ne.mpr (Ne.symm hback.1)]
    rw [run_cons, hstep, Option.bind_some, ih htail, List.append_assoc]
    rfl

/-- **A plain text** between quotes is its own token. -/
theorem run_plain (hplain : Plain x) (toks : List Token) :
    run ⟨toks, .outside⟩ (quote :: (x ++ [quote])) = some ⟨toks ++ [.str x], .outside⟩ := by
  rw [run_quote, run_concat, run_string hplain, Option.bind_some, List.nil_append, Json.step]
  dsimp only
  rw [stringStep, if_neg (by decide), if_neg (by simp), if_pos rfl,
    decode_of_free hplain.noBackslash, Option.map_some]

end Quoted

/-! ## Fields -/

/-- A field with a string has it among the tokens. -/
theorem Members.mem_of_get {key v : Bytes} : ∀ {members : Members},
    members.get key = some (.str v) → Token.str v ∈ members.tokens
  | .nil, h => by simp [Members.get] at h
  | .cons k w .nil, h => by
    rw [Members.get] at h
    dsimp only [Members.get] at h
    split at h
    · obtain rfl := Option.some.inj h
      simp [Members.tokens, Value.tokens]
    · simp at h
  | .cons k w (.cons k' w' rest), h => by
    rw [Members.tokens]
    rw [Members.get] at h
    -- the last field of the key counts: look behind this one first
    cases hrest : (Members.cons k' w' rest).get key with
    | some u =>
      rw [hrest] at h
      dsimp only at h
      have hmem := Members.mem_of_get (hrest.trans h)
      simp [hmem]
    | none =>
      rw [hrest] at h
      dsimp only at h
      split at h
      · obtain rfl := Option.some.inj h
        simp [Value.tokens]
      · simp at h

end Json
