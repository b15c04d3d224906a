import Swayam.Lib.Search
import Swayam.Analyzer.Stripping
import Swayam.Analyzer.Threats
import Swayam.Forge.Definitions

/-!
# SWAYAM — the block of the forge, as the analyzer sees it

The texts that the forge puts into a base algorithm, put together from literals
and random numbers. A part of such a text is described by what it leaves behind
when comments and string literals are stripped, and by the parts of words that
it does not hold (`Inserts`); parts compose.

* `insertion_synthesizeLogicBlock` — every block, for every stream of random
  numbers, is an `Insertion`: balanced, without `try`, `catch` and `main`, without
  threats, and on lines of its own;
* `insertion_orphan` — so is the function it gets where there is no `main`.
-/

namespace Swayam.Forge

open Search

/-! ## Words and parts of words -/

/-- A part of every word by which a signature recognises its pattern. -/
def threatGrams : List Text :=
  [ascii "#i", ascii "po", ascii "exe", ascii "rk", ascii "sm"] ++
    ([40, 32, 9, 10, 11, 12, 13] : List Byte).map fun b => ascii "em" ++ [b]

/-- What a part of the inserted text must not hold: a part of those words, or of `main`. -/
def rawGrams : List Text := ascii "ai" :: threatGrams

/-- Parts of `try` and `catch`. -/
def keptGrams : List Text := [ascii "ry", ascii "ch"]

/-- Every include pattern holds one of the grams, -/
theorem gram_of_include {header : String} {p : Text} (hp : IncludePattern header p) :
    ∃ w ∈ threatGrams, w <:+: p := by
  obtain ⟨sp₁, sp₂, sp₃, -, -, -, rfl⟩ := hp
  exact ⟨ascii "#i", by decide, List.infix_append_of_infix_left (by decide)⟩

/-- White space and the parenthesis are what may follow `em` of `system`. -/
theorem gram_of_isSpace {b : Byte} (hb : isSpace b = true) : ascii "em" ++ [b] ∈ threatGrams := by
  have hcases : b = 32 ∨ b = 9 ∨ b = 10 ∨ b = 11 ∨ b = 12 ∨ b = 13 := by
    simp only [isSpace, Bool.or_eq_true, Bool.and_eq_true, decide_eq_true_eq,
      ← UInt8.toNat_inj] at hb ⊢
    simp only [UInt8.reduceToNat] at hb ⊢
    omega
  rcases hcases with rfl | rfl | rfl | rfl | rfl | rfl <;> decide

/-- and so does every call pattern. -/
theorem gram_of_call {names : List String} {p : Text} (hp : CallPattern names p)
    (hnames : ∀ name ∈ names, (∃ w ∈ threatGrams, w <:+: ascii name) ∨ name = "system") :
    ∃ w ∈ threatGrams, w <:+: p := by
  obtain ⟨name, hname, sp, hsp, rfl⟩ := hp
  rcases hnames name hname with ⟨w, hw, hpart⟩ | rfl
  · exact ⟨w, hw, List.infix_append_of_infix_left hpart⟩
  · -- the part of `system` takes in the byte behind it: white space, or the parenthesis
    have hsplit : ∃ b u, sp ++ ascii "(" = b :: u ∧ ascii "em" ++ [b] ∈ threatGrams := by
      cases sp with
      | nil => exact ⟨_, _, rfl, by decide⟩
      | cons b sp => exact ⟨b, sp ++ ascii "(", rfl, gram_of_isSpace (hsp b List.mem_cons_self)⟩
    obtain ⟨b, u, hrest, hw⟩ := hsplit
    refine ⟨_, hw, ?_⟩
    rw [hrest]
    exact ⟨ascii "syst", u, by simp [ascii]⟩

/-- A pattern of a signature holds a part of its word. -/
theorem exists_gram {threat : (Text → Prop) × Bool} (hmem : threat ∈ threatPatterns) {p : Text}
    (hp : threat.1 p) : ∃ w ∈ threatGrams, w <:+: p := by
  simp only [threatPatterns, List.mem_cons, List.not_mem_nil, or_false] at hmem
  rcases hmem with rfl | rfl | rfl | rfl
  · exact gram_of_include hp
  · exact gram_of_include hp
  · refine gram_of_call hp fun name hname => ?_
    simp only [List.mem_cons, List.not_mem_nil, or_false] at hname
    rcases hname with rfl | rfl | rfl | rfl | rfl
    · exact Or.inl ⟨ascii "po", by decide, by decide⟩
    · exact Or.inl ⟨ascii "exe", by decide, by decide⟩
    · exact Or.inr rfl
    · exact Or.inl ⟨ascii "exe", by decide, by decide⟩
    · exact Or.inl ⟨ascii "rk", by decide, by decide⟩
  · refine gram_of_call hp fun name hname => ?_
    simp only [List.mem_cons, List.not_mem_nil, or_false] at hname
    rcases hname with rfl | rfl <;> exact Or.inl ⟨ascii "sm", by decide, by decide⟩

/-- A text without these parts passes the signatures, and does not name `main`. -/
theorem clean_of_free {t : Text} (h : ∀ w ∈ rawGrams, Free w t) :
    (∀ threat ∈ threatPatterns, ¬ Occurs threat.1 threat.2 t) ∧ ¬ ascii "main" <:+: t := by
  constructor
  · rintro threat hmem ⟨front, p, rest, rfl, hp, -⟩
    obtain ⟨w, hw, hpart⟩ := exists_gram hmem hp
    refine (h w (List.mem_cons_of_mem _ hw)).1 (hpart.trans ?_)
    exact ⟨front, rest, by simp⟩
  · intro hmain
    have hgram : ascii "ai" <:+: ascii "main" := by decide
    exact (h (ascii "ai") List.mem_cons_self).1 (hgram.trans hmain)

/-! ## Text behind an open quote -/

/-- The contents of the string literals of a text, and what follows the last of them. -/
abbrev Literals := Option (Text × Text)

/-- The literals of a text that is put together; the second part is `kept'` without its own. -/
def Literals.append (literals : Literals) (kept' : Text) : Literals → Literals
  | none => literals.map fun (shown, last) => (shown, last ++ kept')
  | some (shown', last') => some ((literals.elim [] Prod.fst) ++ shown', last')

/-- **Behind an open quote**, the literals of a text are what stays of it, and the rest goes:
behind the last of them the quote is open again. Without literals, it stays open. -/
def Inverted (code : Text) : Literals → Prop
  | none => ∀ rest, behindString (code ++ rest) = behindString rest
  | some (shown, last) => ∀ rest, ∃ v, behindString (code ++ rest) = some v ∧
      (∀ w, behindString rest = some w → stripStrings v = shown ++ stripStrings w) ∧
      (behindString rest = none →
        stripStrings v = shown ++ (quote :: last) ++ stripStrings rest)

/-- Two parts are stripped one after the other. -/
theorem Inverted.append {code code' kept' : Text} {literals literals' : Literals}
    (h : Inverted code literals) (h' : Inverted code' literals')
    (hstrings : ∀ rest, stripStrings (code' ++ rest) = kept' ++ stripStrings rest) :
    Inverted (code ++ code') (literals.append kept' literals') := by
  cases literals with
  | none =>
    cases literals' with
    | none =>
      intro rest
      rw [List.append_assoc, h, h']
    | some l' =>
      intro rest
      rw [List.append_assoc, h]
      exact h' rest
  | some l =>
    cases literals' with
    | none =>
      intro rest
      obtain ⟨v, hv, hsome, hnone⟩ := h (code' ++ rest)
      -- the literals of the first part are still open over the second
      rw [h'] at hsome hnone
      refine ⟨v, by rw [List.append_assoc, hv], hsome, fun hrest => ?_⟩
      rw [hnone hrest, hstrings]
      simp
    | some l' =>
      intro rest
      obtain ⟨v, hv, hsome, -⟩ := h (code' ++ rest)
      -- the second part's first quote closes the first part's last literal
      obtain ⟨v', hv', hsome', hnone'⟩ := h' rest
      refine ⟨v, by rw [List.append_assoc, hv], fun w hw => ?_, fun hrest => ?_⟩
      · rw [hsome v' hv', hsome' w hw]
        exact (List.append_assoc ..).symm
      · rw [hsome v' hv', hnone' hrest]
        simp

/-! ## Inserted text -/

/-- **What a part of the inserted text does**, wherever it stands: without its comments it is
`code`, and without its string literals `kept`. -/
structure Inserts (t code kept : Text) (literals : Literals) : Prop where
  comments : ∀ rest, stripComments (t ++ rest) = code ++ stripComments rest
  noEnd    : commentEnd t = none ∧ t.getLast? ≠ some star
  free     : ∀ w ∈ rawGrams, Free w t
  strings  : ∀ rest, stripStrings (code ++ rest) = kept ++ stripStrings rest
  inverted : Inverted code literals
  keptFree : ∀ w ∈ keptGrams, Free w kept ∧ ∀ l ∈ literals, Free w l.1 ∧ Free w l.2

/-- And inserted so. -/
theorem Inserts.append {t t' code code' kept kept' : Text} {literals literals' : Literals}
    (h : Inserts t code kept literals) (h' : Inserts t' code' kept' literals') :
    Inserts (t ++ t') (code ++ code') (kept ++ kept') (literals.append kept' literals') where
  comments rest := by rw [List.append_assoc, h.comments, h'.comments, List.append_assoc]
  noEnd := by
    constructor
    · rw [commentEnd_append_of_eq_none h.noEnd.1 fun hstar => absurd hstar h.noEnd.2, h'.noEnd.1]
      rfl
    · rw [List.getLast?_append]
      cases hlast : t'.getLast? with
      | none => exact h.noEnd.2
      | some b =>
        rw [Option.some_or, ← hlast]
        exact h'.noEnd.2
  free w hw := (h.free w hw).append (h'.free w hw)
  strings rest := by rw [List.append_assoc, h.strings, h'.strings, List.append_assoc]
  inverted := h.inverted.append h'.inverted h'.strings
  keptFree w hw := by
    refine ⟨(h.keptFree w hw).1.append (h'.keptFree w hw).1, fun l hl => ?_⟩
    cases literals' with
    | none =>
      obtain ⟨l₀, hl₀, rfl⟩ := Option.map_eq_some_iff.mp hl
      obtain ⟨hshown, hlast⟩ := (h.keptFree w hw).2 l₀ hl₀
      exact ⟨hshown, hlast.append (h'.keptFree w hw).1⟩
    | some l' =>
      -- the last literal is the second part's own
      obtain rfl := Option.some.inj hl
      obtain ⟨hshown', hlast'⟩ := (h'.keptFree w hw).2 l' rfl
      refine ⟨?_, hlast'⟩
      cases literals with
      | none => exact hshown'
      | some l₀ => exact ((h.keptFree w hw).2 l₀ rfl).1.append hshown'

/-- Parts without literals. -/
theorem Inserts.append_code {t t' code code' kept kept' : Text} (h : Inserts t code kept none)
    (h' : Inserts t' code' kept' none) :
    Inserts (t ++ t') (code ++ code') (kept ++ kept') none :=
  h.append h'

/-- Code without slashes, quotes and escapes. -/
theorem inserts_code {t : Text} (h : slash ∉ t ∧ quote ∉ t ∧ escape ∉ t ∧
    t.getLast? ≠ some star ∧ ∀ w ∈ rawGrams ++ keptGrams, Free w t) : Inserts t t t none where
  comments := stripComments_append_of_notMem h.1
  noEnd := ⟨commentEnd_eq_none h.1, h.2.2.2.1⟩
  free w hw := h.2.2.2.2 w (List.mem_append_left _ hw)
  strings := stripStrings_append_of_notMem h.2.1
  inverted := behindString_append_of_notMem h.2.1 h.2.2.1
  keptFree w hw := ⟨h.2.2.2.2 w (List.mem_append_right _ hw), by simp⟩

/-- A hexadecimal digit, as `std::uppercase` writes it. -/
def isHexUpper (b : Byte) : Bool := isDigit b || (65 ≤ b.toNat && b.toNat ≤ 70)

/-- The bytes that no pattern and no word begins with. -/
def isInert (b : Byte) : Bool := isHexUpper b || b ∈ ascii "\n;\x7b\x7d"

/-- Inert bytes are left as they are, -/
theorem inserts_inert {t : Text} (h : ∀ b ∈ t, isInert b = true) : Inserts t t t none := by
  have hout : ∀ b : Byte, isInert b = false → b ∉ t := fun _ => notMem_of_all h
  refine inserts_code ⟨hout _ rfl, hout _ rfl, hout _ rfl,
    fun hlast => hout star rfl (List.mem_of_getLast? hlast), fun w hw => ?_⟩
  have hhead : ∀ w ∈ rawGrams ++ keptGrams, w.head?.map isInert = some false := by decide
  have hw := hhead w hw
  cases w with
  | nil => exact absurd hw (by simp)
  | cons b u => exact free_of_notMem (hout b (Option.some.inj hw))

/-- digits among them. -/
theorem inserts_digits {t : Text} (h : ∀ b ∈ t, isHexUpper b = true) : Inserts t t t none :=
  inserts_inert fun b hb => by rw [isInert, h b hb, Bool.true_or]

/-- A line comment, with the end of its line. -/
theorem inserts_comment (body : Text) (hline : ∀ b ∈ body, isLineEnd b = false)
    (hend : commentEnd (slash :: slash :: (body ++ [newline])) = none)
    (hfree : ∀ w ∈ rawGrams, Free w (slash :: slash :: (body ++ [newline]))) :
    Inserts (slash :: slash :: (body ++ [newline])) [newline] [newline] none where
  comments rest := by
    have hdrop : (body ++ newline :: rest).dropWhile (fun b => !isLineEnd b) = newline :: rest := by
      rw [List.dropWhile_append_of_pos fun b hb => by simp [hline b hb]]
      rfl
    have htext : (slash :: slash :: (body ++ [newline])) ++ rest =
        slash :: slash :: (body ++ newline :: rest) := by simp
    rw [htext, stripComments_line, hdrop, stripComments_keep (by decide)]
    rfl
  noEnd := by
    refine ⟨hend, ?_⟩
    rw [← List.cons_append, ← List.cons_append, List.getLast?_concat]
    decide
  free := hfree
  strings := stripStrings_append_of_notMem (by decide)
  inverted := behindString_append_of_notMem (by decide) (by decide)
  keptFree w hw := ⟨(by decide : ∀ w ∈ keptGrams, Free w [newline]) w hw, by simp⟩

/-- A string literal. -/
theorem inserts_string (body : Text) (hquote : quote ∉ body) (hescape : escape ∉ body)
    (hcomments : ∀ rest, stripComments (quote :: (body ++ [quote]) ++ rest) =
      quote :: (body ++ [quote]) ++ stripComments rest)
    (hend : commentEnd (quote :: (body ++ [quote])) = none)
    (hfree : ∀ w ∈ rawGrams, Free w (quote :: (body ++ [quote])))
    (hbody : ∀ w ∈ keptGrams, Free w body) :
    Inserts (quote :: (body ++ [quote])) (quote :: (body ++ [quote])) [] (some (body, [])) where
  comments := hcomments
  noEnd := by
    refine ⟨hend, ?_⟩
    rw [← List.cons_append, List.getLast?_concat]
    decide
  free := hfree
  strings rest := by
    have htext : quote :: (body ++ [quote]) ++ rest = quote :: (body ++ quote :: rest) := by simp
    rw [htext, stripStrings_quote_of_some ((behindString_append_of_notMem hquote hescape _).trans
      (behindString_quote rest))]
    rfl
  inverted rest := by
    refine ⟨body ++ quote :: rest, ?_, fun w hw => ?_, fun hrest => ?_⟩
    · rw [List.cons_append, behindString_quote, List.append_assoc]
      rfl
    · rw [stripStrings_append_of_notMem hquote, stripStrings_quote_of_some hw]
    · rw [stripStrings_append_of_notMem hquote, stripStrings_quote_of_none hrest]
      simp
  keptFree w hw := by
    have hnil : ∀ w ∈ keptGrams, Free w [] := by decide
    refine ⟨hnil w hw, fun l hl => ?_⟩
    obtain rfl := Option.some.inj hl
    exact ⟨hbody w hw, hnil w hw⟩

/-! ## The parts of the block -/

theorem isHexUpper_of_mem_decimal {n : Nat} {b : Byte} (h : b ∈ decimal n) :
    isHexUpper b = true := by
  rw [isHexUpper, isDigit_of_mem_decimal h]
  rfl

/-- Numbers, -/
theorem inserts_decimal (n : Nat) : Inserts (decimal n) (decimal n) (decimal n) none :=
  inserts_digits fun _ => isHexUpper_of_mem_decimal

theorem isHexUpper_of_mem_hexUpper {n : Nat} {b : Byte} (h : b ∈ hexUpper n) :
    isHexUpper b = true := by
  have hdigit : ∀ d < 16, isHexUpper (asciiByte (Nat.digitChar d).toUpper) = true := by decide
  rw [hexUpper, List.mem_map] at h
  obtain ⟨c, hc, rfl⟩ := h
  induction n using Nat.strong_induction_on with
  | h n ih =>
    rw [Nat.toDigits_eq_if (by decide)] at hc
    split at hc
    · rename_i hlt
      rw [List.mem_singleton.mp hc]
      exact hdigit n hlt
    · rcases List.mem_append.mp hc with hc | hc
      · exact ih (n / 16) (Nat.div_lt_self (by omega) (by decide)) hc
      · rw [List.mem_singleton.mp hc]
        exact hdigit (n % 16) (Nat.mod_lt n (by decide))

/-- hexadecimal numbers, -/
theorem inserts_hexUpper (n : Nat) : Inserts (hexUpper n) (hexUpper n) (hexUpper n) none :=
  inserts_digits fun _ => isHexUpper_of_mem_hexUpper

/-- The literal that holds the entropy. -/
theorem inserts_phantomTrace (entropy : Nat) :
    Inserts (quote :: ((ascii "[PHANTOM_TRACE: " ++ (decimal entropy ++ ascii "]")) ++ [quote]))
      (quote :: ((ascii "[PHANTOM_TRACE: " ++ (decimal entropy ++ ascii "]")) ++ [quote])) []
      (some (ascii "[PHANTOM_TRACE: " ++ (decimal entropy ++ ascii "]"), [])) := by
  have hraw : ∀ w ∈ rawGrams,
      Free w (quote :: ((ascii "[PHANTOM_TRACE: " ++ (decimal entropy ++ ascii "]")) ++ [quote])) := by
    intro w hw
    have hfront : ∀ w ∈ rawGrams, Free w (quote :: ascii "[PHANTOM_TRACE: ") := by decide
    have hback : ∀ w ∈ rawGrams, Free w (ascii "]" ++ [quote]) := by decide
    have hfree := ((hfront w hw).append ((inserts_decimal entropy).free w hw)).append (hback w hw)
    simpa only [List.append_assoc, List.cons_append] using hfree
  have hslash : slash ∉ quote :: ((ascii "[PHANTOM_TRACE: " ++ (decimal entropy ++ ascii "]")) ++
      [quote]) := by
    simp only [List.mem_cons, List.mem_append, not_or]
    exact ⟨by decide, ⟨by decide, notMem_decimal rfl entropy, by decide⟩, by decide⟩
  have hquote : quote ∉ ascii "[PHANTOM_TRACE: " ++ (decimal entropy ++ ascii "]") := by
    simp only [List.mem_append, not_or]
    exact ⟨by decide, notMem_decimal rfl entropy, by decide⟩
  have hescape : escape ∉ ascii "[PHANTOM_TRACE: " ++ (decimal entropy ++ ascii "]") := by
    simp only [List.mem_append, not_or]
    exact ⟨by decide, notMem_decimal rfl entropy, by decide⟩
  have hkept : ∀ w ∈ keptGrams,
      Free w (ascii "[PHANTOM_TRACE: " ++ (decimal entropy ++ ascii "]")) := by
    intro w hw
    have hfront : ∀ w ∈ keptGrams, Free w (ascii "[PHANTOM_TRACE: ") := by decide
    have hback : ∀ w ∈ keptGrams, Free w (ascii "]") := by decide
    exact (hfront w hw).append (((inserts_decimal entropy).keptFree w hw).1.append (hback w hw))
  exact inserts_string _ hquote hescape (stripComments_append_of_notMem hslash)
    (commentEnd_eq_none hslash) hraw hkept

section Parts

variable {var1 var2 : Text} (h1 : Inserts var1 var1 var1 none) (h2 : Inserts var2 var2 var2 none)

include h1

/-- opaque predicates -/
theorem inserts_opaquePredicate (logicPath : Nat) :
    Inserts (opaquePredicate logicPath var1) (opaquePredicate logicPath var1)
      (opaquePredicate logicPath var1) none := by
  unfold opaquePredicate
  split
  all_goals repeat' apply Inserts.append_code
  all_goals first
    | exact h1
    | exact inserts_code (by decide)

include h2

/-- and the whole first block. -/
theorem inserts_mathBlock (n1 n2 path1 path2 iterations : Nat) :
    Inserts
      (mathBlock var1 var2 n1 n2 (opaquePredicate path1 var1) (opaquePredicate path2 var2) iterations)
      (mathBlock var1 var2 n1 n2 (opaquePredicate path1 var1) (opaquePredicate path2 var2) iterations)
      (mathBlock var1 var2 n1 n2 (opaquePredicate path1 var1) (opaquePredicate path2 var2)
        iterations) none := by
  unfold mathBlock
  repeat' apply Inserts.append_code
  all_goals first
    | exact h1
    | exact h2
    | exact inserts_decimal _
    | exact inserts_opaquePredicate h1 path1
    | exact inserts_opaquePredicate h2 path2
    | exact inserts_code (by decide)

end Parts

/-! ## The block -/

/-- The opening braces of a text, less its closing ones. -/
def depth (t : Text) : Int := (t.count (asciiByte '\x7b') : Int) - t.count (asciiByte '\x7d')

/-- Braces are counted part by part. -/
theorem depth_append (t u : Text) : depth (t ++ u) = depth t + depth u := by
  simp only [depth, List.count_append]
  push_cast
  omega

/-- Balanced is as many open as closed. -/
theorem depth_eq_zero_iff (t : Text) :
    depth t = 0 ↔ t.count (asciiByte '\x7b') = t.count (asciiByte '\x7d') := by
  unfold depth
  omega

/-- Digits are no braces. -/
theorem depth_digits {t : Text} (h : ∀ b ∈ t, isHexUpper b = true) : depth t = 0 := by
  have hout : ∀ b : Byte, isHexUpper b = false → t.count b = 0 := fun b hb =>
    List.count_eq_zero.mpr (notMem_of_all h hb)
  rw [depth, hout _ rfl, hout _ rfl]
  rfl

/-- A line that ends in a barrier. -/
def EndsInBarrier (t : Text) : Prop := ∃ u x, t = u ++ [x, newline] ∧ isBarrier x = true

/-- What ends in a barrier does so behind anything. -/
theorem EndsInBarrier.append {u : Text} (h : EndsInBarrier u) (t : Text) :
    EndsInBarrier (t ++ u) := by
  obtain ⟨v, x, rfl, hx⟩ := h
  exact ⟨t ++ v, x, by simp, hx⟩

/-- Text that neither begins nor ends within `try` or `catch`. -/
def Sealed (t : Text) : Prop :=
  ∃ b c, t.head? = some b ∧ t.getLast? = some c ∧ b ∉ ascii "trycatch" ∧ c ∉ ascii "trycatch"

/-- **A block of lines** that can stand anywhere: balanced, and a pattern or a word neither lies
in it nor across its ends. `braces` is how many braces are open around its last literal. -/
structure Block (t code kept : Text) (literals : Literals) (braces : Option Nat) : Prop
    extends Inserts t code kept literals where
  balanced : depth kept = 0
  last     : kept.getLast? = some newline
  barrier  : EndsInBarrier t
  shown    : ∀ l ∈ literals, depth l.1 = 0 ∧ Sealed l.1 ∧ l.2.getLast? = some newline
  around   : literals.map (fun l => depth l.2) = braces.map fun n => -(n : Int)

/-- A balanced part in front of a block. -/
theorem Block.append {t t' code code' kept kept' : Text} {literals' : Literals}
    {braces : Option Nat} (h : Inserts t code kept none) (hdepth : depth kept = 0)
    (h' : Block t' code' kept' literals' braces) :
    Block (t ++ t') (code ++ code') (kept ++ kept') literals' braces where
  toInserts := by
    have hliterals : Literals.append none kept' literals' = literals' := by
      cases literals' <;> rfl
    have happend := h.append h'.toInserts
    rwa [hliterals] at happend
  balanced := by rw [depth_append, hdepth, h'.balanced]; rfl
  last := by rw [List.getLast?_append, h'.last]; rfl
  barrier := h'.barrier.append t
  shown := h'.shown
  around := h'.around

section Blocks

variable {var1 var2 : Text} (h1 : Inserts var1 var1 var1 none) (h2 : Inserts var2 var2 var2 none)
  (hd1 : depth var1 = 0) (hd2 : depth var2 = 0)

include hd1

/-- A predicate is balanced. -/
theorem depth_opaquePredicate (logicPath : Nat) : depth (opaquePredicate logicPath var1) = 0 := by
  unfold opaquePredicate
  split
  · simp only [depth_append, hd1]
    decide
  · simp only [depth_append, hd1]
    decide
  · simp only [depth_append, hd1]
    decide
  · rfl

include h1 h2 hd2

/-- **The first kind of block** is one, -/
theorem block_math (n1 n2 path1 path2 iterations : Nat) :
    ∃ code kept literals, Block
      (mathBlock var1 var2 n1 n2 (opaquePredicate path1 var1) (opaquePredicate path2 var2) iterations)
      code kept literals none := by
  refine ⟨_, _, none, inserts_mathBlock h1 h2 n1 n2 path1 path2 iterations, ?_, ?_, ?_, by simp, rfl⟩
  · have hn : ∀ n, depth (decimal n) = 0 := fun n => depth_digits fun _ => isHexUpper_of_mem_decimal
    have hp1 := depth_opaquePredicate hd1 path1
    have hp2 := depth_opaquePredicate hd2 path2
    simp only [mathBlock, depth_append, hd1, hd2, hn, hp1, hp2]
    decide
  · simp only [mathBlock, List.getLast?_append]
    rfl
  · have hlast : EndsInBarrier (ascii ";\n    \x7d\n") := ⟨ascii ";\n    ", asciiByte '\x7d', rfl, rfl⟩
    exact (hlast.append _).append _

omit h2 hd2 in
/-- and so is **the second**. -/
theorem block_recon : ∃ code kept literals, Block (reconBlock var1) code kept literals (some 0) := by
  have hcomment : ascii "    // [SWAYAM-SENTIENCE] Target Alpha: OS Memory Footprint Scan\n" =
      ascii "    " ++ (slash :: slash ::
        (ascii " [SWAYAM-SENTIENCE] Target Alpha: OS Memory Footprint Scan" ++ [newline])) := rfl
  have hopen : ascii "    std::ifstream _swayam_proc(\"/proc/self/statm\");\n" =
      ascii "    std::ifstream _swayam_proc(" ++
        ((quote :: (ascii "/proc/self/statm" ++ [quote])) ++ ascii ");\n") := rfl
  have hintro := (inserts_code (t := ascii "    ") (by decide)).append
    (inserts_comment (ascii " [SWAYAM-SENTIENCE] Target Alpha: OS Memory Footprint Scan")
      (eq_false_of_any (by decide)) (by decide) (by decide +kernel))
  have hvar := ((inserts_code (t := ascii "    [[maybe_unused]] long ") (by decide)).append
    h1).append (inserts_code (t := ascii " = 0;\n") (by decide))
  have hstring := inserts_string (ascii "/proc/self/statm") (by decide) (by decide)
    (fun _ => rfl) (by decide) (by decide) (by decide)
  have hread := (inserts_code (t := ascii "    std::ifstream _swayam_proc(") (by decide)).append
    (hstring.append (inserts_code (t := ascii ");\n") (by decide)))
  have hclose := ((inserts_code (t := ascii "    if(_swayam_proc.is_open()) \x7b _swayam_proc >> ")
    (by decide)).append h1).append (inserts_code (t := ascii "; _swayam_proc.close(); \x7d\n")
      (by decide))
  have hlast : EndsInBarrier (ascii "; _swayam_proc.close(); \x7d\n") :=
    ⟨ascii "; _swayam_proc.close(); ", asciiByte '\x7d', rfl, rfl⟩
  rw [reconBlock, hcomment, hopen]
  refine ⟨_, _, some (ascii "/proc/self/statm", ascii ");\n" ++
      (ascii "    if(_swayam_proc.is_open()) \x7b _swayam_proc >> " ++ var1 ++
        ascii "; _swayam_proc.close(); \x7d\n")),
    ((hintro.append hvar).append hread).append hclose, ?_, ?_, (hlast.append _).append _,
    fun l hl => ?_, ?_⟩
  · simp only [depth_append, hd1]
    decide
  · simp only [List.getLast?_append]
    rfl
  · obtain rfl := Option.some.inj hl
    refine ⟨(by decide : depth (ascii "/proc/self/statm") = 0),
      ⟨_, _, rfl, rfl, by decide, by decide⟩, ?_⟩
    simp only [List.getLast?_append]
    rfl
  · simp only [Option.map_some, depth_append, hd1]
    decide

omit h2 hd2 in
/-- The entropy stands in the block as a number and within a string literal. -/
theorem block_file (entropy : Nat) :
    ∃ code kept literals, Block (fileBlock var1 (decimal entropy)) code kept literals (some 1) := by
  have hcomment : ascii "    // [SWAYAM-SENTIENCE] Target Beta: Vault File Interaction\n" =
      ascii "    " ++ (slash :: slash ::
        (ascii " [SWAYAM-SENTIENCE] Target Beta: Vault File Interaction" ++ [newline])) := rfl
  have hphantom : ascii " = \"./.swayam_vault/phantom_\" + std::to_string(" =
      ascii " = " ++ ((quote :: (ascii "./.swayam_vault/phantom_" ++ [quote])) ++
        ascii " + std::to_string(") := rfl
  have hdat : ascii "ULL) + \".dat\";\n" =
      ascii "ULL) + " ++ ((quote :: (ascii ".dat" ++ [quote])) ++ ascii ";\n") := rfl
  have htrace : ascii "    if(_swayam_out.is_open()) \x7b _swayam_out << \"[PHANTOM_TRACE: " ++
      decimal entropy ++ ascii "]\"; _swayam_out.close(); \x7d\n" =
      ascii "    if(_swayam_out.is_open()) \x7b _swayam_out << " ++
        ((quote :: ((ascii "[PHANTOM_TRACE: " ++ (decimal entropy ++ ascii "]")) ++ [quote])) ++
          ascii "; _swayam_out.close(); \x7d\n") := by
    have hfront : ascii "    if(_swayam_out.is_open()) \x7b _swayam_out << \"[PHANTOM_TRACE: " =
        ascii "    if(_swayam_out.is_open()) \x7b _swayam_out << " ++
          (quote :: ascii "[PHANTOM_TRACE: ") := rfl
    have hback : ascii "]\"; _swayam_out.close(); \x7d\n" =
        ascii "]" ++ ([quote] ++ ascii "; _swayam_out.close(); \x7d\n") := rfl
    rw [hfront, hback]
    simp only [List.append_assoc, List.cons_append]
  -- the lines of the block, one after the other
  have hintro := (inserts_code (t := ascii "    ") (by decide)).append
    (inserts_comment (ascii " [SWAYAM-SENTIENCE] Target Beta: Vault File Interaction")
      (eq_false_of_any (by decide)) (by decide) (by decide +kernel))
  have hpath := (inserts_code (t := ascii " = ") (by decide)).append
    ((inserts_string (ascii "./.swayam_vault/phantom_") (by decide) (by decide)
      (fun _ => rfl) (by decide) (by decide) (by decide)).append
        (inserts_code (t := ascii " + std::to_string(") (by decide)))
  have hend := (inserts_code (t := ascii "ULL) + ") (by decide)).append
    ((inserts_string (ascii ".dat") (by decide) (by decide) (fun _ => rfl) (by decide)
      (by decide) (by decide)).append (inserts_code (t := ascii ";\n") (by decide)))
  have hname := ((((inserts_code (t := ascii "    std::string ") (by decide)).append h1).append
    hpath).append (inserts_decimal entropy)).append hend
  have hout := ((inserts_code (t := ascii "    std::ofstream _swayam_out(") (by decide)).append
    h1).append (inserts_code (t := ascii ");\n") (by decide))
  have hwrite := (inserts_code (t := ascii "    if(_swayam_out.is_open()) \x7b _swayam_out << ")
    (by decide)).append ((inserts_phantomTrace entropy).append
      (inserts_code (t := ascii "; _swayam_out.close(); \x7d\n") (by decide)))
  have herror := inserts_code (t := ascii "    std::error_code _ec;\n") (by decide)
  have hremove := ((inserts_code (t := ascii "    std::filesystem::remove(") (by decide)).append
    h1).append (inserts_code (t := ascii ", _ec);\n") (by decide))
  have hlast : EndsInBarrier (ascii ", _ec);\n") := ⟨ascii ", _ec)", asciiByte ';', rfl, rfl⟩
  -- put together, the literals are the two file names and the trace
  rw [fileBlock, hcomment, hphantom, hdat, htrace]
  have hn : depth (decimal entropy) = 0 := depth_digits fun _ => isHexUpper_of_mem_decimal
  refine ⟨_, _, some ((ascii "./.swayam_vault/phantom_" ++ ascii ".dat") ++
      (ascii "[PHANTOM_TRACE: " ++ (decimal entropy ++ ascii "]")),
      ascii "; _swayam_out.close(); \x7d\n" ++ ascii "    std::error_code _ec;\n" ++
        (ascii "    std::filesystem::remove(" ++ var1 ++ ascii ", _ec);\n")),
    ((((hintro.append hname).append hout).append hwrite).append herror).append hremove,
    ?_, ?_, (hlast.append _).append _, fun l hl => ?_, ?_⟩
  · simp only [depth_append, hd1, hn]
    decide
  · simp only [List.getLast?_append]
    rfl
  · obtain rfl := Option.some.inj hl
    refine ⟨?_, ⟨asciiByte '.', asciiByte ']', rfl, ?_, by decide, by decide⟩, ?_⟩
    · simp only [depth_append, hn]
      decide
    · simp only [List.getLast?_append]
      rfl
    · simp only [List.getLast?_append]
      rfl
  · simp only [Option.map_some, depth_append, hd1]
    decide

end Blocks

/-- **A block that is put between two texts**, on lines of its own. -/
structure Insertion (t code kept : Text) (literals : Literals) (braces : Option Nat) : Prop
    extends Block t code kept literals braces where
  first     : ∃ z v, t = (newline :: z) ++ asciiByte '[' :: v ∧
    ∀ b ∈ newline :: z, isTerminal b = false
  codeFirst : code.head? = some newline
  keptFirst : kept.head? = some newline

/-- A block behind a comment on a line of its own. -/
theorem Block.insertion {indent body t code kept : Text} {literals : Literals}
    {braces : Option Nat} (h : Block t code kept literals braces)
    (hindent : Inserts (newline :: indent) (newline :: indent) (newline :: indent) none ∧
      depth (newline :: indent) = 0 ∧ ∀ b ∈ indent, isTerminal b = false)
    (hcomment : Inserts (slash :: slash :: (asciiByte ' ' :: asciiByte '[' :: body ++ [newline]))
      [newline] [newline] none) :
    Insertion ((newline :: indent) ++
        (slash :: slash :: (asciiByte ' ' :: asciiByte '[' :: body ++ [newline])) ++ t)
      ((newline :: indent) ++ [newline] ++ code) ((newline :: indent) ++ [newline] ++ kept)
      literals braces where
  toBlock := by
    refine Block.append (hindent.1.append_code hcomment) ?_ h
    rw [depth_append, hindent.2.1]
    rfl
  first := by
    refine ⟨indent ++ [slash, slash, asciiByte ' '], body ++ [newline] ++ t, by simp, ?_⟩
    intro b hb
    rcases List.mem_cons.mp hb with rfl | hb
    · rfl
    · rcases List.mem_append.mp hb with hb | hb
      · exact hindent.2.2 b hb
      · exact eq_false_of_any (by decide) b hb
  codeFirst := rfl
  keptFirst := rfl

/-- Generated identifiers are left as they are, -/
theorem inserts_identifier {start : Text} (hstart : Inserts start start start none) (n : Nat) :
    Inserts (start ++ hexUpper n) (start ++ hexUpper n) (start ++ hexUpper n) none :=
  hstart.append_code (inserts_hexUpper n)

/-- and hold no braces. -/
theorem depth_identifier {start : Text} (hstart : depth start = 0) (n : Nat) :
    depth (start ++ hexUpper n) = 0 := by
  rw [depth_append, hstart, depth_digits fun _ => isHexUpper_of_mem_hexUpper]
  rfl

/-- The braces around the last literal of a block, by its paradigm. -/
def bracesAround : Nat → Option Nat
  | 0 => none
  | 1 => some 0
  | _ => some 1

/-- **Every block of the forge is one**, whatever the numbers. -/
theorem insertion_synthesizeLogicBlock (rng : Draws) :
    ∃ code kept literals, Insertion (synthesizeLogicBlock rng).1 code kept literals
      (bracesAround (paradigmOf rng)) := by
  have hintro : blockIntro = (newline :: ascii "    ") ++ (slash :: slash :: (asciiByte ' ' ::
      asciiByte '[' :: ascii "SWAYAM-SYNTH] Neural Polymorphic Shift Initiated" ++ [newline])) := rfl
  have hblock : ∃ t code kept literals, (synthesizeLogicBlock rng).1 = blockIntro ++ t ∧
      Block t code kept literals (bracesAround (paradigmOf rng)) := by
    have hvar : ∀ start ∈ [ascii "_evo_core_", ascii "_evo_mem_", ascii "_recon_stat_",
        ascii "_decoy_path_"], ∀ n, Inserts (start ++ hexUpper n) (start ++ hexUpper n)
          (start ++ hexUpper n) none ∧ depth (start ++ hexUpper n) = 0 := by
      intro start hstart n
      simp only [List.mem_cons, List.not_mem_nil, or_false] at hstart
      rcases hstart with rfl | rfl | rfl | rfl
      all_goals
        exact ⟨inserts_identifier (inserts_code (by decide)) n, depth_identifier (by decide) n⟩
    -- one block for each paradigm, around the same two identifiers at most
    have hparadigm : paradigmOf rng = 0 ∨ paradigmOf rng = 1 ∨ paradigmOf rng = 2 := by
      unfold paradigmOf
      omega
    rcases hparadigm with hmath | hrecon | hfile
    · obtain ⟨h1, hd1⟩ := hvar (ascii "_evo_core_") (by decide) ((rng 0).toNat % 0xFFFFFF)
      obtain ⟨h2, hd2⟩ := hvar (ascii "_evo_mem_") (by decide) ((rng 1).toNat % 0xFFFFFF)
      obtain ⟨code, kept, literals, h⟩ := block_math h1 h2 hd1 hd2 ((rng 3).toNat % 9999)
        ((rng 4).toNat % 9999) ((rng 5).toNat % 3) ((rng 6).toNat % 3) ((rng 7).toNat % 5 + 1)
      rw [hmath, bracesAround]
      exact ⟨_, code, kept, literals, synthesizeLogicBlock_math hmath, h⟩
    · obtain ⟨h1, hd1⟩ := hvar (ascii "_recon_stat_") (by decide) ((rng 3).toNat % 0xFFFFFF)
      obtain ⟨code, kept, literals, h⟩ := block_recon h1 hd1
      rw [hrecon, bracesAround]
      exact ⟨_, code, kept, literals, synthesizeLogicBlock_recon hrecon, h⟩
    · obtain ⟨h1, hd1⟩ := hvar (ascii "_decoy_path_") (by decide) ((rng 3).toNat % 0xFFFFFF)
      obtain ⟨code, kept, literals, h⟩ := block_file h1 hd1 (rng 5).toNat
      have hkind : bracesAround 2 = some 1 := rfl
      rw [hfile, hkind]
      exact ⟨_, code, kept, literals, synthesizeLogicBlock_file hfile, h⟩
  obtain ⟨t, code, kept, literals, heq, h⟩ := hblock
  rw [heq, hintro]
  refine ⟨_, _, literals, h.insertion ⟨inserts_code (by decide), by decide,
    eq_false_of_any (by decide)⟩ ?_⟩
  exact inserts_comment (asciiByte ' ' :: asciiByte '[' ::
    ascii "SWAYAM-SYNTH] Neural Polymorphic Shift Initiated") (eq_false_of_any (by decide))
    (by decide) (by decide +kernel)

/-- A block in the braces of a function. -/
theorem Block.orphan {t code kept : Text} {literals : Literals} {braces : Option Nat}
    (h : Block t code kept literals braces) :
    Block (ascii "void _evo_orphan() \x7b" ++ t ++ ascii "\x7d\n")
      (ascii "void _evo_orphan() \x7b" ++ code ++ ascii "\x7d\n")
      (ascii "void _evo_orphan() \x7b" ++ kept ++ ascii "\x7d\n")
      (literals.map fun (shown, last) => (shown, last ++ ascii "\x7d\n")) (braces.map (· + 1)) where
  toInserts := by
    have hfront : Literals.append none kept literals = literals := by
      cases literals <;> rfl
    have hinserts := ((inserts_code (t := ascii "void _evo_orphan() \x7b") (by decide)).append
      h.toInserts).append (inserts_code (t := ascii "\x7d\n") (by decide))
    rwa [hfront] at hinserts
  balanced := by
    simp only [depth_append, h.balanced]
    decide
  last := by
    rw [List.getLast?_append]
    rfl
  barrier := by
    have hlast : EndsInBarrier (ascii "\x7d\n") := ⟨[], asciiByte '\x7d', rfl, rfl⟩
    exact hlast.append _
  shown l hl := by
    obtain ⟨l₀, hl₀, rfl⟩ := Option.map_eq_some_iff.mp hl
    obtain ⟨hdepth, hsealed, -⟩ := h.shown l₀ hl₀
    refine ⟨hdepth, hsealed, ?_⟩
    rw [List.getLast?_append]
    rfl
  around := by
    have haround := h.around
    have hclose : depth (ascii "\x7d\n") = -1 := by decide
    cases literals with
    | none =>
      cases braces with
      | none => rfl
      | some n => exact absurd haround (by simp)
    | some l₀ =>
      cases braces with
      | none => exact absurd haround (by simp)
      | some n =>
        -- one brace more is open around the last literal
        have hdepth : depth l₀.2 = -(n : Int) := Option.some.inj haround
        show some (depth (l₀.2 ++ ascii "\x7d\n")) = some (-((n + 1 : Nat) : Int))
        rw [depth_append, hdepth, hclose]
        congr 1
        omega

/-- The function that the block gets where there is no `main`. -/
theorem insertion_orphan {t code kept : Text} {literals : Literals} {braces : Option Nat}
    (h : Block t code kept literals braces) :
    ∃ code kept literals, Insertion (ascii "\n// [SWAYAM-ORPHAN-BLOCK]\nvoid _evo_orphan() \x7b" ++
      t ++ ascii "\x7d\n") code kept literals (braces.map (· + 1)) := by
  have hsplit : ascii "\n// [SWAYAM-ORPHAN-BLOCK]\nvoid _evo_orphan() \x7b" ++ t ++ ascii "\x7d\n" =
      (newline :: []) ++ (slash :: slash :: (asciiByte ' ' :: asciiByte '[' ::
        ascii "SWAYAM-ORPHAN-BLOCK]" ++ [newline])) ++
        (ascii "void _evo_orphan() \x7b" ++ t ++ ascii "\x7d\n") := by
    have hfront : ascii "\n// [SWAYAM-ORPHAN-BLOCK]\nvoid _evo_orphan() \x7b" =
        (newline :: []) ++ (slash :: slash :: (asciiByte ' ' :: asciiByte '[' ::
          ascii "SWAYAM-ORPHAN-BLOCK]" ++ [newline])) ++ ascii "void _evo_orphan() \x7b" := rfl
    rw [hfront]
    simp only [List.append_assoc]
  rw [hsplit]
  refine ⟨_, _, _, h.orphan.insertion ⟨inserts_code (by decide), by decide,
    eq_false_of_any (by decide)⟩ ?_⟩
  exact inserts_comment (asciiByte ' ' :: asciiByte '[' :: ascii "SWAYAM-ORPHAN-BLOCK]")
    (eq_false_of_any (by decide)) (by decide) (by decide +kernel)

end Swayam.Forge
