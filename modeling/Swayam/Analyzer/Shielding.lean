import Mathlib.Data.List.Forall2
import Swayam.Analyzer.SourceTokens
import Swayam.Analyzer.Splices

/-!
# SWAYAM — a source whose threats are out of sight

Line splices in front of the parentheses and angle brackets of a text change none
of its pieces, but in raw string literals, whose delimiters must stay as they are
(`Piece.shield`). The text with these splices has no threat for the analyzer,
unless one stands in front of the contents of a raw string literal.

* `pieces_shield` — the pieces are the same, with their splices;
* `exists_shielded` — so are the tokens, and nothing else is left to be found.
-/

namespace Swayam.Cpp

/-! ## Shielded pieces -/

/-- What closes a raw string literal, at the start of some glyphs. -/
def closesAt (close : Text) (g : Glyph) (gs : List Glyph) : Bool :=
  close.isPrefixOf (bytes (g :: gs)) && (gs.take (close.length - 1)).all (·.splice.isEmpty)

theorem rawEnd_cons (close : Text) (g : Glyph) (gs : List Glyph) :
    rawEnd close (g :: gs) = if closesAt close g gs then close.length else 1 + rawEnd close gs := rfl

/-- The contents of a raw string literal, up to what closes it. -/
def shieldRaw (close : Text) : List Glyph → List Glyph
  | [] => []
  | g :: gs => if closesAt close g gs then g :: gs else g.shield :: shieldRaw close gs

/-- The length of a raw string literal up to its contents. -/
def Piece.rawOffset (p : Piece) : Nat := p.start.length + 1 + p.delimiter.length + 1

def Piece.shieldGlyphs (p : Piece) : List Glyph :=
  if p.isRaw then
    p.glyphs.take p.rawOffset ++ shieldRaw (closing p.delimiter) (p.glyphs.drop p.rawOffset)
  else p.glyphs.map Glyph.shield

def Piece.shield (p : Piece) : Piece := ⟨p.kind, p.shieldGlyphs⟩

@[simp] theorem Glyph.shield_byte (g : Glyph) : g.shield.byte = g.byte := by
  unfold Glyph.shield
  split <;> rfl

/-- Shielding every glyph shields a text. -/
theorem shielded_map (gs : List Glyph) : Shielded gs (gs.map Glyph.shield) := by
  induction gs with
  | nil => exact .nil
  | cons g gs ih => exact .cons (Or.inr rfl) ih

/-- Shielding nothing does as well. -/
theorem shielded_refl (gs : List Glyph) : Shielded gs gs := by
  induction gs with
  | nil => exact .nil
  | cons g gs ih => exact .cons (Or.inl rfl) ih

theorem Shielded.append {gs gs' hs hs' : List Glyph} (h : Shielded gs gs') (h' : Shielded hs hs') :
    Shielded (gs ++ hs) (gs' ++ hs') := List.rel_append h h'

/-- The body of a raw string, shielded up to its end. -/
theorem shielded_raw (close : Text) (gs : List Glyph) : Shielded gs (shieldRaw close gs) := by
  induction gs with
  | nil => exact .nil
  | cons g gs ih =>
    rw [shieldRaw]
    split
    · exact shielded_refl _
    · exact .cons (Or.inr rfl) ih

/-- The glyphs of a piece, shielded as its kind allows. -/
theorem Piece.shielded (p : Piece) : Shielded p.glyphs p.shieldGlyphs := by
  unfold Piece.shieldGlyphs
  split
  · have h := (shielded_refl (p.glyphs.take p.rawOffset)).append
      (shielded_raw (closing p.delimiter) (p.glyphs.drop p.rawOffset))
    rwa [List.take_append_drop] at h
  · exact shielded_map _

/-- The bytes stay. -/
theorem Shielded.bytes_eq {gs gs' : List Glyph} (h : Shielded gs gs') : bytes gs' = bytes gs := by
  induction h with
  | nil => rfl
  | cons hg hgs ih =>
    rw [bytes, List.map_cons, ← bytes, ih]
    rcases hg with rfl | rfl
    · rfl
    · rw [Glyph.shield_byte]
      rfl

theorem Shielded.length_eq {gs gs' : List Glyph} (h : Shielded gs gs') : gs'.length = gs.length :=
  (List.Forall₂.length_eq h).symm

/-- Where nothing is spliced in, nothing was. -/
theorem Shielded.all_isEmpty {gs gs' : List Glyph} (h : Shielded gs gs')
    (hall : gs'.all (·.splice.isEmpty) = true) : gs.all (·.splice.isEmpty) = true := by
  induction h with
  | nil => rfl
  | @cons g g' gs gs' hg hgs ih =>
    rw [List.all_cons, Bool.and_eq_true] at hall ⊢
    refine ⟨?_, ih hall.2⟩
    rcases hg with rfl | rfl
    · exact hall.1
    · have hshield := hall.1
      unfold Glyph.shield at hshield
      split at hshield
      · exact absurd hshield (by simp)
      · exact hshield

@[simp] theorem Piece.shield_text (p : Piece) : p.shield.text = p.text := p.shielded.bytes_eq

theorem Piece.shield_sourceToken (p : Piece) :
    p.shield.sourceToken = p.sourceToken ∧ p.shield.isAllowed = p.isAllowed :=
  Piece.sourceToken_congr rfl p.shield_text

/-! ## Raw string literals -/

/-- Whether a raw string closes here, whatever stands further behind. -/
theorem closesAt_append {close : Text} {g : Glyph} {gs : List Glyph}
    (hle : close.length ≤ gs.length + 1) (rest : List Glyph) :
    closesAt close g (gs ++ rest) = closesAt close g gs := by
  have hbytes : bytes (g :: (gs ++ rest)) = bytes (g :: gs) ++ bytes rest := by simp [bytes]
  have hiff : close <+: bytes (g :: gs) ++ bytes rest ↔ close <+: bytes (g :: gs) := by
    constructor
    · intro h
      refine List.prefix_of_prefix_length_le h (List.prefix_append _ _) ?_
      rwa [bytes, List.length_map]
    · exact fun h => h.trans (List.prefix_append _ _)
  rw [closesAt, closesAt, hbytes, List.take_append_of_le_length (by omega), Bool.eq_iff_iff,
    Bool.and_eq_true, Bool.and_eq_true, List.isPrefixOf_iff_prefix, List.isPrefixOf_iff_prefix, hiff]

/-- What closes is there. -/
theorem length_le_of_closesAt {close : Text} {g : Glyph} {gs : List Glyph}
    (h : closesAt close g gs = true) : close.length ≤ gs.length + 1 := by
  rw [closesAt, Bool.and_eq_true, List.isPrefixOf_iff_prefix] at h
  have hle := h.1.length_le
  rwa [bytes, List.length_map] at hle

/-- A splice closes nothing. -/
theorem Shielded.closesAt {close : Text} {g g' : Glyph} {gs gs' : List Glyph}
    (h : Shielded (g :: gs) (g' :: gs')) (hcloses : closesAt close g' gs' = true) :
    closesAt close g gs = true := by
  rw [Cpp.closesAt, Bool.and_eq_true, h.bytes_eq] at hcloses
  rw [Cpp.closesAt, Bool.and_eq_true]
  cases h with
  | cons _ hgs => exact ⟨hcloses.1, Shielded.all_isEmpty (List.forall₂_take _ hgs) hcloses.2⟩

/-- **What closes a raw string literal** is in its place. -/
theorem rawEnd_shieldRaw {close : Text} {gs rest rest' : List Glyph} (hclose : close ≠ [])
    (hrest : Shielded rest rest') (hle : rawEnd close (gs ++ rest) ≤ gs.length) :
    rawEnd close (shieldRaw close gs ++ rest') = rawEnd close (gs ++ rest) := by
  have hpos := List.length_pos_iff.mpr hclose
  induction gs with
  | nil =>
    cases hrest with
    | nil => rfl
    | cons hg hgs =>
      -- something would be left
      exfalso
      rw [List.nil_append, rawEnd_cons, List.length_nil] at hle
      split at hle <;> omega
  | cons g gs ih =>
    rw [List.cons_append, rawEnd_cons] at hle ⊢
    by_cases hhere : closesAt close g (gs ++ rest) = true
    · -- it is closed here, within the piece
      rw [if_pos hhere, List.length_cons] at hle
      have hinner : closesAt close g gs = true := by rwa [closesAt_append hle] at hhere
      rw [if_pos hhere, shieldRaw, if_pos hinner, List.cons_append, rawEnd_cons,
        closesAt_append hle, if_pos hinner]
    · have hinner : ¬ closesAt close g gs = true := fun h =>
        hhere (by rwa [closesAt_append (length_le_of_closesAt h)])
      have hshielded : Shielded (g :: (gs ++ rest)) (g.shield :: (shieldRaw close gs ++ rest')) :=
        .cons (Or.inr rfl) ((shielded_raw close gs).append hrest)
      have hnot : ¬ closesAt close g.shield (shieldRaw close gs ++ rest') = true :=
        fun h => hhere (hshielded.closesAt h)
      rw [if_neg hhere, List.length_cons] at hle
      rw [if_neg hhere, shieldRaw, if_neg hinner, List.cons_append, rawEnd_cons, if_neg hnot,
        ih (by omega)]

/-- Where no raw string literal is opened, splices open none. -/
theorem Shielded.rawLength_eq_none {gs gs' : List Glyph} (h : Shielded gs gs')
    (hnone : rawLength gs = none) : rawLength gs' = none := by
  cases hsome : rawLength gs' with
  | none => rfl
  | some m =>
    exfalso
    obtain ⟨delim, rest, rfl, hdelim, hle, -⟩ := rawLength_eq_some_iff.mp hsome
    -- a glyph without a splice is as it was
    have hback : ∀ {g g' : Glyph}, (g' = g ∨ g' = g.shield) → g'.splice = [] → g' = g := by
      rintro g g' (rfl | rfl) hsplice
      · rfl
      · unfold Glyph.shield at hsplice ⊢
        split at hsplice
        · exact absurd hsplice (by simp)
        · rename_i hterminal
          rw [if_neg hterminal]
    have hsame : ∀ {delim gs : List Glyph}, Shielded gs (delim ++ paren :: rest) →
        (∀ g ∈ delim, isDelimiter g = true) → ∃ rest', gs = delim ++ paren :: rest' := by
      intro delim
      induction delim with
      | nil =>
        intro gs hgs _
        cases hgs with
        | @cons g _ gs _ hg _ => exact ⟨gs, by rw [← hback hg rfl]; rfl⟩
      | cons d delim ih =>
        intro gs hgs hdelim
        cases hgs with
        | @cons g _ gs _ hg hgs =>
          obtain ⟨rest', hrest'⟩ := ih hgs fun g hg => hdelim g (List.mem_cons_of_mem d hg)
          have hsplice : d.splice = [] := by
            have hd := hdelim d List.mem_cons_self
            rw [isDelimiter, Bool.and_eq_true, Bool.and_eq_true, List.isEmpty_iff] at hd
            exact hd.1.1
          exact ⟨rest', by rw [hrest', ← hback hg hsplice]; rfl⟩
    obtain ⟨rest', rfl⟩ := hsame h hdelim
    have hraw := rawLength_eq_some_iff.mpr ⟨delim, rest', rfl, hdelim, hle, rfl⟩
    rw [hnone] at hraw
    exact absurd hraw (by simp)

/-! ## The pieces of a shielded text -/

/-- The first piece depends on the bytes and on where a literal would end. -/
theorem lexeme_congr {ctx : Context} {gs gs' : List Glyph} (hbytes : bytes gs' = bytes gs)
    (hliteral : literalLength ((bytes gs).takeWhile isIdent)
        (gs'.drop ((bytes gs).takeWhile isIdent).length) =
      literalLength ((bytes gs).takeWhile isIdent)
        (gs.drop ((bytes gs).takeWhile isIdent).length)) : lexeme ctx gs' = lexeme ctx gs := by
  unfold lexeme
  rw [hbytes]
  cases hgs : bytes gs with
  | nil => rfl
  | cons b t =>
    rw [hgs] at hliteral
    dsimp only
    rw [take_takeWhile_length, hliteral]

/-- A literal ends at the same glyph, raw strings given. -/
theorem Shielded.literalLength_eq {start : Text} {gs gs' : List Glyph} (h : Shielded gs gs')
    (hraw : ∀ q rest q' rest', gs = q :: rest → gs' = q' :: rest' → q.byte = quote →
      start ∈ rawStarts → rawLength rest' = rawLength rest) :
    literalLength start gs' = literalLength start gs := by
  cases h with
  | nil => rfl
  | @cons g g' gs gs' hg hgs =>
    have hbyte : g'.byte = g.byte := by
      rcases hg with rfl | rfl
      · rfl
      · exact g.shield_byte
    rw [literalLength, literalLength, hbyte, Shielded.bytes_eq hgs]
    by_cases hcond : (decide (g.byte = quote) && rawStarts.contains start) = true
    · rw [Bool.and_eq_true, decide_eq_true_eq, List.contains_iff_mem] at hcond
      rw [hraw g gs g' gs' rfl rfl hcond.1 hcond.2]
    · have hnot : ∀ x y : Option Nat, (if decide (g.byte = quote) && [ascii "R", ascii "LR",
          ascii "uR", ascii "UR", ascii "u8R"].contains start then x else y) = y := by
        intro x y
        exact if_neg hcond
      rw [hnot, hnot]

/-- Behind its encoding prefix and a quote, a piece is a raw string literal. -/
theorem isRaw_of_lexeme {ctx : Context} {front rest : List Glyph} {q : Glyph} {m : Nat}
    (hfront : bytes front ∈ rawStarts) (hq : q.byte = quote) (hm : rawLength rest = some m)
    {p : Piece} (hp : p = firstPiece ctx (front ++ q :: rest)) :
    p.isRaw = true ∧ p.start = bytes front := by
  have hlexeme := lexeme_of_raw ctx hfront hq hm
  rw [firstPiece] at hp
  obtain ⟨j, hj⟩ : ∃ j, (lexeme ctx (front ++ q :: rest)).2 = front.length + (j + 1) := by
    refine ⟨(lexeme ctx (front ++ q :: rest)).2 - front.length - 1, ?_⟩
    rw [hlexeme]
    dsimp only
    omega
  have htext : p.text = bytes front ++ quote :: bytes (rest.take j) := by
    rw [hp, Piece.text, hj, List.take_length_add_append, List.take_succ_cons]
    simp [bytes, hq]
  obtain ⟨hstart, hbody⟩ := Piece.start_eq htext (isIdent_of_rawStart hfront) rfl
  have hlast : ∀ start ∈ rawStarts, start.getLast? = some (asciiByte 'R') := by decide
  refine ⟨?_, hstart⟩
  rw [Piece.isRaw, Piece.isString, hbody, hstart, hlast _ hfront, hp, hlexeme]
  rfl

/-- A raw string is shielded in front of its body and, in the body, up to its end. -/
theorem RawParts.shieldGlyphs_eq {p : Piece} {start : List Glyph} {q : Glyph}
    {delim body : List Glyph} (h : RawParts p start q delim body) (hraw : p.isRaw = true) :
    p.shieldGlyphs = start ++ q :: (delim ++ paren :: shieldRaw (closing (bytes delim)) body) := by
  obtain ⟨hstart, hdelim⟩ := h.delimiter_eq
  have hoffset : p.rawOffset = (start ++ q :: (delim ++ [paren])).length := by
    rw [Piece.rawOffset, hstart, hdelim, bytes, bytes, List.length_map, List.length_map]
    simp only [List.length_append, List.length_cons, List.length_nil]
    omega
  have hglyphs : p.glyphs = (start ++ q :: (delim ++ [paren])) ++ body := by
    rw [h.glyphs]
    simp
  rw [Piece.shieldGlyphs, if_pos hraw, hoffset, hglyphs, List.take_left, List.drop_left, hdelim]
  simp

/-- **The first piece** of a shielded text. -/
theorem lexeme_shield {ctx : Context} {gs rest' : List Glyph} {p : Piece}
    (hp : p = firstPiece ctx gs) (hrest : Shielded (gs.drop (lexeme ctx gs).2) rest') :
    lexeme ctx (p.shieldGlyphs ++ rest') = lexeme ctx gs := by
  have hglyphs : p.glyphs = gs.take (lexeme ctx gs).2 := by rw [hp, firstPiece]
  have hshielded : Shielded gs (p.shieldGlyphs ++ rest') := by
    have h := p.shielded.append hrest
    rwa [hglyphs, List.take_append_drop] at h
  refine lexeme_congr hshielded.bytes_eq ?_
  refine Shielded.literalLength_eq (List.forall₂_drop _ hshielded) fun q r q' r' hr hr' hq hstart => ?_
  generalize hfront : (bytes gs).takeWhile isIdent = start at hr hr' hstart
  have htail : Shielded r r' := by
    have h := List.forall₂_drop start.length hshielded
    rw [hr, hr'] at h
    cases h with
    | cons _ h => exact h
  cases hm : rawLength r with
  | none => exact htail.rawLength_eq_none hm
  | some m =>
    -- the piece is a raw string literal, in its parts
    have hgs : gs = gs.take start.length ++ q :: r := by rw [← hr, List.take_append_drop]
    have hbytes : bytes (gs.take start.length) = start := by
      rw [bytes, List.map_take, ← bytes, ← hfront]
      exact take_takeWhile_length isIdent _
    obtain ⟨hraw, hpstart⟩ : p.isRaw = true ∧ p.start = start := by
      rw [hgs] at hp
      have h := isRaw_of_lexeme (hbytes.symm ▸ hstart) hq hm hp
      rwa [hbytes] at h
    obtain ⟨start₂, q₂, delim, body, rest, hparts, hraws, hle, -⟩ := exists_rawParts hp hraw
    have hlength : start.length = start₂.length := by
      rw [← hpstart, hraws.delimiter_eq.1, bytes, List.length_map]
    have hrest' : Shielded rest rest' := by
      have hwhole := List.take_append_drop (lexeme ctx gs).2 gs
      rw [← hglyphs] at hwhole
      rwa [List.append_cancel_left (hwhole.trans hparts)] at hrest
    rw [hparts, hraws.glyphs, hlength, List.append_assoc, List.drop_left, List.cons_append,
      List.append_assoc, List.cons_append] at hr
    rw [hraws.shieldGlyphs_eq hraw, hlength, List.append_assoc, List.drop_left, List.cons_append,
      List.append_assoc, List.cons_append] at hr'
    obtain ⟨-, rfl⟩ := List.cons.inj hr
    obtain ⟨-, rfl⟩ := List.cons.inj hr'
    rw [← hm]
    have hinner : ∀ x : List Glyph, rawLength (delim ++ paren :: x) =
        some (delim.length + 1 + rawEnd (closing (bytes delim)) x) := fun x =>
      rawLength_eq_some_iff.mpr ⟨delim, x, rfl, hraws.delimiter.1, hraws.delimiter.2, rfl⟩
    rw [hinner, hinner, rawEnd_shieldRaw (by simp [closing]) hrest' hle]

/-- **The pieces of a shielded text** are the same, shielded. -/
theorem pieces_shield (ctx : Context) (gs : List Glyph) :
    pieces ctx 0 ((pieces ctx 0 gs).flatMap Piece.shieldGlyphs) =
      (pieces ctx 0 gs).map Piece.shield ∧
    Shielded gs ((pieces ctx 0 gs).flatMap Piece.shieldGlyphs) := by
  match gs with
  | [] => exact ⟨rfl, .nil⟩
  | g :: gs =>
    obtain ⟨hrest, hshielded⟩ := pieces_shield (ctx.next (firstPiece ctx (g :: gs)))
      ((g :: gs).drop (lexeme ctx (g :: gs)).2)
    rw [pieces_cons_eq, List.flatMap_cons, List.map_cons]
    generalize hp : firstPiece ctx (g :: gs) = p at hrest hshielded ⊢
    generalize hn : (lexeme ctx (g :: gs)).2 = n at hrest hshielded ⊢
    generalize hps : pieces (ctx.next p) 0 ((g :: gs).drop n) = ps at hrest hshielded ⊢
    have hglyphs : p.glyphs = (g :: gs).take n := by rw [← hp, firstPiece, hn]
    have hwhole : Shielded (g :: gs) (p.shieldGlyphs ++ ps.flatMap Piece.shieldGlyphs) := by
      have h := p.shielded.append hshielded
      rwa [hglyphs, List.take_append_drop] at h
    refine ⟨?_, hwhole⟩
    have hlexeme : lexeme ctx (p.shieldGlyphs ++ ps.flatMap Piece.shieldGlyphs) =
        lexeme ctx (g :: gs) := lexeme_shield hp.symm (hn.symm ▸ hshielded)
    -- the piece goes up to the same place
    have hplace : (p.shieldGlyphs ++ ps.flatMap Piece.shieldGlyphs).take n = p.shieldGlyphs ∧
        (p.shieldGlyphs ++ ps.flatMap Piece.shieldGlyphs).drop n =
          ps.flatMap Piece.shieldGlyphs := by
      have hlength := p.shielded.length_eq
      rw [hglyphs, List.length_take] at hlength
      by_cases hle : n ≤ (g :: gs).length
      · rw [Nat.min_eq_left hle] at hlength
        exact ⟨List.take_left' hlength, List.drop_left' hlength⟩
      · have hnil : ps.flatMap Piece.shieldGlyphs = [] := by
          have hlength := hshielded.length_eq
          rw [List.drop_eq_nil_of_le (by omega)] at hlength
          exact List.eq_nil_of_length_eq_zero hlength
        rw [hnil, List.append_nil]
        exact ⟨List.take_of_length_le (by omega), List.drop_of_length_le (by omega)⟩
    obtain ⟨g', gs', hgs'⟩ : ∃ g' gs', p.shieldGlyphs ++ ps.flatMap Piece.shieldGlyphs = g' :: gs' :=
      List.exists_cons_of_length_pos (by rw [hwhole.length_eq]; exact Nat.succ_pos _)
    have hnext : ctx.next p.shield = ctx.next p := by
      unfold Context.next
      rw [Piece.shield_text]
      rfl
    have hfirst : firstPiece ctx (p.shieldGlyphs ++ ps.flatMap Piece.shieldGlyphs) = p.shield := by
      rw [firstPiece, hlexeme, hn, hplace.1, Piece.shield, ← hp, firstPiece]
    rw [hgs', pieces_cons_eq, ← hgs', hfirst, hnext, hlexeme, hn, hplace.2, hrest]
termination_by gs.length
decreasing_by
  rw [List.length_drop, List.length_cons]
  exact Nat.sub_lt (Nat.succ_pos _) (lexeme_spec ctx g gs).2.1

/-! ## Nothing to be found -/

/-- No pattern of a signature ends in a text with this one in front. -/
def Quiet (u t : Text) : Prop :=
  ∀ threat ∈ threatPatterns, ∀ v b w, t = v ++ b :: w → ∀ front p, u ++ (v ++ [b]) = front ++ p →
    threat.1 p → ¬ (threat.2 = true → WordBoundary front)

/-- Whatever stands in front. -/
def Silent (t : Text) : Prop := ∀ u, Quiet u t

/-- Quiet stretches follow one another. -/
theorem Quiet.append {u t t' : Text} (h : Quiet u t) (h' : Quiet (u ++ t) t') :
    Quiet u (t ++ t') := by
  intro threat hmem v b w heq front p hfront hp
  rcases List.append_eq_append_iff.mp heq with ⟨c, rfl, hc⟩ | ⟨c, ht, hc⟩
  · exact h' threat hmem c b w hc front p (by rw [← hfront]; simp) hp
  · cases c with
    | nil =>
      rw [List.append_nil] at ht
      subst ht
      exact h' threat hmem [] b w hc.symm front p (by rw [← hfront]; simp) hp
    | cons d c =>
      obtain ⟨rfl, -⟩ := List.cons.inj hc
      exact h threat hmem v b c ht front p hfront hp

/-- So do silent ones. -/
theorem Silent.append {t t' : Text} (h : Silent t) (h' : Silent t') : Silent (t ++ t') :=
  fun u => (h u).append (h' (u ++ t))

/-- In a silent text no threat occurs. -/
theorem Silent.not_occurs {t : Text} (h : Silent t) : ∀ threat ∈ threatPatterns,
    ¬ Occurs threat.1 threat.2 t := by
  rintro threat hmem ⟨front, p, rest, rfl, hp, hfront⟩
  obtain ⟨inner, b, rfl, -, -⟩ := (compact_of_threat hmem hp).ends
  exact h [] threat hmem (front ++ inner) b rest (by simp) front (inner ++ [b]) (by simp) hp hfront

/-- A pattern ends in a terminal. -/
theorem silent_of_noTerminal {t : Text} (h : ∀ b ∈ t, isTerminal b = false) : Silent t := by
  intro u threat hmem v b w heq front p hfront hp
  obtain ⟨inner, c, rfl, hc, -⟩ := (compact_of_threat hmem hp).ends
  rw [← List.append_assoc, ← List.append_assoc] at hfront
  obtain rfl := (List.cons.inj (List.append_inj' hfront rfl).2).1
  rw [h b (by rw [heq]; simp)] at hc
  exact absurd hc (by simp)

/-- The bytes that no pattern holds. -/
def isForeign (b : Byte) : Bool := b = escape || b = quote || b = asciiByte ')'

/-- A threat holds no foreign byte and is longer than two. -/
theorem notMem_of_threat {threat : (Text → Prop) × Bool} (hmem : threat ∈ threatPatterns) {p : Text}
    (hp : threat.1 p) {x : Byte} (hx : isForeign x = true) : x ∉ p ∧ 2 < p.length := by
  have hspaces : ∀ {sp : Text}, Spaces sp → x ∉ sp := by
    intro sp hsp hmem
    have hspace := hsp x hmem
    simp only [isForeign, Bool.or_eq_true, decide_eq_true_eq] at hx
    rcases hx with (rfl | rfl) | rfl <;> exact absurd hspace (by decide)
  have hword : ∀ w : String, (ascii w).all (fun b => !isForeign b) = true → x ∉ ascii w := by
    intro w hw hmem
    have h := List.all_eq_true.mp hw x hmem
    rw [hx] at h
    exact absurd h (by simp)
  -- a call is made of a name, white space and a parenthesis
  have hcall : ∀ {names : List String}, (∀ name ∈ names,
      (ascii name).all (fun b => !isForeign b) = true ∧ 2 < (ascii name).length) →
      CallPattern names p → x ∉ p ∧ 2 < p.length := by
    rintro names hnames ⟨name, hname, sp, hsp, rfl⟩
    obtain ⟨hname, hlength⟩ := hnames name hname
    simp only [List.mem_append, not_or, List.length_append]
    exact ⟨⟨hword name hname, hspaces hsp, hword "(" (by decide)⟩, by omega⟩
  -- an include of its own letters and white space
  have hinclude : ∀ {header : String}, (ascii header).all (fun b => !isForeign b) = true →
      IncludePattern header p → x ∉ p ∧ 2 < p.length := by
    rintro header hheader ⟨sp₁, sp₂, sp₃, h₁, h₂, h₃, rfl⟩
    have hstart : 2 < (ascii "#include").length := by decide
    simp only [List.mem_append, not_or, List.length_append]
    exact ⟨⟨hword "#include" (by decide), hspaces h₁, hword "<" (by decide), hspaces h₂,
      hword header hheader, hspaces h₃, hword ">" (by decide)⟩, by omega⟩
  simp only [threatPatterns, List.mem_cons, List.not_mem_nil, or_false] at hmem
  rcases hmem with rfl | rfl | rfl | rfl
  · exact hinclude (by decide) hp
  · exact hinclude (by decide) hp
  · exact hcall (by decide) hp
  · exact hcall (by decide) hp

/-- What does not hold a byte lies behind it. -/
theorem behind_of_notMem {u d front p : Text} {x : Byte} (hx : x ∉ p)
    (h : u ++ x :: d = front ++ p) : ∃ c, d = c ++ p ∧ front = u ++ x :: c := by
  rcases List.append_eq_append_iff.mp h with ⟨c, rfl, hc⟩ | ⟨c, rfl, hc⟩
  · cases c with
    | nil => exact absurd (by rw [← (show x :: d = p by simpa using hc)]; simp) hx
    | cons y c =>
      obtain ⟨rfl, hd⟩ := List.cons.inj hc
      exact ⟨c, hd, rfl⟩
  · exact absurd (by rw [hc]; simp) hx

/-- A pattern that ends behind a foreign byte starts behind it. -/
theorem quiet_behind {t : Text} {x : Byte} (hx : isForeign x = true)
    (ht : ∀ threat ∈ threatPatterns, ¬ Occurs threat.1 threat.2 (quote :: t)) (u : Text) :
    Quiet (u ++ [x]) t := by
  rintro threat hmem v b w rfl front p hfront hp hbounded
  rw [List.append_assoc, List.singleton_append] at hfront
  obtain ⟨c, hc, rfl⟩ := behind_of_notMem (notMem_of_threat hmem hp hx).1 hfront
  refine ht threat hmem ⟨quote :: c, p, w, ?_, hp, fun hb d hd => ?_⟩
  · have hend : v ++ b :: w = (v ++ [b]) ++ w := by simp
    rw [hend, hc]
    simp
  · cases c with
    | nil =>
      rw [← Option.some.inj hd]
      rfl
    | cons e c =>
      refine hbounded hb d ?_
      rw [List.getLast?_append, List.getLast?_cons_cons]
      rw [List.getLast?_cons_cons] at hd
      rw [hd]
      rfl

/-- **A shielded terminal** ends no pattern: there is none in the splice. -/
theorem silent_shield {g : Glyph} (hg : ∀ b ∈ g.splice, isTerminal b = false) :
    Silent g.shield.raw := by
  unfold Glyph.shield
  split
  · have hraw : (⟨g.splice ++ [escape, newline], g.byte⟩ : Glyph).raw =
        (g.splice ++ [escape]) ++ [newline, g.byte] := by simp [Glyph.raw]
    rw [hraw]
    intro u
    refine Quiet.append (silent_of_noTerminal (fun b hb => ?_) u) ?_
    · rcases List.mem_append.mp hb with hb | hb
      · exact hg b hb
      · rw [List.mem_singleton.mp hb]
        rfl
    · intro threat hmem v b w heq front p hfront hp _
      obtain ⟨hescape, hlength⟩ := notMem_of_threat hmem hp (x := escape) rfl
      have hsplit : (u ++ g.splice) ++ escape :: (v ++ [b]) = front ++ p := by
        rw [← hfront]
        simp
      obtain ⟨c, hc, -⟩ := behind_of_notMem hescape hsplit
      -- there is no room for it
      have hc := congrArg List.length hc
      have heq := congrArg List.length heq
      simp only [List.length_append, List.length_cons, List.length_nil] at hc heq
      omega
  · rename_i hterminal
    refine silent_of_noTerminal fun b hb => ?_
    rcases List.mem_append.mp hb with hb | hb
    · exact hg b hb
    · rw [List.mem_singleton.mp hb]
      exact Bool.not_eq_true _ ▸ hterminal

/-- Shielded glyphs are silent. -/
theorem silent_flatMap_shield {gs : List Glyph}
    (hgs : ∀ g ∈ gs, ∀ b ∈ g.splice, isTerminal b = false) :
    Silent ((gs.map Glyph.shield).flatMap Glyph.raw) := by
  induction gs with
  | nil => exact silent_of_noTerminal (by simp)
  | cons g gs ih =>
    exact (silent_shield (hgs g List.mem_cons_self)).append
      (ih fun g' hg' => hgs g' (List.mem_cons_of_mem g hg'))

/-- So are letters and digits. -/
theorem silent_of_idents {gs : List Glyph} (hgs : ∀ g ∈ gs, ∀ b ∈ g.splice, isTerminal b = false)
    (hident : ∀ g ∈ gs, isIdent g.byte = true) : Silent (gs.flatMap Glyph.raw) := by
  refine silent_of_noTerminal fun b hb => ?_
  obtain ⟨g, hg, hb⟩ := List.mem_flatMap.mp hb
  rcases List.mem_append.mp hb with hb | hb
  · exact hgs g hg b hb
  · rw [List.mem_singleton.mp hb, isTerminal, Bool.or_eq_false_iff, decide_eq_false_iff_not,
      decide_eq_false_iff_not]
    constructor
    · intro hbyte
      exact absurd (hbyte ▸ hident g hg) (by decide)
    · intro hbyte
      exact absurd (hbyte ▸ hident g hg) (by decide)

/-- The contents of a raw string literal, with what closes it. -/
theorem silent_shieldRaw {delim : Text} {gs rest : List Glyph}
    (hopening : ∀ threat ∈ threatPatterns, ¬ Occurs threat.1 threat.2 (quote :: (delim ++ ascii "(")))
    (hgs : ∀ g ∈ gs, ∀ b ∈ g.splice, isTerminal b = false)
    (hle : rawEnd (closing delim) (gs ++ rest) ≤ gs.length)
    (hident : ∀ g ∈ gs.drop (rawEnd (closing delim) (gs ++ rest)), isIdent g.byte = true) :
    Silent ((shieldRaw (closing delim) gs).flatMap Glyph.raw) := by
  induction gs with
  | nil => exact silent_of_noTerminal (by simp [shieldRaw])
  | cons g gs ih =>
    rw [List.cons_append, rawEnd_cons] at hle hident
    rw [shieldRaw]
    have hrest : ∀ g ∈ gs, ∀ b ∈ g.splice, isTerminal b = false :=
      fun g' hg' => hgs g' (List.mem_cons_of_mem g hg')
    by_cases hinner : closesAt (closing delim) g gs = true
    · -- closed: the delimiter stays as it is
      have hlength := length_le_of_closesAt hinner
      rw [closesAt_append hlength, if_pos hinner] at hident
      rw [if_pos hinner]
      rw [closesAt, Bool.and_eq_true, List.isPrefixOf_iff_prefix] at hinner
      obtain ⟨⟨suffix, hsuffix⟩, hunspliced⟩ := hinner
      have hcount : (closing delim).length - 1 = (delim ++ [quote]).length := rfl
      obtain ⟨hbyte, hbytes⟩ := List.cons.inj hsuffix
      -- unspliced, so its bytes are those of the closing delimiter
      have htake : (gs.take (delim ++ [quote]).length).flatMap Glyph.raw = delim ++ [quote] := by
        rw [hcount] at hunspliced
        rw [flatMap_raw_of_unspliced fun g' hg' =>
          List.isEmpty_iff.mp (List.all_eq_true.mp hunspliced g' hg'), bytes, List.map_take]
        exact hbytes ▸ List.take_left
      have hraw : (g :: gs).flatMap Glyph.raw = (g.splice ++ [asciiByte ')']) ++
          (delim ++ ([quote] ++ (gs.drop (delim ++ [quote]).length).flatMap Glyph.raw)) := by
        conv_lhs => rw [← List.take_append_drop (delim ++ [quote]).length gs]
        rw [List.flatMap_cons, List.flatMap_append, htake, Glyph.raw, ← hbyte]
        simp
      -- what the opening delimiter does not complete, the closing one does not
      have hopen : ∀ threat ∈ threatPatterns, ¬ Occurs threat.1 threat.2 (quote :: delim) := by
        rintro threat hmem ⟨front, p, w, heq, hp, hfront⟩
        refine hopening threat hmem ⟨front, p, w ++ ascii "(", ?_, hp, hfront⟩
        rw [← List.cons_append, heq]
        simp
      rw [hraw]
      intro u
      refine Quiet.append (Silent.append (silent_of_noTerminal (hgs g List.mem_cons_self))
        (silent_of_noTerminal (eq_false_of_any (by decide))) u) ?_
      rw [← List.append_assoc]
      refine (quiet_behind rfl hopen _).append ((silent_of_noTerminal
        (eq_false_of_any (by decide))).append (silent_of_idents (fun g' hg' => ?_) fun g' hg' => ?_) _)
      · exact hrest g' (List.mem_of_mem_drop hg')
      · exact hident g' hg'
    · -- not closed here, also not with what stands behind
      have hhere : ¬ closesAt (closing delim) g (gs ++ rest) = true := by
        intro h
        rw [if_pos h, List.length_cons] at hle
        exact hinner (by rwa [closesAt_append hle] at h)
      rw [if_neg hhere, List.length_cons] at hle
      rw [if_neg hhere, Nat.add_comm, List.drop_succ_cons] at hident
      rw [if_neg hinner, List.flatMap_cons]
      exact (silent_shield (hgs g List.mem_cons_self)).append (ih hrest (by omega) hident)

/-- **A shielded piece** is silent, unless it is a raw string literal with a threat in front of its
contents. -/
theorem silent_piece {ctx : Context} {gs : List Glyph} {p : Piece} (hp : p = firstPiece ctx gs)
    (hgs : ∀ g ∈ gs, ∀ b ∈ g.splice, isTerminal b = false)
    (hopening : p.isRaw = true → ∀ threat ∈ threatPatterns, ¬ Occurs threat.1 threat.2 p.opening) :
    Silent (p.shieldGlyphs.flatMap Glyph.raw) := by
  have hsplices : ∀ g ∈ p.glyphs, ∀ b ∈ g.splice, isTerminal b = false := by
    intro g hg
    rw [hp, firstPiece] at hg
    exact hgs g (List.mem_of_mem_take hg)
  by_cases hraw : p.isRaw = true
  · -- a raw string: its prefix, its quote, its delimiter and its body, one after the other
    obtain ⟨start, q, delim, body, rest, hparts, hraws, hle, hident⟩ := exists_rawParts hp hraw
    have hopen : ∀ threat ∈ threatPatterns,
        ¬ Occurs threat.1 threat.2 (quote :: (bytes delim ++ ascii "(")) := by
      have h := hopening hraw
      rw [Piece.opening, hraws.delimiter_eq.2] at h
      exact h
    have hdelim := hraws.delimiter_raw
    have htext : p.shieldGlyphs.flatMap Glyph.raw =
        start.flatMap Glyph.raw ++ ((q.splice ++ [quote]) ++
        ((bytes delim ++ ascii "(") ++
          (shieldRaw (closing (bytes delim)) body).flatMap Glyph.raw)) := by
      rw [hraws.shieldGlyphs_eq hraw, List.flatMap_append, List.flatMap_cons, List.flatMap_append,
        List.flatMap_cons, hdelim, Glyph.raw, hraws.quoted]
      simp [Glyph.raw, paren, ascii]
    have hmem : ∀ g, g ∈ start ∨ g = q ∨ g ∈ body → ∀ b ∈ g.splice, isTerminal b = false := by
      intro g hg
      refine hsplices g ?_
      rw [hraws.glyphs]
      simp only [List.mem_append, List.mem_cons]
      tauto
    rw [htext]
    intro u
    refine (silent_of_idents (fun g hg => hmem g (Or.inl hg)) (fun g hg => ?_) u).append ?_
    · exact isIdent_of_rawStart hraws.start _ (List.mem_map_of_mem hg)
    · refine Quiet.append (Silent.append (silent_of_noTerminal (hmem q (Or.inr (Or.inl rfl))))
        (silent_of_noTerminal (eq_false_of_any (by decide))) _) ?_
      rw [← List.append_assoc]
      exact (quiet_behind rfl hopen _).append
        (silent_shieldRaw hopen (fun g hg => hmem g (Or.inr (Or.inr hg))) hle hident _)
  · -- in every other piece a splice stands between any two bytes
    rw [Piece.shieldGlyphs, if_neg hraw]
    exact silent_flatMap_shield hsplices

/-- And pieces each of which is. -/
theorem silent_pieces {ps : List Piece}
    (h : ∀ p ∈ ps, Silent (p.shieldGlyphs.flatMap Glyph.raw)) :
    Silent ((ps.flatMap Piece.shieldGlyphs).flatMap Glyph.raw) := by
  induction ps with
  | nil => exact silent_of_noTerminal (by simp)
  | cons p ps ih =>
    rw [List.flatMap_cons, List.flatMap_append]
    exact (h p List.mem_cons_self).append (ih fun p' hp' => h p' (List.mem_cons_of_mem p hp'))

/-- **Nothing is left to be found** in the shielded text, and its pieces are the same. -/
theorem exists_shielded {t : Text} (hopening : ∀ p ∈ piecesOf t, p.isRaw = true →
      ∀ threat ∈ threatPatterns, ¬ Occurs threat.1 threat.2 p.opening) :
    ∃ shielded, Silent shielded ∧ piecesOf shielded = (piecesOf t).map Piece.shield := by
  obtain ⟨hpieces, hshielded⟩ := pieces_shield .lineStart (glyphs [] 0 t)
  obtain ⟨shielded, hglyphs, trailing, htrailing, htext⟩ := exists_glyphs_eq_of_shielded hshielded
  have hreads : Reads t (glyphs [] 0 t) := reads_glyphs (.nil t)
  refine ⟨shielded, ?_, ?_⟩
  · rw [htext]
    refine (silent_pieces fun p hp => ?_).append (silent_of_noTerminal htrailing.noTerminal)
    obtain ⟨ctx, gs, hfirst, hsuffix⟩ := exists_firstPiece hp
    exact silent_piece hfirst (fun g hg => hreads.noTerminal g (hsuffix.subset hg)) (hopening p hp)
  · rw [piecesOf, hglyphs, hpieces, piecesOf]

end Swayam.Cpp
