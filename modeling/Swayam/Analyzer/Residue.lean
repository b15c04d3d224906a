import Swayam.Analyzer.Splices
import Swayam.Analyzer.SourceTokens

/-!
# SWAYAM — what the two passes leave of a source

The two expressions of the analyzer against the pieces that the compiler sees.
Where the one for comments matches at the comments and nowhere else, and the one
for strings at the string literals and nowhere else (`PassAgrees`), what is left
is the text of the other pieces, and the line splices in front of the rest.

* `regexRemove_of_passAgrees` — one pass;
* `strip_eq_residue` — the two passes;
* `exists_reads_residue` — what is left reads as the glyphs of the other pieces.

The texts are read as they stand: a mark in front of a source is behind them.
-/

namespace Swayam.Cpp

/-! ## Pieces as they are written -/

section Written

variable (p : Piece)

def Piece.raw : Text := p.glyphs.flatMap Glyph.raw

/-- The line splices in front of a piece. -/
def Piece.lead : Text := (p.glyphs.head?.map Glyph.splice).getD []

/-- The piece behind them. -/
def Piece.own : Text := p.raw.drop p.lead.length

def Piece.isComment : Bool := p.kind = .comment

/-- A piece that is neither a comment nor a string literal. -/
def Piece.isKept : Bool := !p.isComment && !p.isString

/-- What a pass leaves of a piece that it takes out. -/
def Piece.without (removed : Piece → Bool) (written : Piece → Text) : Text :=
  if removed p then p.lead else written p

/-- What the pass for comments leaves. -/
def Piece.uncommented : Text := p.without Piece.isComment Piece.raw

/-- What the pass for strings leaves of that. -/
def Piece.residue : Text := p.without Piece.isString Piece.uncommented

end Written

/-- The line splices at the end of a text. -/
def trailing (t : Text) : Text :=
  t.drop ((piecesOf t).flatMap Piece.raw).length

/-- The first glyph of a piece makes its start. -/
theorem Piece.lead_eq {p : Piece} {g : Glyph} {gs : List Glyph} (h : p.glyphs = g :: gs) :
    p.lead = g.splice ∧ p.own = g.byte :: gs.flatMap Glyph.raw := by
  have hlead : p.lead = g.splice := by
    rw [lead, h]
    rfl
  have hraw : p.raw = g.splice ++ g.byte :: gs.flatMap Glyph.raw := by
    rw [raw, h, List.flatMap_cons, Glyph.raw]
    simp
  refine ⟨hlead, ?_⟩
  rw [own, hlead, hraw, List.drop_left]

/-- A piece is the splices in front of it and its own bytes. -/
theorem Piece.raw_eq (p : Piece) : p.raw = p.lead ++ p.own := by
  cases hglyphs : p.glyphs with
  | nil => rw [own, raw, lead, hglyphs]; rfl
  | cons g gs =>
    obtain ⟨hlead, hown⟩ := Piece.lead_eq hglyphs
    rw [hlead, hown, raw, hglyphs, List.flatMap_cons, Glyph.raw]
    simp

/-- **A text is its pieces**, with their splices. -/
theorem eq_flatMap_raw (t : Text) :
    t = (piecesOf t).flatMap Piece.raw ++ trailing t ∧
      Splices (trailing t) [] := by
  have hreads : Reads t (glyphs [] 0 t) := reads_glyphs (.nil t)
  obtain ⟨rest, hrest, htext⟩ := hreads.text
  have hraw : (glyphs [] 0 t).flatMap Glyph.raw = (piecesOf t).flatMap Piece.raw := by
    conv_lhs => rw [← (flatMap_pieces .lineStart (glyphs [] 0 t)).1, ← piecesOf]
    rw [List.flatMap_assoc]
    rfl
  rw [hraw] at htext
  have htrailing : trailing t = rest := by
    rw [trailing]
    generalize (piecesOf t).flatMap Piece.raw = u at htext ⊢
    rw [htext, List.drop_left]
  rw [htrailing]
  exact ⟨htext, hrest⟩

/-! ## One pass -/

/-- **An expression matches where it should**: at the pieces that a pass has to take out, as they
are written, and nowhere in the others. -/
def PassAgrees (matchLength : Text → Option Nat) (removed : Piece → Bool) (written : Piece → Text)
    (rest : Text) : List Piece → Bool
  | [] => true
  | p :: ps =>
    (if removed p then
      matchLength (p.own ++ (ps.flatMap written ++ rest)) = some p.own.length
    else (written p).tails.all fun v =>
      v.isEmpty || matchLength (v ++ (ps.flatMap written ++ rest)) = none) &&
      PassAgrees matchLength removed written rest ps

/-- A part at none of whose bytes a match starts stays. -/
theorem regexRemove_append_of_tails {matchLength : Text → Option Nat} {u : Text} (rest : Text)
    (h : ∀ v, v <:+ u → v ≠ [] → matchLength (v ++ rest) = none) :
    regexRemove matchLength 0 (u ++ rest) = u ++ regexRemove matchLength 0 rest := by
  induction u with
  | nil => rfl
  | cons b u ih =>
    have hb : matchLength (b :: (u ++ rest)) = none := h (b :: u) (List.suffix_refl _) (by simp)
    rw [List.cons_append, regexRemove_keep hb, ih fun v hv => h v (hv.trans (List.suffix_cons b u))]
    rfl

/-- **One pass** over pieces on which its expression agrees. -/
theorem regexRemove_of_passAgrees {matchLength : Text → Option Nat} {removed : Piece → Bool}
    {written : Piece → Text} {rest : Text}
    (hsplice : ∀ b t, b = escape ∨ isWhite b = true → matchLength (b :: t) = none)
    (hrest : ∀ b ∈ rest, b = escape ∨ isWhite b = true) {ps : List Piece}
    (hlead : ∀ p ∈ ps, ∀ b ∈ p.lead, b = escape ∨ isWhite b = true)
    (hwritten : ∀ p ∈ ps, removed p = true → written p = p.raw ∧ p.own ≠ [])
    (h : PassAgrees matchLength removed written rest ps = true) :
    regexRemove matchLength 0 (ps.flatMap written ++ rest) =
      ps.flatMap (fun p => p.without removed written) ++ rest := by
  have hkeep : ∀ {u : Text} (t : Text), (∀ b ∈ u, b = escape ∨ isWhite b = true) →
      regexRemove matchLength 0 (u ++ t) = u ++ regexRemove matchLength 0 t :=
    fun t hu => regexRemove_append_of_forall t fun b hb t => hsplice b t (hu b hb)
  -- the induction is on the pieces; `rest` is what comes behind all of them
  induction ps with
  | nil =>
    have h := hkeep [] hrest
    rw [List.append_nil] at h
    rw [List.flatMap_nil, List.nil_append, h]
    exact List.append_nil _
  | cons p ps ih =>
    rw [PassAgrees, Bool.and_eq_true] at h
    have hps := ih (fun q hq => hlead q (List.mem_cons_of_mem p hq))
      (fun q hq => hwritten q (List.mem_cons_of_mem p hq)) h.2
    rw [List.flatMap_cons, List.flatMap_cons, List.append_assoc, List.append_assoc, ← hps,
      Piece.without]
    by_cases hremoved : removed p = true
    · -- the splices in front of it stay
      obtain ⟨hraw, hne⟩ := hwritten p List.mem_cons_self hremoved
      have hmatch := h.1
      rw [if_pos hremoved, decide_eq_true_eq] at hmatch
      obtain ⟨b, own, hown⟩ := List.exists_cons_of_ne_nil hne
      rw [if_pos hremoved, hraw, p.raw_eq, List.append_assoc, hkeep _ (hlead p List.mem_cons_self)]
      rw [hown, List.cons_append, List.length_cons] at hmatch
      rw [hown, List.cons_append, regexRemove_match hmatch, List.drop_left]
    · -- a match would start at one of its bytes, and `PassAgrees` looks at each
      rw [if_neg hremoved]
      refine regexRemove_append_of_tails _ fun v hv hne => ?_
      have hall := h.1
      rw [if_neg hremoved, List.all_eq_true] at hall
      have hv' := hall v (List.mem_tails _ _ |>.mpr hv)
      rw [Bool.or_eq_true, List.isEmpty_iff, decide_eq_true_eq, or_iff_right hne] at hv'
      exact hv'

/-- What stands in front of a piece is line splices, and the piece itself is not empty. -/
theorem parts_of_mem_piecesOf {t : Text} {p : Piece} (hp : p ∈ piecesOf t) :
    (∀ b ∈ p.lead, b = escape ∨ isWhite b = true) ∧ p.own ≠ [] := by
  have hreads : Reads t (glyphs [] 0 t) := reads_glyphs (.nil t)
  obtain ⟨hflat, hall⟩ := flatMap_pieces .lineStart (glyphs [] 0 t)
  obtain ⟨g, gs, hglyphs⟩ := List.exists_cons_of_ne_nil (hall p hp).1
  obtain ⟨hlead, hown⟩ := Piece.lead_eq hglyphs
  have hg : g ∈ glyphs [] 0 t := by
    rw [← hflat]
    exact List.mem_flatMap.mpr ⟨p, hp, hglyphs ▸ List.mem_cons_self⟩
  obtain ⟨rest, hsplice⟩ := hreads.splices g hg
  rw [hlead, hown]
  exact ⟨hsplice.escape_or_white, List.cons_ne_nil _ _⟩

/-- **The two passes**, where both agree: the comments go and the strings go, up to the splices
in front of them. -/
theorem strip_eq_residue {t : Text}
    (hcomments : PassAgrees commentLength Piece.isComment Piece.raw (trailing t)
      (piecesOf t) = true)
    (hstrings : PassAgrees stringLength Piece.isString Piece.uncommented (trailing t)
      (piecesOf t) = true) :
    stripCommentsAndStrings t =
      (piecesOf t).flatMap Piece.residue ++ trailing t := by
  have hne : ∀ c, c ≠ escape → isWhite c = false →
      ∀ b : Byte, b = escape ∨ isWhite b = true → b ≠ c := by
    rintro c hescape hspace b hb rfl
    rcases hb with hb | hb
    · exact hescape hb
    · rw [hspace] at hb
      exact absurd hb (by simp)
  have htrailing := (eq_flatMap_raw t).2.escape_or_white
  have hlead : ∀ p ∈ piecesOf t, ∀ b ∈ p.lead, b = escape ∨ isWhite b = true :=
    fun p hp => (parts_of_mem_piecesOf hp).1
  -- the first pass works on the source, the second one on what the first one leaves
  have hone : stripComments t =
      (piecesOf t).flatMap Piece.uncommented ++ trailing t := by
    have hpass := regexRemove_of_passAgrees
      (fun b t hb => commentLength_cons_of_ne (hne slash (by decide) rfl b hb) t) htrailing hlead
      (fun p hp _ => ⟨rfl, (parts_of_mem_piecesOf hp).2⟩) hcomments
    rwa [← (eq_flatMap_raw t).1] at hpass
  rw [stripCommentsAndStrings_eq, hone]
  refine regexRemove_of_passAgrees
    (fun b t hb => stringLength_cons_of_ne (hne quote (by decide) rfl b hb) t) htrailing hlead
    (fun p hp hstring => ⟨?_, (parts_of_mem_piecesOf hp).2⟩) hstrings
  -- a string literal is no comment
  rw [Piece.isString, Bool.and_eq_true, decide_eq_true_eq] at hstring
  rw [Piece.uncommented, Piece.without, Piece.isComment, if_neg]
  rw [hstring.1]
  decide

/-! ## What is left, as glyphs -/

/-- The splices in front of a piece that is taken out do not go on behind it. -/
def SplicesStay (rest : Text) : List Piece → Bool
  | [] => true
  | p :: ps =>
    (p.isKept || !(p.lead.getLast? = some (asciiByte '\r') &&
      (ps.flatMap Piece.residue ++ rest).head? = some newline)) && SplicesStay rest ps

/-- A kept piece is left as it is. -/
theorem Piece.residue_of_kept {p : Piece} (h : p.isKept = true) : p.residue = p.raw := by
  rw [isKept, Bool.and_eq_true, Bool.not_eq_true', Bool.not_eq_true'] at h
  rw [residue, without, h.2, uncommented, without, h.1]
  rfl

/-- Of a removed piece the splices in front of it are left. -/
theorem Piece.residue_of_removed {p : Piece} (h : ¬ p.isKept = true) : p.residue = p.lead := by
  rw [residue, without]
  split
  · rfl
  · rename_i hstring
    rw [uncommented, without, if_pos]
    by_contra hcomment
    rw [isKept, Bool.eq_false_iff.mpr hstring, Bool.eq_false_iff.mpr hcomment] at h
    exact h rfl

/-- What reading a first glyph says about the text. -/
theorem Reads.cons_inv {t : Text} {g : Glyph} {gs : List Glyph} (h : Reads t (g :: gs)) :
    ∃ rest, t = g.splice ++ g.byte :: rest ∧ Splices g.splice (g.byte :: rest) ∧
      afterSplice (g.byte :: rest) = none ∧ Reads rest gs := by
  cases h with
  | cons hsplice hnone hrest => exact ⟨_, rfl, hsplice, hnone, hrest⟩

/-- The glyphs in front, one by one. -/
theorem Reads.raw_cons_inv {t : Text} {g : Glyph} {x gs : List Glyph}
    (h : Reads ((g :: x).flatMap Glyph.raw ++ t) (g :: x ++ gs)) :
    Splices g.splice (g.byte :: (x.flatMap Glyph.raw ++ t)) ∧
      afterSplice (g.byte :: (x.flatMap Glyph.raw ++ t)) = none ∧
      Reads (x.flatMap Glyph.raw ++ t) (x ++ gs) := by
  obtain ⟨rest, htext, hsplice, hnone, hrest⟩ := Reads.cons_inv h
  have hraw : (g :: x).flatMap Glyph.raw ++ t = g.splice ++ g.byte :: (x.flatMap Glyph.raw ++ t) := by
    rw [List.flatMap_cons, Glyph.raw]
    simp
  obtain ⟨-, hrest'⟩ := List.cons.inj (List.append_cancel_left (hraw.symm.trans htext))
  rw [← hrest'] at hsplice hnone hrest
  exact ⟨hsplice, hnone, hrest⟩

/-- Reading goes on behind the glyphs read. -/
theorem Reads.of_append {t : Text} {x gs : List Glyph}
    (h : Reads (x.flatMap Glyph.raw ++ t) (x ++ gs)) : Reads t gs := by
  induction x with
  | nil => exact h
  | cons g x ih => exact ih h.raw_cons_inv.2.2

/-- Behind a byte that is no white space, the rest does not count. -/
theorem lineEndAhead_append {u t t' : Text} (hu : ∃ c ∈ u, isBlank c = false)
    (h : LineEndAhead (u ++ t')) : LineEndAhead (u ++ t) := by
  induction u with
  | nil => exact absurd hu (by simp)
  | cons b u ih =>
    rw [List.cons_append, lineEndAhead_cons] at h ⊢
    by_cases hb : isBlank b = true
    · rw [if_pos hb] at h ⊢
      obtain ⟨c, hc, hblank⟩ := hu
      rcases List.mem_cons.mp hc with rfl | hc
      · rw [hb] at hblank
        exact absurd hblank (by simp)
      · exact ih ⟨c, hc, hblank⟩ h
    · rwa [if_neg hb] at h ⊢

/-- An escape is followed by something else than white space. -/
def EscapesClosed (x : List Glyph) : Prop :=
  ∀ u g v, x = u ++ g :: v → g.byte = escape → ∃ g' ∈ v, isBlank g'.byte = false

/-- **Another text behind a kept piece.** -/
theorem Reads.replace {t t' : Text} {x gs gs' : List Glyph}
    (h : Reads (x.flatMap Glyph.raw ++ t) (x ++ gs)) (h' : Reads t' gs') (hx : EscapesClosed x) :
    Reads (x.flatMap Glyph.raw ++ t') (x ++ gs') := by
  induction x with
  | nil => exact h'
  | cons g x ih =>
    obtain ⟨hsplice, hnone, hrest⟩ := h.raw_cons_inv
    -- an escape of the piece could only become a splice with the line end of another text
    have hnone' : afterSplice (g.byte :: (x.flatMap Glyph.raw ++ t')) = none := by
      rw [afterSplice_eq_none_iff] at hnone ⊢
      rintro ⟨hescape, hahead⟩
      obtain ⟨g', hg', hblank⟩ := hx [] g x rfl hescape
      refine hnone ⟨hescape, lineEndAhead_append ⟨g'.byte, ?_, hblank⟩ hahead⟩
      exact List.mem_flatMap.mpr ⟨g', hg', by simp [Glyph.raw]⟩
    have hsplice' : Splices g.splice (g.byte :: (x.flatMap Glyph.raw ++ t')) :=
      hsplice.congr fun h => h
    have hall := Reads.cons hsplice' hnone' (ih hrest fun u g' v heq =>
      hx (g :: u) g' v (by rw [heq]; rfl))
    have hraw : (g :: x).flatMap Glyph.raw ++ t' =
        g.splice ++ g.byte :: (x.flatMap Glyph.raw ++ t') := by
      rw [List.flatMap_cons, Glyph.raw]
      simp
    rw [hraw]
    exact hall

/-- Two runs of splices are one. -/
theorem Splices.trans {splice splice' t : Text} (h : Splices splice (splice' ++ t))
    (h' : Splices splice' t) : Splices (splice ++ splice') t := by
  generalize hu : splice' ++ t = u at h
  induction h with
  | nil => exact h'
  | cons hw hsplice ih =>
    subst hu
    rw [List.append_assoc]
    refine .cons ?_ (ih rfl)
    rwa [List.append_assoc]

/-- Only a carriage return at the end of a splice minds what is behind. -/
theorem Splices.congr_of_last {splice t t' : Text} (h : Splices splice t)
    (hlast : splice.getLast? = some (asciiByte '\r') → t'.head? ≠ some newline) :
    Splices splice t' := by
  induction h with
  | nil => exact .nil t'
  | @cons w splice t hw hsplice ih =>
    by_cases hne : splice = []
    · subst hne
      rw [List.append_nil] at hlast ⊢
      obtain ⟨blank, e, hblank, he, rfl⟩ := hw
      have hone : SpliceOf (escape :: (blank ++ e)) t' := by
        refine ⟨blank, e, hblank, ?_, rfl⟩
        rcases he with rfl | rfl | ⟨rfl, -⟩
        · exact Or.inl rfl
        · exact Or.inr (Or.inl rfl)
        · refine Or.inr (Or.inr ⟨rfl, hlast ?_⟩)
          rw [← List.cons_append, List.getLast?_concat]
      have hall : Splices (escape :: (blank ++ e) ++ []) t' := .cons hone (.nil t')
      rwa [List.append_nil] at hall
    · refine .cons (hw.congr fun h => ?_) (ih fun hend => hlast ?_)
      · rw [hsplice.head hne, ← hsplice.head hne t] at *
        exact h
      · rw [List.getLast?_append, hend]
        rfl

/-- Splices in front of a text are those of its first glyph. -/
theorem Reads.exists_merged {splice t : Text} {gs : List Glyph} (hsplice : Splices splice t)
    (h : Reads t gs) : ∃ gs', Reads (splice ++ t) gs' ∧ bytes gs' = bytes gs := by
  cases h with
  | nil hlast =>
    refine ⟨[], .nil (Splices.trans ?_ hlast), rfl⟩
    rwa [List.append_nil]
  | cons hfirst hnone hrest =>
    rw [← List.append_assoc]
    exact ⟨_, .cons (hsplice.trans hfirst) hnone hrest, rfl⟩

/-- **What is left of a source** reads as the bytes of the pieces that are kept. -/
theorem exists_reads_residue {rest : Text} {ps : List Piece}
    (h : Reads (ps.flatMap Piece.raw ++ rest) (ps.flatMap Piece.glyphs))
    (hne : ∀ p ∈ ps, p.glyphs ≠ []) (hstay : SplicesStay rest ps = true)
    (hclosed : ∀ p ∈ ps, p.isKept = true → EscapesClosed p.glyphs) :
    ∃ gs, Reads (ps.flatMap Piece.residue ++ rest) gs ∧
      bytes gs = (ps.filter Piece.isKept).flatMap Piece.text := by
  induction ps with
  | nil => exact ⟨[], h, rfl⟩
  | cons p ps ih =>
    rw [SplicesStay, Bool.and_eq_true] at hstay
    have hraw : (p :: ps).flatMap Piece.raw ++ rest =
        p.glyphs.flatMap Glyph.raw ++ (ps.flatMap Piece.raw ++ rest) := by
      rw [List.flatMap_cons, List.append_assoc]
      rfl
    rw [hraw, List.flatMap_cons] at h
    -- what is left of the pieces behind is read first
    obtain ⟨gs, hgs, hbytes⟩ := ih h.of_append (fun q hq => hne q (List.mem_cons_of_mem p hq))
      hstay.2 fun q hq => hclosed q (List.mem_cons_of_mem p hq)
    rw [List.flatMap_cons, List.append_assoc]
    by_cases hkept : p.isKept = true
    · -- its glyphs stay, in front of others than before
      rw [Piece.residue_of_kept hkept, List.filter_cons_of_pos hkept, List.flatMap_cons, ← hbytes]
      refine ⟨p.glyphs ++ gs, h.replace hgs (hclosed p List.mem_cons_self hkept), ?_⟩
      rw [bytes, List.map_append]
      rfl
    · -- its splices go to the first glyph behind it
      rw [Piece.residue_of_removed hkept, List.filter_cons_of_neg hkept, ← hbytes]
      obtain ⟨g, x, hglyphs⟩ := List.exists_cons_of_ne_nil (hne p List.mem_cons_self)
      have hlead := (Piece.lead_eq hglyphs).1
      rw [hglyphs] at h
      have hnot := hstay.1
      rw [Bool.eq_false_iff.mpr hkept, Bool.false_or, Bool.not_eq_true', Bool.and_eq_false_iff,
        decide_eq_false_iff_not, decide_eq_false_iff_not, hlead] at hnot
      rw [hlead]
      refine Reads.exists_merged (h.raw_cons_inv.1.congr_of_last fun hlast hhead => ?_) hgs
      rcases hnot with hnot | hnot
      · exact hnot hlast
      · exact hnot hhead

end Swayam.Cpp
