import Swayam.Analyzer.Threats
import Swayam.Analyzer.Tokens

/-!
# SWAYAM — texts with line splices put in

A text reads as a list of glyphs when it spells them out, splice by splice
(`Reads`); no other list reads so. In front of a glyph another splice may be put
in, wherever that is not a line end or white space (`shield`): the text so made
reads as the same bytes, and no signature of the analyzer goes on through it.

* `reads_glyphs`, `Reads.glyphs_eq` — the glyphs of a text are what it reads as;
* `Reads.exists_shielded` — splices that are put in front of parentheses and angle
  brackets are read as splices.
-/

namespace Swayam.Cpp

/-! ## Splices -/

def isBlank (b : Byte) : Bool := isWhite b && !isLineEnd b

/-- The end of a line in front of a text: a carriage return takes a newline with it. -/
def LineEnd (e t : Text) : Prop :=
  e = [newline] ∨ e = [asciiByte '\r', newline] ∨ (e = [asciiByte '\r'] ∧ t.head? ≠ some newline)

/-- What is left behind the blanks of a splice. -/
def behindBlanks : Text → Option Text
  | [] => none
  | c :: rest =>
    if isLineEnd c then
      if c = asciiByte '\r' ∧ rest.head? = some newline then some rest.tail else some rest
    else none

theorem afterSplice_cons (b : Byte) (t : Text) :
    afterSplice (b :: t) = if b = escape then behindBlanks (t.dropWhile isBlank) else none := rfl

/-- A line splice in front of a text. -/
def SpliceOf (w t : Text) : Prop :=
  ∃ blank e, (∀ b ∈ blank, isBlank b = true) ∧ LineEnd e t ∧ w = escape :: (blank ++ e)

/-- What is behind a splice is what follows one. -/
theorem afterSplice_eq_some_iff {t rest : Text} :
    afterSplice t = some rest ↔ ∃ w, SpliceOf w rest ∧ t = w ++ rest := by
  have hskip : ∀ {blank u : Text}, (∀ b ∈ blank, isBlank b = true) →
      (blank ++ u).dropWhile isBlank = u.dropWhile isBlank :=
    fun h => List.dropWhile_append_of_pos h
  constructor
  · intro h
    cases t with
    | nil => exact absurd h (by simp [afterSplice])
    | cons b t =>
      rw [afterSplice_cons] at h
      split at h
      · rename_i hb
        subst hb
        obtain ⟨blank, hblank, ht⟩ : ∃ blank, (∀ b ∈ blank, isBlank b = true) ∧
            t = blank ++ t.dropWhile isBlank :=
          ⟨t.takeWhile isBlank, fun b hb => List.mem_takeWhile_imp hb,
            List.takeWhile_append_dropWhile.symm⟩
        cases hdrop : t.dropWhile isBlank with
        | nil =>
          rw [hdrop] at h
          exact absurd h (by simp [behindBlanks])
        | cons c u =>
          -- the first byte that is no blank must end the line
          rw [hdrop] at h ht
          rw [behindBlanks] at h
          split at h
          · rename_i hc
            split at h
            · -- a carriage return with its line feed
              rename_i hcr
              obtain ⟨u, rfl⟩ : ∃ u', u = newline :: u' := by
                cases u with
                | nil => exact absurd hcr.2 (by simp)
                | cons d u => exact ⟨u, by rw [Option.some.inj hcr.2]⟩
              obtain rfl := Option.some.inj h
              refine ⟨_, ⟨blank, [asciiByte '\r', newline], hblank, Or.inr (Or.inl rfl), rfl⟩, ?_⟩
              rw [ht, hcr.1]
              simp
            · -- a line feed, or a carriage return alone
              rename_i hcr
              obtain rfl := Option.some.inj h
              refine ⟨_, ⟨blank, [c], hblank, ?_, rfl⟩, by rw [ht]; simp⟩
              rw [isLineEnd, Bool.or_eq_true, decide_eq_true_eq, decide_eq_true_eq] at hc
              rcases hc with rfl | rfl
              · exact Or.inl rfl
              · exact Or.inr (Or.inr ⟨rfl, fun hhead => hcr ⟨rfl, hhead⟩⟩)
          · exact absurd h (by simp)
      · exact absurd h (by simp)
  · rintro ⟨w, ⟨blank, e, hblank, he, rfl⟩, rfl⟩
    have hstop : ∀ c u, isBlank c = false → (blank ++ c :: u).dropWhile isBlank = c :: u := by
      intro c u hc
      rw [hskip hblank, List.dropWhile_cons_of_neg (by simp [hc])]
    have hcr : isLineEnd (asciiByte '\r') = true := rfl
    have hnewline : isLineEnd newline = true := rfl
    have hne : newline ≠ asciiByte '\r' := by decide
    rw [List.cons_append, afterSplice_cons, if_pos rfl]
    rcases he with rfl | rfl | ⟨rfl, hhead⟩
    · rw [List.append_assoc, List.singleton_append, hstop _ _ rfl, behindBlanks, if_pos hnewline,
        if_neg fun h => hne h.1]
    · rw [List.append_assoc, List.cons_append, hstop _ _ rfl, behindBlanks, if_pos hcr,
        if_pos ⟨rfl, rfl⟩]
      rfl
    · rw [List.append_assoc, List.singleton_append, hstop _ _ rfl, behindBlanks, if_pos hcr,
        if_neg fun h => hhead h.2]

/-- Another text behind a splice. -/
theorem SpliceOf.congr {w t t' : Text} (h : SpliceOf w t)
    (hhead : t'.head? = some newline → t.head? = some newline) : SpliceOf w t' := by
  obtain ⟨blank, e, hblank, he, rfl⟩ := h
  refine ⟨blank, e, hblank, ?_, rfl⟩
  rcases he with he | he | ⟨he, hnot⟩
  · exact Or.inl he
  · exact Or.inr (Or.inl he)
  · exact Or.inr (Or.inr ⟨he, fun h => hnot (hhead h)⟩)

/-- Nothing but line splices in front of a text. -/
inductive Splices : Text → Text → Prop
  | nil (t : Text) : Splices [] t
  | cons {w splice t : Text} : SpliceOf w (splice ++ t) → Splices splice t → Splices (w ++ splice) t

/-- A splice shows its backslash. -/
theorem SpliceOf.head {w t : Text} (h : SpliceOf w t) (u : Text) : (w ++ u).head? = some escape := by
  obtain ⟨blank, e, -, -, rfl⟩ := h
  rfl

/-- So does a run of them. -/
theorem Splices.head {splice t : Text} (h : Splices splice t) (hne : splice ≠ []) (u : Text) :
    (splice ++ u).head? = some escape := by
  cases h with
  | nil => exact absurd rfl hne
  | cons hw hsplice =>
    rw [List.append_assoc]
    exact hw.head _

/-- A run of splices stays one unless a line feed comes to stand behind. -/
theorem Splices.congr {splice t t' : Text} (h : Splices splice t)
    (hhead : t'.head? = some newline → t.head? = some newline) : Splices splice t' := by
  induction h with
  | nil => exact .nil t'
  | @cons w splice t hw hsplice ih =>
    refine .cons (hw.congr fun h => ?_) (ih hhead)
    -- behind other splices the text in front of which they stand does not count
    by_cases hne : splice = []
    · subst hne
      exact hhead h
    · rw [hsplice.head hne] at h
      exact absurd h (by decide)

/-- One more splice. -/
theorem Splices.append {splice w t : Text} (h : Splices splice (w ++ t)) (hw : SpliceOf w t) :
    Splices (splice ++ w) t := by
  generalize hu : w ++ t = u at h
  induction h with
  | nil =>
    have hone : Splices (w ++ []) t := .cons hw (.nil t)
    rwa [List.append_nil] at hone
  | cons hfirst hsplice ih =>
    subst hu
    rw [List.append_assoc]
    refine .cons ?_ (ih rfl)
    rwa [List.append_assoc]

/-- White space ends nothing. -/
theorem isTerminal_of_isWhite {b : Byte} (h : isWhite b = true) : isTerminal b = false := by
  rw [isWhite, Bool.or_eq_true, decide_eq_true_eq] at h
  rcases h with hspace | rfl
  · have hbarrier := isBarrier_of_isSpace hspace
    simp only [isBarrier, Bool.or_eq_false_iff] at hbarrier
    exact hbarrier.1.1.1.1
  · rfl

/-- A splice is an escape and white space. -/
theorem SpliceOf.escape_or_white {w t : Text} (h : SpliceOf w t) :
    ∀ b ∈ w, b = escape ∨ isWhite b = true := by
  obtain ⟨blank, e, hblank, he, rfl⟩ := h
  intro b hb
  rcases List.mem_cons.mp hb with rfl | hb
  · exact Or.inl rfl
  · refine Or.inr ?_
    rcases List.mem_append.mp hb with hb | hb
    · have hspace := hblank b hb
      rw [isBlank, Bool.and_eq_true] at hspace
      exact hspace.1
    · rcases he with rfl | rfl | ⟨rfl, -⟩ <;> exact List.all_eq_true.mp (by decide) b hb

/-- Splices are backslashes and white space. -/
theorem Splices.escape_or_white {splice t : Text} (h : Splices splice t) :
    ∀ b ∈ splice, b = escape ∨ isWhite b = true := by
  induction h with
  | nil => simp
  | cons hw hsplice ih =>
    intro b hb
    rcases List.mem_append.mp hb with hb | hb
    · exact hw.escape_or_white b hb
    · exact ih b hb

/-- A splice holds no parenthesis. -/
theorem Splices.noTerminal {splice t : Text} (h : Splices splice t) :
    ∀ b ∈ splice, isTerminal b = false := by
  intro b hb
  rcases h.escape_or_white b hb with rfl | hspace
  · rfl
  · exact isTerminal_of_isWhite hspace

/-! ## Texts and glyphs -/

/-- A text spells out glyphs; a splice may be left at its end. -/
inductive Reads : Text → List Glyph → Prop
  | nil {splice : Text} : Splices splice [] → Reads splice []
  | cons {splice rest : Text} {b : Byte} {gs : List Glyph} : Splices splice (b :: rest) →
      afterSplice (b :: rest) = none → Reads rest gs →
        Reads (splice ++ b :: rest) (⟨splice, b⟩ :: gs)

/-- A splice goes in front of the next glyph. -/
theorem glyphs_append_splice {w t : Text} (hw : SpliceOf w t) (front : Text) :
    glyphs front 0 (w ++ t) = glyphs (front ++ w) 0 t := by
  have hafter : afterSplice (w ++ t) = some t := afterSplice_eq_some_iff.mpr ⟨w, hw, rfl⟩
  obtain ⟨blank, e, -, -, rfl⟩ := hw
  rw [List.cons_append, glyphs]
  rw [List.cons_append] at hafter
  rw [hafter]
  dsimp only
  rw [List.length_append, Nat.add_sub_cancel, glyphs_skip, List.take_left, List.drop_left,
    List.append_assoc, List.singleton_append]

/-- So does a run of splices. -/
theorem glyphs_append_splices {splice t : Text} (h : Splices splice t) (front : Text) :
    glyphs front 0 (splice ++ t) = glyphs (front ++ splice) 0 t := by
  induction h generalizing front with
  | nil => rw [List.nil_append, List.append_nil]
  | cons hw hsplice ih => rw [List.append_assoc, glyphs_append_splice hw, ih, List.append_assoc]

/-- **No other glyphs** are those of a text. -/
theorem Reads.glyphs_eq {t : Text} {gs : List Glyph} (h : Reads t gs) : glyphs [] 0 t = gs := by
  induction h with
  | nil hsplice =>
    have hnil := glyphs_append_splices hsplice []
    rw [List.append_nil] at hnil
    rw [hnil]
    rfl
  | cons hsplice hnone hrest ih =>
    rw [glyphs_append_splices hsplice, List.nil_append, glyphs, hnone, ih]

/-- **A text reads as its glyphs.** -/
theorem reads_glyphs {front t : Text} (h : Splices front t) :
    Reads (front ++ t) (glyphs front 0 t) := by
  match t with
  | [] =>
    rw [List.append_nil, glyphs]
    exact .nil h
  | b :: t =>
    cases hafter : afterSplice (b :: t) with
    | none =>
      rw [glyphs, hafter]
      exact .cons h hafter (reads_glyphs (.nil t))
    | some rest =>
      obtain ⟨w, hw, heq⟩ := afterSplice_eq_some_iff.mp hafter
      have hlength : rest.length < (b :: t).length := by
        rw [heq, List.length_append]
        obtain ⟨blank, e, -, -, rfl⟩ := hw
        rw [List.length_cons]
        omega
      rw [heq] at h ⊢
      rw [glyphs_append_splice hw, ← List.append_assoc]
      exact reads_glyphs (h.append hw)
termination_by t.length
decreasing_by
  · exact Nat.lt_succ_self _
  · exact hlength

/-- The text is its glyphs and what splices end it. -/
theorem Reads.text {t : Text} {gs : List Glyph} (h : Reads t gs) :
    ∃ trailing, Splices trailing [] ∧ t = gs.flatMap Glyph.raw ++ trailing := by
  induction h with
  | nil hsplice => exact ⟨_, hsplice, rfl⟩
  | cons hsplice hnone hrest ih =>
    obtain ⟨trailing, htrailing, heq⟩ := ih
    refine ⟨trailing, htrailing, ?_⟩
    rw [heq, List.flatMap_cons, Glyph.raw]
    simp only [List.append_assoc, List.cons_append, List.nil_append]

/-- What stands in front of each glyph is line splices. -/
theorem Reads.splices {t : Text} {gs : List Glyph} (h : Reads t gs) :
    ∀ g ∈ gs, ∃ rest, Splices g.splice rest := by
  induction h with
  | nil => simp
  | cons hsplice hnone hrest ih =>
    intro g hg
    rcases List.mem_cons.mp hg with rfl | hg
    · exact ⟨_, hsplice⟩
    · exact ih g hg

/-- No splice holds a terminal byte. -/
theorem Reads.noTerminal {t : Text} {gs : List Glyph} (h : Reads t gs) :
    ∀ g ∈ gs, ∀ b ∈ g.splice, isTerminal b = false := by
  intro g hg
  obtain ⟨rest, hsplice⟩ := h.splices g hg
  exact hsplice.noTerminal

/-- A text without escapes in front. -/
theorem Reads.append_bare {u t : Text} {gs : List Glyph} (hu : escape ∉ u) (h : Reads t gs) :
    Reads (u ++ t) (u.map (fun b => ⟨[], b⟩) ++ gs) := by
  induction u with
  | nil => exact h
  | cons b u ih =>
    rw [List.mem_cons, not_or] at hu
    have hnone : afterSplice (b :: (u ++ t)) = none := by
      rw [afterSplice, if_neg fun hb => hu.1 hb.symm]
    exact .cons (.nil _) hnone (ih hu.2)

/-! ## Splices put in -/

/-- The next byte that is no white space ends a line. -/
def LineEndAhead (t : Text) : Prop :=
  ∃ c, (t.dropWhile isBlank).head? = some c ∧ isLineEnd c = true

/-- There is no splice unless a line end is ahead of a backslash. -/
theorem afterSplice_eq_none_iff {b : Byte} {t : Text} :
    afterSplice (b :: t) = none ↔ ¬ (b = escape ∧ LineEndAhead t) := by
  rw [afterSplice_cons]
  by_cases hb : b = escape
  · rw [if_pos hb]
    constructor
    · rintro h ⟨-, c, hc, hend⟩
      obtain ⟨u, hu⟩ : ∃ u, t.dropWhile isBlank = c :: u := by
        cases hdrop : t.dropWhile isBlank with
        | nil =>
          rw [hdrop] at hc
          exact absurd hc (by simp)
        | cons d u =>
          rw [hdrop] at hc
          exact ⟨u, by rw [Option.some.inj hc]⟩
      rw [hu, behindBlanks, if_pos hend] at h
      split at h <;> exact absurd h (by simp)
    · intro h
      cases hdrop : t.dropWhile isBlank with
      | nil => rfl
      | cons c u =>
        have hend : ¬ isLineEnd c = true := fun hend => h ⟨hb, c, by rw [hdrop]; rfl, hend⟩
        rw [behindBlanks, if_neg hend]
  · rw [if_neg hb]
    exact iff_of_true rfl fun h => hb h.1

/-- A backslash is no line end. -/
theorem not_lineEndAhead_of_head {t : Text} (h : t.head? = some escape) : ¬ LineEndAhead t := by
  rintro ⟨c, hc, hend⟩
  cases t with
  | nil => exact absurd h (by simp)
  | cons b t =>
    obtain rfl := Option.some.inj h
    rw [List.dropWhile_cons_of_neg (by decide)] at hc
    obtain rfl := Option.some.inj hc
    exact absurd hend (by decide)

/-- Blanks in front of a line end do not count. -/
theorem lineEndAhead_cons {b : Byte} {t : Text} :
    LineEndAhead (b :: t) ↔ if isBlank b then LineEndAhead t else isLineEnd b = true := by
  unfold LineEndAhead
  cases hb : isBlank b with
  | true => rw [List.dropWhile_cons_of_pos hb, if_pos rfl]
  | false =>
    rw [List.dropWhile_cons_of_neg (by simp [hb]), if_neg (by simp)]
    constructor
    · rintro ⟨c, hc, hend⟩
      rw [Option.some.inj hc]
      exact hend
    · exact fun hend => ⟨b, rfl, hend⟩

/-- A line splice in front of a byte that ends a pattern. -/
def Glyph.shield (g : Glyph) : Glyph :=
  if isTerminal g.byte then ⟨g.splice ++ [escape, newline], g.byte⟩ else g

/-- The same glyphs, with splices put in front of some. -/
def Shielded : List Glyph → List Glyph → Prop :=
  List.Forall₂ fun g g' => g' = g ∨ g' = g.shield

theorem spliceOf_shield (t : Text) : SpliceOf [escape, newline] t :=
  ⟨[], [newline], by simp, Or.inl rfl, rfl⟩

/-- A shielded reading is the reading of a text. -/
theorem Reads.exists_shielded {t : Text} {gs gs' : List Glyph} (h : Reads t gs)
    (hs : Shielded gs gs') : ∃ t', Reads t' gs' ∧
      (t'.head? = some newline → t.head? = some newline) ∧ (LineEndAhead t' → LineEndAhead t) := by
  induction h generalizing gs' with
  | @nil splice hsplice =>
    cases hs
    exact ⟨splice, .nil hsplice, id, id⟩
  | @cons splice rest b gs hsplice hnone hrest ih =>
    cases hs with
    | @cons _ g' _ gs₁ hg hgs =>
      obtain ⟨rest', hrest', hhead, hahead⟩ := ih hgs
      have hnone' : afterSplice (b :: rest') = none := by
        rw [afterSplice_eq_none_iff] at hnone ⊢
        exact fun h => hnone ⟨h.1, hahead h.2⟩
      -- a splice as it was, or with another one behind it
      have hcase : (g' = ⟨splice, b⟩ ∨
          (isTerminal b = true ∧ g' = ⟨splice ++ [escape, newline], b⟩)) := by
        rcases hg with rfl | rfl
        · exact Or.inl rfl
        · unfold Glyph.shield
          by_cases hb : isTerminal b = true
          · rw [if_pos hb]
            exact Or.inr ⟨hb, rfl⟩
          · rw [if_neg hb]
            exact Or.inl rfl
      rcases hcase with rfl | ⟨hb, rfl⟩
      · refine ⟨splice ++ b :: rest', .cons (hsplice.congr id) hnone' hrest', ?_, ?_⟩
        · cases splice <;> exact id
        · by_cases hne : splice = []
          · subst hne
            rw [List.nil_append, List.nil_append, lineEndAhead_cons, lineEndAhead_cons]
            split
            · exact hahead
            · exact id
          · exact fun h => absurd h (not_lineEndAhead_of_head (hsplice.head hne _))
      · have hsplices : Splices (splice ++ [escape, newline]) (b :: rest') := by
          refine Splices.append (hsplice.congr fun h => ?_) (spliceOf_shield _)
          exact absurd h (by simp; decide)
        have hescape : ((splice ++ [escape, newline]) ++ b :: rest').head? = some escape :=
          hsplices.head (by simp) _
        refine ⟨_, .cons hsplices hnone' hrest', fun h => ?_, fun h => ?_⟩
        · rw [hescape] at h
          exact absurd h (by decide)
        · exact absurd h (not_lineEndAhead_of_head hescape)

/-- **Splices that are put in are read as splices.** -/
theorem exists_glyphs_eq_of_shielded {t : Text} {gs' : List Glyph} (h : Shielded (glyphs [] 0 t) gs') :
    ∃ t', glyphs [] 0 t' = gs' ∧ ∃ trailing, Splices trailing [] ∧
      t' = gs'.flatMap Glyph.raw ++ trailing := by
  have hreads : Reads t (glyphs [] 0 t) := reads_glyphs (.nil t)
  obtain ⟨t', ht', -, -⟩ := hreads.exists_shielded h
  exact ⟨t', ht'.glyphs_eq, ht'.text⟩

end Swayam.Cpp
