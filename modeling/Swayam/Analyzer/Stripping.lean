import Swayam.Analyzer

/-!
# SWAYAM — what `strip_comments_and_strings` makes of a text that is put together

The two passes of the analyzer, part by part: what becomes of a text when
another one is put behind it.

* `splits` — in front of the end of a line, the comments of a part and of the rest
  are stripped apart, unless a block comment of the part is closed in the rest;
* `splitsStrings` — so are the string literals, unless a literal is open at the end
  of the part (`behindString` is what the rest leaves of it).
-/

namespace Swayam

/-! ## `regexRemove` -/

section Remove

variable {matchLength : Text → Option Nat} {b : Byte} {t : Text}

/-- Skipping goes on behind the bytes skipped. -/
theorem regexRemove_skip (matchLength : Text → Option Nat) (n : Nat) (t : Text) :
    regexRemove matchLength n t = regexRemove matchLength 0 (t.drop n) := by
  induction t generalizing n with
  | nil => cases n <;> rfl
  | cons b t ih =>
    cases n with
    | zero => rfl
    | succ n => exact ih n

/-- A byte at which no match starts stays. -/
theorem regexRemove_keep (h : matchLength (b :: t) = none) :
    regexRemove matchLength 0 (b :: t) = b :: regexRemove matchLength 0 t := by
  simp only [regexRemove, h]

/-- A match goes. -/
theorem regexRemove_match {n : Nat} (h : matchLength (b :: t) = some (n + 1)) :
    regexRemove matchLength 0 (b :: t) = regexRemove matchLength 0 (t.drop n) := by
  simp only [regexRemove, h]
  exact regexRemove_skip ..

/-- A part in which no match starts, whatever follows, stays. -/
theorem regexRemove_append_of_forall {u : Text} (rest : Text)
    (h : ∀ b ∈ u, ∀ t, matchLength (b :: t) = none) :
    regexRemove matchLength 0 (u ++ rest) = u ++ regexRemove matchLength 0 rest := by
  induction u with
  | nil => rfl
  | cons b u ih =>
    rw [List.cons_append, regexRemove_keep (h b List.mem_cons_self _),
      ih fun c hc => h c (List.mem_cons_of_mem b hc)]
    rfl

end Remove

/-! ## Comments -/

def stripComments (t : Text) : Text := regexRemove commentLength 0 t

def slash : Byte := asciiByte '/'
def star : Byte := asciiByte '*'
def quote : Byte := asciiByte '"'

@[simp] theorem stripComments_nil : stripComments [] = [] := rfl

/-- A comment starts with a slash and another one, or a star. -/
theorem commentLength_cons_of_ne {b : Byte} (hb : b ≠ slash) (t : Text) :
    commentLength (b :: t) = none := by
  have hline : (ascii "//").isPrefixOf (b :: t) = false := by
    rw [Bool.eq_false_iff, Ne, List.isPrefixOf_iff_prefix]
    exact fun h => hb (List.cons_prefix_cons.mp h).1.symm
  have hblock : (ascii "/*").isPrefixOf (b :: t) = false := by
    rw [Bool.eq_false_iff, Ne, List.isPrefixOf_iff_prefix]
    exact fun h => hb (List.cons_prefix_cons.mp h).1.symm
  simp [commentLength, afterLiteral, hline, hblock]

/-- A slash alone opens no comment. -/
theorem commentLength_slash_of_ne {b : Byte} (hslash : b ≠ slash) (hstar : b ≠ star) (t : Text) :
    commentLength (slash :: b :: t) = none := by
  have hline : (ascii "//").isPrefixOf (slash :: b :: t) = false := by
    rw [Bool.eq_false_iff, Ne, List.isPrefixOf_iff_prefix]
    intro h
    exact hslash (List.cons_prefix_cons.mp (List.cons_prefix_cons.mp h).2).1.symm
  have hblock : (ascii "/*").isPrefixOf (slash :: b :: t) = false := by
    rw [Bool.eq_false_iff, Ne, List.isPrefixOf_iff_prefix]
    intro h
    exact hstar (List.cons_prefix_cons.mp (List.cons_prefix_cons.mp h).2).1.symm
  simp [commentLength, afterLiteral, hline, hblock]

theorem commentLength_line (t : Text) :
    commentLength (slash :: slash :: t) = some (2 + (t.takeWhile fun b => !isLineEnd b).length) :=
  rfl

theorem commentLength_block (t : Text) :
    commentLength (slash :: star :: t) = (commentEnd t).map (2 + ·) := rfl

theorem stripComments_keep {b : Byte} (hb : b ≠ slash) (t : Text) :
    stripComments (b :: t) = b :: stripComments t :=
  regexRemove_keep (commentLength_cons_of_ne hb t)

/-- A part without slashes stays. -/
theorem stripComments_append_of_notMem {u : Text} (h : slash ∉ u) (rest : Text) :
    stripComments (u ++ rest) = u ++ stripComments rest :=
  regexRemove_append_of_forall rest fun _ hb t =>
    commentLength_cons_of_ne (fun heq => h (heq ▸ hb)) t

/-- A line comment goes up to the end of its line. -/
theorem stripComments_line (t : Text) :
    stripComments (slash :: slash :: t) = stripComments (t.dropWhile fun b => !isLineEnd b) := by
  have h : commentLength (slash :: slash :: t) =
      some ((1 + (t.takeWhile fun b => !isLineEnd b).length) + 1) := by
    rw [commentLength_line, Nat.add_right_comm]
  have hdrop : t.drop (t.takeWhile fun b => !isLineEnd b).length =
      t.dropWhile fun b => !isLineEnd b := by
    have hleft : ((t.takeWhile fun b => !isLineEnd b) ++ t.dropWhile fun b => !isLineEnd b).drop
        (t.takeWhile fun b => !isLineEnd b).length = t.dropWhile fun b => !isLineEnd b :=
      List.drop_left
    rwa [List.takeWhile_append_dropWhile] at hleft
  rw [stripComments, regexRemove_match h, Nat.add_comm, List.drop_succ_cons, hdrop]
  rfl

/-- A closed block comment is removed. -/
theorem stripComments_block {t : Text} {k : Nat} (h : commentEnd t = some k) :
    stripComments (slash :: star :: t) = stripComments (t.drop k) := by
  have hlength : commentLength (slash :: star :: t) = some ((1 + k) + 1) := by
    rw [commentLength_block, h, Option.map_some, Nat.add_right_comm]
  rw [stripComments, regexRemove_match hlength, Nat.add_comm, List.drop_succ_cons]
  rfl

/-- A block comment that is not closed is none. -/
theorem stripComments_block_open {t : Text} (h : commentEnd t = none) :
    stripComments (slash :: star :: t) = slash :: stripComments (star :: t) := by
  refine regexRemove_keep ?_
  rw [commentLength_block, h]
  rfl

/-! ## Comments of a text that is put together -/

/-- A text that does not go on with the line in front of it. -/
def EndsLine (t : Text) : Prop := ∀ b, t.head? = some b → isLineEnd b = true

/-- A line end is not what lines are made of. -/
theorem EndsLine.head_ne {t : Text} (h : EndsLine t) {b : Byte} (hb : isLineEnd b = false) :
    t.head? ≠ some b := by
  intro hhead
  rw [h b hhead] at hb
  exact Bool.noConfusion hb

/-- The end of a comment is still the first one when more follows. -/
theorem commentEnd_append_of_eq_some {t : Text} {k : Nat} (h : commentEnd t = some k)
    (rest : Text) : commentEnd (t ++ rest) = some k ∧ k ≤ t.length := by
  induction t generalizing k with
  | nil => exact absurd h (by simp [commentEnd])
  | cons b t ih =>
    rw [commentEnd] at h
    split at h
    · rename_i hend
      obtain rfl := Option.some.inj h
      cases t with
      | nil => exact absurd hend.2 (by simp)
      | cons c t =>
        refine ⟨?_, by simp⟩
        rw [List.cons_append, commentEnd, if_pos ⟨hend.1, hend.2⟩]
    · rename_i hnot
      obtain ⟨j, hj, rfl⟩ := Option.map_eq_some_iff.mp h
      obtain ⟨hrest, hle⟩ := ih hj
      refine ⟨?_, by simpa using hle⟩
      rw [List.cons_append, commentEnd, if_neg, hrest, Option.map_some]
      cases t with
      | nil => exact absurd hj (by simp [commentEnd])
      | cons c t => exact hnot

/-- Without slashes no comment ends. -/
theorem commentEnd_eq_none {t : Text} (h : slash ∉ t) : commentEnd t = none := by
  induction t with
  | nil => rfl
  | cons b t ih =>
    rw [List.mem_cons, not_or] at h
    rw [commentEnd, if_neg, ih h.2]
    · rfl
    · exact fun hend => h.2 (List.mem_of_mem_head? hend.2)

/-- Behind a text that closes no comment, the end is that of the rest. -/
theorem commentEnd_append_of_eq_none {t rest : Text} (h : commentEnd t = none)
    (hseam : t.getLast? = some star → rest.head? ≠ some slash) :
    commentEnd (t ++ rest) = (commentEnd rest).map (t.length + ·) := by
  induction t with
  | nil => simp
  | cons b t ih =>
    rw [commentEnd] at h
    split at h
    · exact absurd h (by simp)
    · rename_i hnot
      rw [Option.map_eq_none_iff] at h
      have hrest : commentEnd (t ++ rest) = (commentEnd rest).map (t.length + ·) := by
        cases t with
        | nil => simp
        | cons c t => exact ih h (by simpa using hseam)
      rw [List.cons_append, commentEnd, if_neg, hrest, Option.map_map]
      · congr 1
        funext n
        show t.length + n + 1 = (b :: t).length + n
        rw [List.length_cons]
        omega
      · cases t with
        | nil => exact fun hend => hseam (congrArg some hend.1) hend.2
        | cons c t => exact hnot

/-- **How a part splits off.** In front of a rest that closes no comment, it is stripped as if
it stood alone; and either this is so in front of every rest, or a block comment is open at
its end, and goes up to where the rest closes it. -/
def Splits (u : Text) : Prop :=
  (∀ rest, EndsLine rest → commentEnd rest = none →
    stripComments (u ++ rest) = stripComments u ++ stripComments rest) ∧
  ((∃ front, ∀ rest k, EndsLine rest → commentEnd rest = some k →
      stripComments (u ++ rest) = front ++ stripComments (rest.drop k)) ∨
    (∀ rest, EndsLine rest → stripComments (u ++ rest) = stripComments u ++ stripComments rest))

/-- What comes in front of a part, and is stripped to the same bytes whatever follows. -/
theorem Splits.cons {u v x : Text} (hself : stripComments u = x ++ stripComments v)
    (h : ∀ rest, EndsLine rest → stripComments (u ++ rest) = x ++ stripComments (v ++ rest))
    (hv : Splits v) : Splits u := by
  obtain ⟨hclosed, hcases⟩ := hv
  constructor
  · intro rest hends hnone
    rw [h rest hends, hself, hclosed rest hends hnone, List.append_assoc]
  · rcases hcases with ⟨front, hopen⟩ | hall
    · refine Or.inl ⟨x ++ front, fun rest k hends hsome => ?_⟩
      rw [h rest hends, hopen rest k hends hsome, List.append_assoc]
    · refine Or.inr fun rest hends => ?_
      rw [h rest hends, hself, hall rest hends, List.append_assoc]

/-- **Every part splits off.** The induction follows the scan: a byte, or a whole comment. -/
theorem splits (u : Text) : Splits u := by
  match u with
  | [] => exact ⟨fun _ _ _ => rfl, Or.inr fun _ _ => rfl⟩
  | b :: t =>
    by_cases hb : b = slash
    · subst hb
      match t with
      | [] =>
        -- a slash at the end: what follows is a line break
        have hkeep : ∀ rest, EndsLine rest →
            stripComments (slash :: rest) = slash :: stripComments rest := by
          intro rest hends
          cases rest with
          | nil => rfl
          | cons c rest =>
            have hslash : c ≠ slash := fun h => hends.head_ne rfl (congrArg some h)
            have hstar : c ≠ star := fun h => hends.head_ne rfl (congrArg some h)
            exact regexRemove_keep (commentLength_slash_of_ne hslash hstar rest)
        exact ⟨fun rest hends _ => hkeep rest hends, Or.inr hkeep⟩
      | c :: t =>
        by_cases hslash : c = slash
        · subst hslash
          refine Splits.cons (v := t.dropWhile fun b => !isLineEnd b) (x := [])
            (stripComments_line t) (fun rest hends => ?_) (splits _)
          -- the line ends in front of the rest
          have hrest : rest.dropWhile (fun b => !isLineEnd b) = rest := by
            cases rest with
            | nil => rfl
            | cons d rest => rw [List.dropWhile_cons_of_neg (by simp [hends d rfl])]
          show stripComments (slash :: slash :: (t ++ rest)) = _
          rw [stripComments_line, List.dropWhile_append, List.nil_append]
          split
          · rename_i hempty
            rw [hrest, List.isEmpty_iff.mp hempty, List.nil_append]
          · rfl
        · by_cases hstar : c = star
          · subst hstar
            cases hend : commentEnd t with
            | some k =>
              refine Splits.cons (v := t.drop k) (x := []) (stripComments_block hend)
                (fun rest _ => ?_) (splits _)
              obtain ⟨happend, hle⟩ := commentEnd_append_of_eq_some hend rest
              show stripComments (slash :: star :: (t ++ rest)) = _
              rw [stripComments_block happend, List.drop_append_of_le_length hle]
              rfl
            | none =>
              -- open, unless the rest does not close it
              have hself : stripComments (slash :: star :: t) =
                  [slash] ++ stripComments (star :: t) := stripComments_block_open hend
              have happend : ∀ rest, EndsLine rest →
                  commentEnd (t ++ rest) = (commentEnd rest).map (t.length + ·) :=
                fun rest hends => commentEnd_append_of_eq_none hend fun _ => hends.head_ne rfl
              constructor
              · intro rest hends hnone
                have hopen : commentEnd (t ++ rest) = none := by
                  rw [happend rest hends, hnone, Option.map_none]
                show stripComments (slash :: star :: (t ++ rest)) = _
                rw [stripComments_block_open hopen, hself, List.append_assoc,
                  ← (splits (star :: t)).1 rest hends hnone]
                rfl
              · refine Or.inl ⟨[], fun rest k hends hsome => ?_⟩
                have hclosed : commentEnd (t ++ rest) = some (t.length + k) := by
                  rw [happend rest hends, hsome, Option.map_some]
                show stripComments (slash :: star :: (t ++ rest)) = _
                rw [stripComments_block hclosed, List.drop_append,
                  List.drop_eq_nil_of_le (Nat.le_add_right _ _), Nat.add_sub_cancel_left]
                rfl
          · refine Splits.cons (v := c :: t) (x := [slash])
              (regexRemove_keep (commentLength_slash_of_ne hslash hstar t)) (fun rest _ => ?_)
              (splits (c :: t))
            exact regexRemove_keep (commentLength_slash_of_ne hslash hstar (t ++ rest))
    · exact Splits.cons (v := t) (x := [b]) (stripComments_keep hb t)
        (fun rest _ => stripComments_keep hb (t ++ rest)) (splits t)
termination_by u.length
decreasing_by
  all_goals simp_wf
  · have hle := (List.dropWhile_sublist (l := t) fun b => !isLineEnd b).length_le
    omega
  · omega

/-! ## String literals -/

def stripStrings (t : Text) : Text := regexRemove stringLength 0 t

theorem stripCommentsAndStrings_eq (t : Text) :
    stripCommentsAndStrings t = stripStrings (stripComments t) := rfl

/-- A string starts with a quote. -/
theorem stringLength_cons_of_ne {b : Byte} (hb : b ≠ quote) (t : Text) :
    stringLength (b :: t) = none := by
  have hnot : (ascii "\"").isPrefixOf (b :: t) = false := by
    rw [Bool.eq_false_iff, Ne, List.isPrefixOf_iff_prefix]
    exact fun h => hb (List.cons_prefix_cons.mp h).1.symm
  simp [stringLength, afterLiteral, hnot]

/-- And runs to its closing one. -/
theorem stringLength_quote (t : Text) :
    stringLength (quote :: t) = (stringEnd t).map (1 + ·) := rfl

/-- A part without quotes stays. -/
theorem stripStrings_append_of_notMem {u : Text} (h : quote ∉ u) (rest : Text) :
    stripStrings (u ++ rest) = u ++ stripStrings rest :=
  regexRemove_append_of_forall rest fun _ hb t =>
    stringLength_cons_of_ne (fun heq => h (heq ▸ hb)) t

theorem stripStrings_keep {b : Byte} (hb : b ≠ quote) (t : Text) :
    stripStrings (b :: t) = b :: stripStrings t :=
  regexRemove_keep (stringLength_cons_of_ne hb t)

/-! ## Open literals -/

def escape : Byte := asciiByte '\\'

/-- What is behind the literal that is open in front of a text. -/
def behindString (t : Text) : Option Text := (stringEnd t).map t.drop

/-- **A quote**: the literal goes when it is closed. -/
theorem stripStrings_quote_of_some {t rest : Text} (h : behindString t = some rest) :
    stripStrings (quote :: t) = stripStrings rest := by
  obtain ⟨k, hk, rfl⟩ := Option.map_eq_some_iff.mp h
  have hlength : stringLength (quote :: t) = some (k + 1) := by
    rw [stringLength_quote, hk, Option.map_some, Nat.add_comm]
  exact regexRemove_match hlength

/-- Otherwise the quote stays. -/
theorem stripStrings_quote_of_none {t : Text} (h : behindString t = none) :
    stripStrings (quote :: t) = quote :: stripStrings t := by
  refine regexRemove_keep ?_
  rw [stringLength_quote, Option.map_eq_none_iff.mp h]
  rfl

theorem behindString_quote (t : Text) : behindString (quote :: t) = some t := by
  cases t <;> rfl

/-- A plain byte keeps it open. -/
theorem behindString_cons {b : Byte} (hquote : b ≠ quote) (hescape : b ≠ escape) (t : Text) :
    behindString (b :: t) = behindString t := by
  rw [quote] at hquote
  rw [escape] at hescape
  cases t with
  | nil =>
    rw [behindString, stringEnd, if_neg hquote]
    rfl
  | cons c t =>
    rw [behindString, stringEnd, if_neg hquote, if_neg hescape, Option.map_map, behindString]
    congr 1
    funext k
    rw [Function.comp_apply, Nat.add_comm, List.drop_succ_cons]

/-- An escape at the end of a line. -/
theorem behindString_escape_of_endsLine {t : Text} (h : EndsLine t) :
    behindString (escape :: t) = none := by
  cases t with
  | nil => rfl
  | cons c t =>
    have hend : isLineEnd c = true := h c rfl
    rw [behindString, escape, stringEnd, if_neg (by decide), if_pos rfl, if_pos hend]
    rfl

/-- So does an escaped one. -/
theorem behindString_escape {c : Byte} (hc : isLineEnd c = false) (t : Text) :
    behindString (escape :: c :: t) = behindString t := by
  have hkeep : ¬ isLineEnd c = true := by simp [hc]
  rw [behindString, escape, stringEnd, if_neg (by decide), if_pos rfl, if_neg hkeep,
    Option.map_map, behindString]
  congr 1
  funext k
  rw [Function.comp_apply, Nat.add_comm, List.drop_succ_cons, List.drop_succ_cons]

/-- A part without quotes and escapes does not close a literal. -/
theorem behindString_append_of_notMem {u : Text} (hquote : quote ∉ u) (hescape : escape ∉ u)
    (rest : Text) : behindString (u ++ rest) = behindString rest := by
  induction u with
  | nil => rfl
  | cons b u ih =>
    rw [List.mem_cons, not_or] at hquote hescape
    rw [List.cons_append, behindString_cons (fun h => hquote.1 h.symm) (fun h => hescape.1 h.symm),
      ih hquote.2 hescape.2]

/-- Without quotes no literal is closed. -/
theorem behindString_eq_none {t : Text} (h : quote ∉ t) : behindString t = none := by
  rw [behindString, Option.map_eq_none_iff]
  fun_induction stringEnd t with
  | case1 => rfl
  | case2 => simp [quote] at h
  | case3 => rfl
  | case4 => simp [quote] at h
  | case5 => rfl
  | case6 b' rest hquote hescape ih =>
    rw [ih (fun hmem => h (by simp [hmem])), Option.map_none]
  | case7 b b' rest hquote hescape ih =>
    rw [ih (fun hmem => h (List.mem_cons_of_mem b hmem)), Option.map_none]

/-! ## String literals of a text that is put together -/

/-- A rest that no escape of the part in front takes with it. -/
def Seam (u rest : Text) : Prop := u.getLast? = some escape → EndsLine rest

/-- A seam holds behind every part of what is in front. -/
theorem Seam.of_suffix {u v rest : Text} (h : Seam u rest) (hsuffix : v <:+ u) : Seam v rest := by
  intro hlast
  obtain ⟨w, rfl⟩ := hsuffix
  refine h ?_
  rw [List.getLast?_append, hlast]
  rfl

/-- **The end of an open literal** is in the first part of a text; or it is that of the second
part; or an escape at the end of a line leaves the literal open. -/
theorem behindString_append (u : Text) :
    (∃ v, v <:+ u ∧ behindString u = some v ∧
      ∀ rest, behindString (u ++ rest) = some (v ++ rest)) ∨
    (behindString u = none ∧
      ((∀ rest, Seam u rest → behindString (u ++ rest) = behindString rest) ∨
        ∀ rest, Seam u rest → behindString (u ++ rest) = none)) := by
  -- a start that an open literal takes in
  have hcons : ∀ {w t : Text}, (∀ t, behindString (w ++ t) = behindString t) →
      ((∃ v, v <:+ t ∧ behindString t = some v ∧
        ∀ rest, behindString (t ++ rest) = some (v ++ rest)) ∨
      (behindString t = none ∧
        ((∀ rest, Seam t rest → behindString (t ++ rest) = behindString rest) ∨
          ∀ rest, Seam t rest → behindString (t ++ rest) = none))) →
      ((∃ v, v <:+ w ++ t ∧ behindString (w ++ t) = some v ∧
        ∀ rest, behindString (w ++ t ++ rest) = some (v ++ rest)) ∨
      (behindString (w ++ t) = none ∧
        ((∀ rest, Seam (w ++ t) rest → behindString (w ++ t ++ rest) = behindString rest) ∨
          ∀ rest, Seam (w ++ t) rest → behindString (w ++ t ++ rest) = none))) := by
    intro w t hw ht
    simp only [List.append_assoc, hw]
    rcases ht with ⟨v, hsuffix, hv, hall⟩ | ⟨hnone, hall | hall⟩
    · exact Or.inl ⟨v, hsuffix.trans (List.suffix_append w t), hv, hall⟩
    · exact Or.inr ⟨hnone, Or.inl fun rest h => hall rest (h.of_suffix (List.suffix_append w t))⟩
    · exact Or.inr ⟨hnone, Or.inr fun rest h => hall rest (h.of_suffix (List.suffix_append w t))⟩
  match u with
  | [] => exact Or.inr ⟨rfl, Or.inl fun _ _ => rfl⟩
  | b :: t =>
    by_cases hquote : b = quote
    · subst hquote
      exact Or.inl ⟨t, List.suffix_cons _ _, behindString_quote t, fun _ => behindString_quote _⟩
    · by_cases hescape : b = escape
      · subst hescape
        match t with
        | [] => exact Or.inr ⟨rfl, Or.inr fun rest h => behindString_escape_of_endsLine (h rfl)⟩
        | c :: t =>
          cases hc : isLineEnd c with
          | true =>
            have hends : ∀ t, EndsLine (c :: t) := fun t b hb => Option.some.inj hb ▸ hc
            exact Or.inr ⟨behindString_escape_of_endsLine (hends t),
              Or.inr fun rest _ => behindString_escape_of_endsLine (hends (t ++ rest))⟩
          | false =>
            exact hcons (w := [escape, c]) (behindString_escape hc) (behindString_append t)
      · exact hcons (w := [b]) (behindString_cons hquote hescape) (behindString_append t)

/-- **How a part splits off**: a literal is open at its end, and goes up to where the rest closes
it; or the part is stripped as if it stood alone. -/
def SplitsStrings (u : Text) : Prop :=
  (∃ front back, stripStrings u = front ++ quote :: back ∧ ∀ rest, Seam u rest →
      (∀ v, behindString rest = some v → stripStrings (u ++ rest) = front ++ stripStrings v) ∧
      (behindString rest = none →
        stripStrings (u ++ rest) = stripStrings u ++ stripStrings rest)) ∨
    ∀ rest, Seam u rest → stripStrings (u ++ rest) = stripStrings u ++ stripStrings rest

/-- One step of the pass, its seam kept. -/
theorem SplitsStrings.cons {u v x : Text} (hsuffix : v <:+ u)
    (hself : stripStrings u = x ++ stripStrings v)
    (h : ∀ rest, Seam u rest → stripStrings (u ++ rest) = x ++ stripStrings (v ++ rest))
    (hv : SplitsStrings v) : SplitsStrings u := by
  rcases hv with ⟨front, back, hfront, hopen⟩ | hall
  · refine Or.inl ⟨x ++ front, back, by rw [hself, hfront, List.append_assoc],
      fun rest hseam => ⟨fun w hsome => ?_, fun hnone => ?_⟩⟩
    · rw [h rest hseam, (hopen rest (hseam.of_suffix hsuffix)).1 w hsome, List.append_assoc]
    · rw [h rest hseam, hself, (hopen rest (hseam.of_suffix hsuffix)).2 hnone, List.append_assoc]
  · refine Or.inr fun rest hseam => ?_
    rw [h rest hseam, hself, hall rest (hseam.of_suffix hsuffix), List.append_assoc]

/-- **Every part splits off.** The induction follows the scan: a byte, or a whole literal. -/
theorem splitsStrings (u : Text) : SplitsStrings u := by
  match u with
  | [] => exact Or.inr fun _ _ => rfl
  | b :: t =>
    by_cases hb : b = quote
    · subst hb
      rcases behindString_append t with ⟨v, hsuffix, hv, hall⟩ | ⟨hnone, hcases⟩
      · -- a literal that is closed within the text
        have hle := hsuffix.length_le
        refine (splitsStrings v).cons (x := []) (hsuffix.trans (List.suffix_cons _ _))
          (stripStrings_quote_of_some hv) fun rest _ => ?_
        exact stripStrings_quote_of_some (hall rest)
      · -- a quote that nothing here closes is kept
        have hself : stripStrings (quote :: t) = [quote] ++ stripStrings t :=
          stripStrings_quote_of_none hnone
        have hseam : ∀ {rest}, Seam (quote :: t) rest → Seam t rest :=
          fun h => h.of_suffix (List.suffix_cons _ _)
        rcases hcases with hopen | hstays
        · -- open, unless the rest does not close it
          refine Or.inl ⟨[], stripStrings t, hself, fun rest h => ⟨fun v hsome => ?_, fun hrest => ?_⟩⟩
          · exact stripStrings_quote_of_some ((hopen rest (hseam h)).trans hsome)
          · have htail : stripStrings (t ++ rest) = stripStrings t ++ stripStrings rest := by
              rcases splitsStrings t with ⟨front, back, -, hsplit⟩ | hsplit
              · exact (hsplit rest (hseam h)).2 hrest
              · exact hsplit rest (hseam h)
            rw [List.cons_append, stripStrings_quote_of_none ((hopen rest (hseam h)).trans hrest),
              htail, hself]
            rfl
        · refine (splitsStrings t).cons (List.suffix_cons _ _) hself fun rest h => ?_
          exact stripStrings_quote_of_none (hstays rest (hseam h))
    · exact (splitsStrings t).cons (x := [b]) (List.suffix_cons _ _) (stripStrings_keep hb t)
        fun rest _ => stripStrings_keep hb (t ++ rest)
termination_by u.length
decreasing_by
  all_goals simp_wf
  all_goals omega

/-- Behind any part, a rest without quotes stays, and closes no literal. -/
theorem strings_append {rest : Text} (hquote : quote ∉ rest) (hends : EndsLine rest) (u : Text) :
    stripStrings (u ++ rest) = stripStrings u ++ rest ∧
      behindString (u ++ rest) = (behindString u).map (· ++ rest) := by
  have hnone := behindString_eq_none hquote
  have hrest : stripStrings rest = rest := by
    have h := stripStrings_append_of_notMem hquote []
    rwa [List.append_nil, show stripStrings [] = [] from rfl, List.append_nil] at h
  constructor
  · rcases splitsStrings u with ⟨front, back, -, hopen⟩ | hall
    · rw [(hopen rest fun _ => hends).2 hnone, hrest]
    · rw [hall rest fun _ => hends, hrest]
  · rcases behindString_append u with ⟨v, -, hv, hall⟩ | ⟨hopen, hall | hall⟩
    · rw [hall, hv, Option.map_some]
    · rw [hall rest fun _ => hends, hopen, hnone, Option.map_none]
    · rw [hall rest fun _ => hends, hopen, Option.map_none]

end Swayam
