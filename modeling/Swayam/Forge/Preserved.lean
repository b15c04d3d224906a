import Swayam.Forge.Verdict

/-!
# SWAYAM — acceptability under evolution

A base that the analyzer accepts has `main` and no threats, and evolution leaves it
so: no word of the base goes on into the block. What the block may change is what
is stripped from the base. Where its place is program text, nothing of that
changes; in a comment or a literal, the line breaks and the quotes of the block can
set free what was none, and take in what was.

* `complete_of_spliceInCode` — in program text, the braces stay balanced, and the
  base keeps its exception handling;
* `isSafe_reduced_iff` — elsewhere these are the only checks that can fail;
* `staysAccepted_iff` — which bases evolution keeps acceptable.

The draws are an arbitrary stream, so a result holds of every random engine.
-/

namespace Swayam.Forge

open Search

/-! ## The place of the block -/

/-- **The block stands in program text**: the brace of the first text that looks like the
signature of `main` is in no comment and no literal, whatever follows it; without such a text,
nothing is open at the end of the base. -/
def SpliceInCode (base : Text) : Prop :=
  match searchMain base with
  | some (front, _) => ∃ kept, ∀ r,
      stripCommentsAndStrings (front ++ r) = kept ++ asciiByte '\x7b' :: stripCommentsAndStrings r
  | none => ∀ r, EndsLine r →
      stripCommentsAndStrings (base ++ r) = stripCommentsAndStrings base ++ stripCommentsAndStrings r

/-- The checks of the analyzer on stripped text. -/
structure StillComplete (code : Text) : Prop where
  balanced : (stripCommentsAndStrings code).count (asciiByte '\x7b') =
    (stripCommentsAndStrings code).count (asciiByte '\x7d')
  handled  : ∀ w ∈ [ascii "catch", ascii "try"], w <:+: stripCommentsAndStrings code

/-- The reduced block is a frame around the two parts of the base. -/
theorem reduced_framed (base : Text) (paradigm : Nat) :
    ∃ front rest braces, base = front ++ rest ∧
      ((∃ u, front = u ++ [asciiByte '\x7b']) ∨ rest = []) ∧
      reduced base paradigm = framed [] front (stub braces) rest [] ∧
      (searchMain base = some (front, rest) ∨ (searchMain base = none ∧ front = base ∧ rest = [])) := by
  rw [reduced]
  cases hmain : searchMain base with
  | some match' =>
    obtain ⟨front, rest⟩ := match'
    obtain ⟨hbase, hbrace⟩ := searchMain_eq_some hmain
    refine ⟨front, rest, bracesAround paradigm, hbase, Or.inl hbrace, ?_, Or.inl rfl⟩
    simp only [framed, List.append_assoc, List.nil_append, List.append_nil]
  | none =>
    refine ⟨base, [], (bracesAround paradigm).map (· + 1), (List.append_nil _).symm, Or.inr rfl, ?_,
      Or.inr ⟨rfl, rfl, rfl⟩⟩
    simp only [framed, List.nil_append, List.append_nil]

/-! ## What is searched in the raw text -/

section Parts

variable {front rest : Text}

/-- No threat lies across the place of the block. -/
theorem occurs_parts (hend : (∃ u, front = u ++ [asciiByte '\x7b']) ∨ rest = [])
    {threat : (Text → Prop) × Bool} (hmem : threat ∈ threatPatterns) :
    Occurs threat.1 threat.2 (front ++ rest) ↔
      Occurs threat.1 threat.2 front ∨ Occurs threat.1 threat.2 rest := by
  have hcompact : ∀ p, threat.1 p → Compact p := fun _ => compact_of_threat hmem
  rcases hend with ⟨u, rfl⟩ | rfl
  · refine occurs_append_iff hcompact (apart_of_barrier [] rfl (by simp [Spaces]) _)
      (Or.inl fun b hb => ?_)
    rw [List.getLast?_concat] at hb
    rw [← Option.some.inj hb]
    rfl
  · rw [List.append_nil, or_iff_left (not_occurs_of_notMem hcompact (by simp))]

/-- No word without braces does. -/
theorem infix_parts (hend : (∃ u, front = u ++ [asciiByte '\x7b']) ∨ rest = []) {w : Text}
    (hw : asciiByte '\x7b' ∉ w) (hne : w ≠ []) :
    w <:+: front ++ rest ↔ w <:+: front ∨ w <:+: rest := by
  rcases hend with ⟨u, rfl⟩ | rfl
  · refine infix_append_iff hw (Or.inl fun b hb => ?_)
    rw [List.getLast?_concat] at hb
    exact (Option.some.inj hb).symm
  · have hnil : ¬ w <:+: [] := fun h => hne (List.eq_nil_of_infix_nil h)
    rw [List.append_nil, or_iff_left hnil]

end Parts

/-- **What can fail**: an accepted base with the block reduced in it is accepted unless it is no
longer complete. -/
theorem isSafe_reduced_iff {base : Text} (hbase : (evaluateMutation base).isSafe = true)
    (paradigm : Nat) : (evaluateMutation (reduced base paradigm)).isSafe = true ↔
      StillComplete (reduced base paradigm) := by
  obtain ⟨front, rest, braces, hparts, hend, hreduced, -⟩ := reduced_framed base paradigm
  have hframe := frame_stub braces
  obtain ⟨-, -, -, -, hthreats, hmain⟩ := isSafe_iff.mp hbase
  -- threats and the entry point are those of the base
  have hthreats' : ∀ threat ∈ getThreatSignatures, threat.1 (reduced base paradigm) = false := by
    rw [noThreat_iff] at hthreats ⊢
    intro threat hmem
    have hnot := hthreats threat hmem
    rw [hparts, occurs_parts hend hmem] at hnot
    rw [hreduced, occurs_framed hframe hend hmem]
    exact hnot
  have hmain' : ascii "main" <:+: reduced base paradigm := by
    rw [hparts, infix_parts hend (by decide) (by decide)] at hmain
    rw [hreduced, main_framed hframe]
    exact hmain
  rw [isSafe_iff]
  constructor
  · rintro ⟨-, hbraces, hcatch, htry, -⟩
    refine ⟨hbraces, fun w hw => ?_⟩
    simp only [List.mem_cons, List.not_mem_nil, or_false] at hw
    rcases hw with rfl | rfl
    · exact hcatch
    · exact htry
  · intro h
    refine ⟨fun hempty => ?_, h.balanced, h.handled _ (by decide), h.handled _ (by decide),
      hthreats', hmain'⟩
    rw [hempty] at hmain'
    exact absurd (List.eq_nil_of_infix_nil hmain') (by decide)

/-! ## A place in program text -/

/-- The passes reach the text behind a neutral one. -/
theorem Neutral.strip {t code kept : Text} (h : Neutral t code kept) (rest : Text) :
    stripCommentsAndStrings (t ++ rest) = kept ++ stripCommentsAndStrings rest := by
  rw [stripCommentsAndStrings_eq, h.comments, h.strings]
  rfl

/-- What stays of a block takes no brace and no word away from what stands around it. -/
theorem complete_of_inserted {code base kept : Text} (start rest : Text) (hdepth : depth kept = 0)
    (hcode : stripCommentsAndStrings code = start ++ (kept ++ rest))
    (hbase : stripCommentsAndStrings base = start ++ rest)
    (hwords : ∀ w ∈ [ascii "catch", ascii "try"], w <:+: start ++ rest →
      w <:+: start ∨ w <:+: rest)
    (hsafe : (evaluateMutation base).isSafe = true) : StillComplete code := by
  obtain ⟨-, hbraces, hcatch, htry, -, -⟩ := isSafe_iff.mp hsafe
  constructor
  · rw [← depth_eq_zero_iff, hbase, depth_append] at hbraces
    rw [← depth_eq_zero_iff, hcode, depth_append, depth_append]
    omega
  · intro w hw
    have hin : w <:+: start ++ rest := by
      rw [← hbase]
      simp only [List.mem_cons, List.not_mem_nil, or_false] at hw
      rcases hw with rfl | rfl
      · exact hcatch
      · exact htry
    rw [hcode]
    rcases hwords w hw hin with h | h
    · exact infix_append_of_or (Or.inl h)
    · exact infix_append_of_or (Or.inr (infix_append_of_or (Or.inr h)))

/-- **In program text** the block leaves an accepted base complete. -/
theorem complete_of_spliceInCode {base : Text} (hbase : (evaluateMutation base).isSafe = true)
    (h : SpliceInCode base) (paradigm : Nat) : StillComplete (reduced base paradigm) := by
  obtain ⟨front, rest, braces, hparts, -, hreduced, hplace⟩ := reduced_framed base paradigm
  obtain ⟨code, kept, literals, hwithin⟩ := within_stub braces
  have hneutral := hwithin.neutral
  simp only [framed, List.nil_append, List.append_nil] at hreduced
  unfold SpliceInCode at h
  -- behind the brace of main, or at the end of the base
  rcases hplace with hmain | ⟨hmain, hfront, hrest⟩
  · rw [hmain] at h
    obtain ⟨start, hstart⟩ := h
    have hfront : ∀ r, stripCommentsAndStrings (front ++ r) =
        (start ++ [asciiByte '\x7b']) ++ stripCommentsAndStrings r := by
      intro r
      rw [hstart, List.append_assoc]
      rfl
    refine complete_of_inserted (start ++ [asciiByte '\x7b']) (stripCommentsAndStrings rest)
      hneutral.balanced ?_ ?_ (fun w hw hin => ?_) hbase
    · rw [hreduced, hfront, hneutral.strip]
    · rw [hparts, hfront]
    · -- no word goes on behind the brace
      have hbrace : asciiByte '\x7b' ∉ w := by
        simp only [List.mem_cons, List.not_mem_nil, or_false] at hw
        rcases hw with rfl | rfl <;> decide
      refine (infix_append_iff hbrace (Or.inl fun b hb => ?_)).mp hin
      rw [List.getLast?_concat] at hb
      exact (Option.some.inj hb).symm
  · rw [hmain] at h
    rw [hfront, hrest, List.append_nil] at hreduced
    have hself : stripCommentsAndStrings (stub braces) = kept := by
      have hstub := hneutral.strip []
      rwa [List.append_nil, show stripCommentsAndStrings [] = [] from rfl,
        List.append_nil] at hstub
    have hends : EndsLine (stub braces) := by
      have hlines := (hwithin.endsLine []).1
      rwa [List.append_nil] at hlines
    refine complete_of_inserted (stripCommentsAndStrings base) [] hneutral.balanced ?_
      (List.append_nil _).symm (fun w _ hin => ?_) hbase
    · rw [hreduced, h _ hends, hself, List.append_nil]
    · rw [List.append_nil] at hin
      exact Or.inl hin

/-! ## Which bases stay acceptable -/

/-- **Evolution preserves acceptability** exactly where the base with the block reduced in it is
still complete, as it is wherever the block stands in program text. -/
theorem staysAccepted_iff {base : Text} (hbase : (evaluateMutation base).isSafe = true)
    (rng : Draws) :
    ((evaluateMutation (evolveCodebase base rng)).isSafe = true ↔
      StillComplete (reduced base (paradigmOf rng))) ∧
      (SpliceInCode base → (evaluateMutation (evolveCodebase base rng)).isSafe = true) := by
  have hiff : (evaluateMutation (evolveCodebase base rng)).isSafe = true ↔
      StillComplete (reduced base (paradigmOf rng)) := by
    rw [(accepted_iff base rng).1, isSafe_reduced_iff hbase]
  exact ⟨hiff, fun h => hiff.mpr (complete_of_spliceInCode hbase h _)⟩

/-- On an accepted base. -/
theorem staysAccepted_acceptedSource :
    (evaluateMutation acceptedSource).isSafe = true ∧
      ((evaluateMutation (evolveCodebase acceptedSource fun _ => 0)).isSafe = true ↔
        StillComplete (reduced acceptedSource (paradigmOf fun _ => 0))) :=
  ⟨by decide, (staysAccepted_iff (by decide) fun _ => 0).1⟩

/-- A base whose first signature of `main` stands in a comment: behind the line breaks of the
block, the closing brace of the comment is program text. -/
def commentedMain : Text := ascii "// int main() \x7b \x7d\n" ++ acceptedSource

/-- A base refutes the unconditional statement. -/
theorem staysAccepted_fails : ¬ ∀ base rng, (evaluateMutation base).isSafe = true →
    (evaluateMutation (evolveCodebase base rng)).isSafe = true := by
  intro h
  have hbase : (evaluateMutation commentedMain).isSafe = true := by decide +kernel
  have hrejected : (evaluateMutation (evolveCodebase commentedMain fun _ => 0)).isSafe = false := by
    decide +kernel
  rw [h commentedMain _ hbase] at hrejected
  exact absurd hrejected (by simp)

end Swayam.Forge
