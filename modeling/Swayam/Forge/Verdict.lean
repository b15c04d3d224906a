import Swayam.Forge.Frame

/-!
# SWAYAM — the analyzer on the code of the forge

What the forge puts into a base algorithm never decides the verdict of the
analyzer: it is the one on the base with a line break in the place of the block,
and a string literal in braces if the block has literals (`reduced`). The block
supplies no exception handling: what the base does not have, the code does not
have, unless the line break sets text of a comment free.

* `comments_framed`, `strings_framed` — what is stripped from a base with a frame:
  whether a comment or a literal is open at the block depends on the base alone;
* `isSafe_framed` — and so does the verdict;
* `accepted_iff` — the verdict on the code of the forge.
-/

namespace Swayam.Forge

open Search

/-! ## The comments of a framed base -/

/-- What follows a base: of comments and literals it is stripped by itself. -/
structure Trailer (genome code : Text) : Prop where
  comments : ∀ t, stripComments (t ++ genome) = stripComments t ++ code
  strings  : ∀ t, stripStrings (t ++ code) = stripStrings t ++ code ∧
    behindString (t ++ code) = (behindString t).map (· ++ code)
  noEnd    : commentEnd genome = none ∧ genome.head? ≠ some slash
  balanced : depth code = 0
  words    : NoHandler code
  head     : ∀ b, code.head? = some b → b = newline

section Framed

variable {headers block genome : Text} {braces : Option Nat}

/-- The genome line is a trailer. -/
theorem Frame.trailer (h : Frame headers block genome braces) : ∃ code, Trailer genome code := by
  obtain ⟨code, hneutral, hquote, hhead, hcode, -⟩ := h.after
  have hends : EndsLine genome := by
    intro b hb
    rw [hhead b hb]
    rfl
  have hcodeEnds : EndsLine code := by
    intro b hb
    rw [hcode b hb]
    rfl
  have hself : stripComments genome = code := by
    have h := hneutral.comments []
    rwa [List.append_nil, stripComments_nil, List.append_nil] at h
  refine ⟨code, fun t => ?_, strings_append hquote hcodeEnds, ⟨hneutral.noEnd.1, ?_⟩,
    hneutral.balanced, hneutral.words, hcode⟩
  · rw [(splits t).1 genome hends hneutral.noEnd.1, hself]
  · exact hends.head_ne rfl

/-- A block starts on a line of its own. -/
theorem Within.endsLine {code kept : Text} {literals : Literals}
    (h : Within block code kept literals braces) (t : Text) :
    EndsLine (block ++ t) ∧ EndsLine (code ++ t) := by
  constructor
  · intro b hb
    rw [List.head?_append, h.lines.1] at hb
    rw [← Option.some.inj hb]
    rfl
  · intro b hb
    rw [List.head?_append, h.codeFirst] at hb
    rw [← Option.some.inj hb]
    rfl

/-- The first part ends in program text: whatever follows, its brace stays, and what follows is
stripped as if it stood alone; or it is all there is. -/
def InProgram (front rest : Text) : Prop :=
  rest = [] ∨ ∃ kept, ∀ r, stripComments (front ++ r) = kept ++ asciiByte '\x7b' :: stripComments r

/-- A block comment that is open at the end of a part is open whatever follows. -/
theorem not_inProgram_of_open {front rest start : Text} {k : Nat}
    (hend : commentEnd rest = some k)
    (hopen : ∀ r j, EndsLine r → commentEnd r = some j →
      stripComments (front ++ r) = start ++ stripComments (r.drop j)) : ¬ InProgram front rest := by
  rintro (rfl | ⟨kept, hkept⟩)
  · exact absurd hend (by simp [commentEnd])
  · -- line breaks in front of the end of the comment would stay
    have hends : ∀ t, EndsLine (newline :: t) := by
      intro t b hb
      rw [← Option.some.inj hb]
      rfl
    have hone := hopen (newline :: ascii "*/") 3 (hends _) rfl
    have htwo := hopen (newline :: newline :: ascii "*/") 4 (hends _) rfl
    rw [hkept] at hone htwo
    have hlength := congrArg List.length (hone.trans htwo.symm)
    simp only [List.length_append, List.length_cons] at hlength
    have hstrip : stripComments (newline :: ascii "*/") = newline :: ascii "*/" ∧
        stripComments (newline :: newline :: ascii "*/") = newline :: newline :: ascii "*/" := by
      decide
    rw [hstrip.1, hstrip.2] at hlength
    simp only [List.length_cons] at hlength
    omega

/-- **The comments of a framed base**: the block lies in a comment of the base, or it is stripped
as if it stood alone. -/
theorem comments_framed (front rest : Text) :
    (¬ InProgram front rest ∧ ∃ text, ∀ {headers block genome code : Text} {braces : Option Nat},
      Frame headers block genome braces → Trailer genome code →
        stripComments (front ++ (block ++ (rest ++ genome))) = text ++ code) ∨
    ∀ {block code kept genome genomeCode : Text} {literals : Literals} {braces : Option Nat},
      Within block code kept literals braces → Trailer genome genomeCode →
        stripComments (front ++ (block ++ (rest ++ genome))) =
          stripComments front ++ (code ++ (stripComments rest ++ genomeCode)) := by
  have happend : ∀ {block code kept genome genomeCode : Text} {literals : Literals}
      {braces : Option Nat}, Within block code kept literals braces → Trailer genome genomeCode →
      stripComments (block ++ (rest ++ genome)) = code ++ (stripComments rest ++ genomeCode) := by
    intro block code kept genome genomeCode literals braces hwithin htrailer
    rw [hwithin.neutral.comments, htrailer.comments]
  obtain ⟨hnone, ⟨start, hopen⟩ | hall⟩ := splits front
  · -- an open comment in front of the block: the rest closes it, or nothing does
    cases hend : commentEnd rest with
    | some k =>
      refine Or.inl ⟨not_inProgram_of_open hend hopen, start ++ stripComments (rest.drop k), ?_⟩
      intro headers block genome code braces hframe htrailer
      obtain ⟨_, _, _, hwithin⟩ := hframe.within
      obtain ⟨hrest, hle⟩ := commentEnd_append_of_eq_some hend genome
      have hclosed : commentEnd (block ++ (rest ++ genome)) = some (block.length + k) := by
        rw [commentEnd_append_of_eq_none hwithin.neutral.noEnd.1
          fun h => absurd h hwithin.neutral.noEnd.2, hrest, Option.map_some]
      have hdrop : (block ++ (rest ++ genome)).drop (block.length + k) = rest.drop k ++ genome := by
        rw [List.drop_append, List.drop_eq_nil_of_le (Nat.le_add_right _ _),
          Nat.add_sub_cancel_left, List.drop_append_of_le_length hle, List.nil_append]
      rw [hopen _ _ (hwithin.endsLine _).1 hclosed, hdrop, htrailer.comments, List.append_assoc]
    | none =>
      refine Or.inr ?_
      intro block code kept genome genomeCode literals braces hwithin htrailer
      have hnotEnd : commentEnd (block ++ (rest ++ genome)) = none := by
        rw [commentEnd_append_of_eq_none hwithin.neutral.noEnd.1
            fun h => absurd h hwithin.neutral.noEnd.2,
          commentEnd_append_of_eq_none hend fun _ => htrailer.noEnd.2, htrailer.noEnd.1]
        rfl
      rw [hnone _ (hwithin.endsLine _).1 hnotEnd, happend hwithin htrailer]
  · refine Or.inr ?_
    intro block code kept genome genomeCode literals braces hwithin htrailer
    rw [hall _ (hwithin.endsLine _).1, happend hwithin htrailer]

/-! ## The literals of a framed base -/

/-- What is left of a base with the block in it: two parts of the base, and between them text that
counts for nothing but its braces. -/
def LeavesBetween (first second : Text) (open' : Int) (stripped : Text) : Prop :=
  ∃ between, stripped = first ++ (between ++ second) ∧ depth between = open' ∧
    (Parted between ∨ (between = [] ∧ second = []))

/-- The block has no literals: behind an open quote it goes. -/
theorem Within.behindString_append {code kept : Text} {literals : Literals}
    (h : Within block code kept literals none) (t : Text) :
    behindString (code ++ t) = behindString t := by
  have hliterals : literals = none := Option.map_eq_none_iff.mp h.around
  have hinverted := h.inverted
  rw [hliterals] at hinverted
  exact hinverted t

/-- The block has literals: the contents of all of them, and what follows the last. -/
theorem Within.exists_literals {code kept : Text} {literals : Literals} {n : Nat}
    (h : Within block code kept literals (some n)) :
    ∃ shown last, Inverted code (some (shown, last)) ∧ depth shown = 0 ∧ depth last = -(n : Int) ∧
      Parted shown ∧ Parted (shown ++ quote :: last) := by
  obtain ⟨⟨shown, last⟩, rfl, haround⟩ := Option.map_eq_some_iff.mp h.around
  obtain ⟨hdepth, hshown, hlast⟩ := h.shown (shown, last) rfl
  exact ⟨shown, last, h.inverted, hdepth, haround, hshown, hlast⟩

/-- **The literals of a framed base**: whether one of them is open in front of the block, and
closed behind it, depends on the base alone. -/
theorem strings_framed (front rest : Text) (braces : Option Nat) :
    ∃ first second open',
      (∀ {block code kept genome genomeCode : Text} {literals : Literals},
        Within block code kept literals braces → Trailer genome genomeCode →
          ∃ stripped, stripStrings (front ++ (code ++ (rest ++ genomeCode))) =
              stripped ++ genomeCode ∧ LeavesBetween first second open' stripped) ∧
      (Seam front rest → ∀ w, w <:+: first ∨ w <:+: second → w <:+: stripStrings (front ++ rest)) := by
  have hseam : ∀ {block code kept : Text} {literals : Literals},
      Within block code kept literals braces → ∀ t, Seam front (code ++ t) :=
    fun hwithin t _ => (hwithin.endsLine t).2
  -- the block as it is
  have hplain : ∀ {block code kept genome genomeCode : Text} {literals : Literals},
      Within block code kept literals braces → Trailer genome genomeCode →
      stripStrings (front ++ (code ++ (rest ++ genomeCode))) =
        stripStrings front ++ stripStrings (code ++ (rest ++ genomeCode)) →
      ∃ stripped, stripStrings (front ++ (code ++ (rest ++ genomeCode))) = stripped ++ genomeCode ∧
        LeavesBetween (stripStrings front) (stripStrings rest) 0 stripped := by
    intro block code kept genome genomeCode literals hwithin htrailer happend
    refine ⟨stripStrings front ++ (kept ++ stripStrings rest), ?_, kept, rfl,
      hwithin.neutral.balanced, Or.inl hwithin.kept⟩
    rw [happend, hwithin.neutral.strings, (htrailer.strings rest).1]
    simp only [List.append_assoc]
  rcases splitsStrings front with ⟨first, back, hfirst, hopen⟩ | hall
  · -- a quote may be open at the end of the first part: it is, when one of the second closes it
    have hbehind : ∀ {genome genomeCode : Text}, Trailer genome genomeCode →
        behindString (rest ++ genomeCode) = (behindString rest).map (· ++ genomeCode) :=
      fun htrailer => (htrailer.strings rest).2
    cases hrest : behindString rest with
    | some v =>
      rw [hrest] at hbehind
      cases braces with
      | none =>
        -- the literal goes on through the block
        refine ⟨first ++ stripStrings v, [], 0, ?_, fun hseam w hw => ?_⟩
        · intro block code kept genome genomeCode literals hwithin htrailer
          have hclosed := (hwithin.behindString_append (rest ++ genomeCode)).trans (hbehind htrailer)
          refine ⟨first ++ stripStrings v, ?_, [], by simp, rfl, Or.inr ⟨rfl, rfl⟩⟩
          rw [(hopen _ (hseam hwithin _)).1 _ hclosed, (htrailer.strings v).1, List.append_assoc]
        · rw [(hopen rest hseam).1 v hrest]
          rcases hw with hw | hw
          · exact hw
          · rw [List.eq_nil_of_infix_nil hw]
            exact List.nil_infix
      | some n =>
        -- the literals of the block come out
        refine ⟨first, stripStrings v, 0, ?_, fun hseam w hw => ?_⟩
        · intro block code kept genome genomeCode literals hwithin htrailer
          obtain ⟨shown, last, hinverted, hdepth, -, hparted, -⟩ := hwithin.exists_literals
          obtain ⟨t, ht, hsome, -⟩ := hinverted (rest ++ genomeCode)
          refine ⟨first ++ (shown ++ stripStrings v), ?_, shown, rfl, hdepth, Or.inl hparted⟩
          rw [(hopen _ (hseam hwithin _)).1 t ht, hsome _ (hbehind htrailer), (htrailer.strings v).1]
          simp only [List.append_assoc]
        · rw [(hopen rest hseam).1 v hrest]
          exact infix_append_of_or hw
    | none =>
      rw [hrest] at hbehind
      cases braces with
      | none =>
        -- the quote opens nothing, with the block as without it
        refine ⟨stripStrings front, stripStrings rest, 0, ?_, fun hseam w hw => ?_⟩
        · intro block code kept genome genomeCode literals hwithin htrailer
          have hunclosed := (hwithin.behindString_append (rest ++ genomeCode)).trans
            (hbehind htrailer)
          exact hplain hwithin htrailer ((hopen _ (hseam hwithin _)).2 hunclosed)
        · rw [(hopen rest hseam).2 hrest]
          exact infix_append_of_or hw
      | some n =>
        -- the first literal of the block closes it: what follows the last of them stays as well
        refine ⟨first, stripStrings rest, -(n : Int), ?_, fun hseam w hw => ?_⟩
        · intro block code kept genome genomeCode literals hwithin htrailer
          obtain ⟨shown, last, hinverted, hdepth, hbraces, -, hparted⟩ := hwithin.exists_literals
          obtain ⟨t, ht, -, hnone⟩ := hinverted (rest ++ genomeCode)
          refine ⟨first ++ ((shown ++ quote :: last) ++ stripStrings rest), ?_,
            shown ++ quote :: last, rfl, ?_, Or.inl hparted⟩
          · rw [(hopen _ (hseam hwithin _)).1 t ht, hnone (hbehind htrailer),
              (htrailer.strings rest).1]
            simp only [List.append_assoc]
          · rw [← List.singleton_append, depth_append, depth_append, hdepth, hbraces,
              (by decide : depth [quote] = 0)]
            omega
        · rw [(hopen rest hseam).2 hrest, hfirst]
          rcases hw with hw | hw
          · exact List.infix_append_of_infix_left (List.infix_append_of_infix_left hw)
          · exact List.infix_append_of_infix_right hw
  · refine ⟨stripStrings front, stripStrings rest, 0, ?_, fun hseam w hw => ?_⟩
    · intro block code kept genome genomeCode literals hwithin htrailer
      exact hplain hwithin htrailer (hall _ (hseam hwithin _))
    · rw [hall rest hseam]
      exact infix_append_of_or hw

end Framed

/-! ## The verdict -/

/-- The comments in front of it end there. -/
theorem InProgram.strip {front rest : Text} (h : InProgram front rest) :
    stripComments (front ++ rest) = stripComments front ++ stripComments rest ∧
      Seam (stripComments front) (stripComments rest) := by
  rcases h with rfl | ⟨kept, hkept⟩
  · rw [stripComments_nil, List.append_nil, List.append_nil]
    exact ⟨rfl, fun _ b hb => absurd hb (by simp)⟩
  · have hfront := hkept []
    rw [List.append_nil, stripComments_nil] at hfront
    constructor
    · rw [hkept, hfront]
      simp
    · intro hlast
      rw [hfront, List.getLast?_concat] at hlast
      exact absurd (Option.some.inj hlast) (by decide)

/-- **What is left of a framed base**: two parts of the base, which do not depend on the frame. -/
theorem strip_framed (front rest : Text) (braces : Option Nat) :
    ∃ first second open',
      (∀ {headers block genome : Text}, Frame headers block genome braces →
        ∃ stripped genomeCode, Trailer genome genomeCode ∧
          stripCommentsAndStrings (framed headers front block rest genome) =
            headers ++ (stripped ++ genomeCode) ∧ LeavesBetween first second open' stripped) ∧
      (InProgram front rest → ∀ w, w <:+: first ∨ w <:+: second →
        w <:+: stripCommentsAndStrings (front ++ rest)) := by
  have hheaders : ∀ {headers block genome : Text}, Frame headers block genome braces → ∀ t,
      stripCommentsAndStrings (headers ++ t) = headers ++ stripStrings (stripComments t) := by
    intro headers block genome hframe t
    rw [stripCommentsAndStrings_eq, hframe.before.1.comments, hframe.before.1.strings]
  rcases comments_framed front rest with ⟨hnot, text, htext⟩ | hparts
  · -- the block is inside a comment: nothing of it is left
    refine ⟨stripStrings text, [], 0, ?_, fun h => absurd h hnot⟩
    intro headers block genome hframe
    obtain ⟨code, htrailer⟩ := hframe.trailer
    refine ⟨stripStrings text, code, htrailer, ?_, [], by simp, rfl, Or.inr ⟨rfl, rfl⟩⟩
    rw [framed, hheaders hframe, htext hframe htrailer, (htrailer.strings text).1]
  · obtain ⟨first, second, open', hleaves, hwords⟩ :=
      -- the comments are gone part by part, then the strings
      strings_framed (stripComments front) (stripComments rest) braces
    refine ⟨first, second, open', ?_, fun h w hw => ?_⟩
    · intro headers block genome hframe
      obtain ⟨genomeCode, htrailer⟩ := hframe.trailer
      obtain ⟨code, kept, literals, hwithin⟩ := hframe.within
      obtain ⟨stripped, hstripped, hbetween⟩ := hleaves hwithin htrailer
      refine ⟨stripped, genomeCode, htrailer, ?_, hbetween⟩
      rw [framed, hheaders hframe, hparts hwithin htrailer, hstripped]
    · rw [stripCommentsAndStrings_eq, h.strip.1]
      exact hwords h.strip.2 w hw

/-- Words in what is left. -/
theorem LeavesBetween.infix_iff {first second stripped : Text} {open' : Int}
    (h : LeavesBetween first second open' stripped) {w : Text}
    (hw : w ∈ [ascii "try", ascii "catch"]) :
    w <:+: stripped ↔ w <:+: first ∨ w <:+: second := by
  obtain ⟨between, rfl, -, hbetween⟩ := h
  rcases hbetween with ⟨⟨b, c, hhead, hlast, hb, hc⟩, hwords⟩ | ⟨rfl, rfl⟩
  · have hletters : ∀ d, d ∉ ascii "trycatch" → d ∉ w := by
      intro d hd hmem
      simp only [List.mem_cons, List.not_mem_nil, or_false] at hw
      rcases hw with rfl | rfl
      · exact hd ((by decide : ascii "try" ⊆ ascii "trycatch") hmem)
      · exact hd ((by decide : ascii "catch" ⊆ ascii "trycatch") hmem)
    have hhead' : ∀ d, (between ++ second).head? = some d → d = b := by
      intro d hd
      rw [List.head?_append, hhead] at hd
      exact (Option.some.inj hd).symm
    have hlast' : ∀ d, between.getLast? = some d → d = c := by
      intro d hd
      rw [hlast] at hd
      exact (Option.some.inj hd).symm
    rw [infix_append_iff (hletters b hb) (Or.inr hhead'),
      infix_append_iff (hletters c hc) (Or.inl hlast'), or_iff_right (hwords w hw)]
  · have hne : ¬ w <:+: [] := by
      intro hnil
      simp only [List.mem_cons, List.not_mem_nil, or_false] at hw
      rcases hw with rfl | rfl <;> exact absurd (List.eq_nil_of_infix_nil hnil) (by decide)
    rw [List.nil_append, List.append_nil, or_iff_left hne]

section Framed

variable {headers block genome front rest : Text} {braces : Option Nat}

/-- Threats in a framed base. -/
theorem occurs_framed (hframe : Frame headers block genome braces)
    (hend : (∃ u, front = u ++ [asciiByte '\x7b']) ∨ rest = [])
    {threat : (Text → Prop) × Bool} (hmem : threat ∈ threatPatterns) :
    Occurs threat.1 threat.2 (framed headers front block rest genome) ↔
      Occurs threat.1 threat.2 front ∨ Occurs threat.1 threat.2 rest := by
  have hcompact : ∀ p, threat.1 p → Compact p := fun _ => compact_of_threat hmem
  obtain ⟨hheaders, hheadersLast, hheadersApart⟩ := hframe.before
  obtain ⟨_, _, _, hwithin⟩ := hframe.within
  obtain ⟨_, hgenome, _, hgenomeHead, _, hgenomeApart⟩ := hframe.after
  have hspace : isSpace newline = true := rfl
  have hword : isWord newline = false := rfl
  have hblock : ∀ t, ∀ b, (block ++ t).head? = some b → isSpace b = true := by
    intro t b hb
    rw [List.head?_append, hwithin.lines.1] at hb
    rw [← Option.some.inj hb]
    exact hspace
  -- the first part ends in a brace, or nothing but the genome id follows the block
  have hapart : Apart front (block ++ (rest ++ genome)) := by
    rcases hend with ⟨u, rfl⟩ | rfl
    · exact apart_of_barrier [] rfl (by simp [Spaces]) _
    · exact hframe.seam front
  rw [framed, occurs_append_iff hcompact (hheadersApart _)
      (Or.inl fun b hb => hheadersLast b hb ▸ hword),
    occurs_append_iff hcompact hapart (Or.inr (hblock _)),
    occurs_append_iff hcompact (hwithin.apart _)
      (Or.inl fun b hb => (Option.some.inj (hwithin.lines.2.symm.trans hb)) ▸ hword),
    occurs_append_iff hcompact (hgenomeApart _) (Or.inr fun b hb => hgenomeHead b hb ▸ hspace),
    or_iff_right (hheaders.threats threat hmem), or_iff_right (hwithin.neutral.threats threat hmem),
    or_iff_left (hgenome.threats threat hmem)]

/-- The frame adds no main. -/
theorem main_framed (hframe : Frame headers block genome braces) :
    ascii "main" <:+: framed headers front block rest genome ↔
      ascii "main" <:+: front ∨ ascii "main" <:+: rest := by
  obtain ⟨hheaders, hheadersLast, -⟩ := hframe.before
  obtain ⟨_, _, _, hwithin⟩ := hframe.within
  obtain ⟨_, hgenome, _, hgenomeHead, _⟩ := hframe.after
  have hnewline : newline ∉ ascii "main" := by decide
  have hhead : ∀ t, ∀ b, (block ++ t).head? = some b → b = newline := by
    intro t b hb
    rw [List.head?_append, hwithin.lines.1] at hb
    exact (Option.some.inj hb).symm
  rw [framed, infix_append_iff hnewline (Or.inl hheadersLast),
    infix_append_iff hnewline (Or.inr (hhead _)),
    infix_append_iff hnewline
      (Or.inl fun b hb => (Option.some.inj (hwithin.lines.2.symm.trans hb)).symm),
    infix_append_iff hnewline (Or.inr hgenomeHead), or_iff_right hheaders.main,
    or_iff_right hwithin.neutral.main, or_iff_left hgenome.main]

end Framed

/-- The checks of the analyzer on the parts of a base. -/
def Passes (front rest first second : Text) (open' : Int) : Prop :=
  depth first + open' + depth second = 0 ∧
  (∀ w ∈ [ascii "catch", ascii "try"], w <:+: first ∨ w <:+: second) ∧
  (∀ threat ∈ threatPatterns,
    ¬ Occurs threat.1 threat.2 front ∧ ¬ Occurs threat.1 threat.2 rest) ∧
  (ascii "main" <:+: front ∨ ascii "main" <:+: rest)

/-- **The verdict on a framed base** does not depend on the frame; and a base that ends its first
part in program text supplies the exception handling itself. -/
theorem isSafe_framed {front rest : Text} (braces : Option Nat)
    (hend : (∃ u, front = u ++ [asciiByte '\x7b']) ∨ rest = []) :
    ∃ verdict : Prop,
      (∀ {headers block genome : Text}, Frame headers block genome braces →
        ((evaluateMutation (framed headers front block rest genome)).isSafe = true ↔ verdict)) ∧
      (InProgram front rest → verdict → ∀ w ∈ [ascii "catch", ascii "try"],
        w <:+: stripCommentsAndStrings (front ++ rest)) := by
  obtain ⟨first, second, open', hleaves, hwords⟩ := strip_framed front rest braces
  refine ⟨Passes front rest first second open', ?_, fun h hpasses w hw =>
    hwords h w (hpasses.2.1 w hw)⟩
  intro headers block genome hframe
  obtain ⟨stripped, genomeCode, htrailer, hstripped, hbetween⟩ := hleaves hframe
  obtain ⟨hneutral, hlast, -⟩ := hframe.before
  -- the inserted text is balanced, so the count is that of the base's two parts
  have hdepth : depth (stripCommentsAndStrings (framed headers front block rest genome)) = 0 ↔
      depth first + open' + depth second = 0 := by
    obtain ⟨between, rfl, hopen, -⟩ := hbetween
    rw [hstripped]
    simp only [depth_append, hneutral.balanced, htrailer.balanced, hopen]
    omega
  -- it brings no handler of its own
  have hword : ∀ w ∈ [ascii "try", ascii "catch"],
      (w <:+: stripCommentsAndStrings (framed headers front block rest genome) ↔
        w <:+: first ∨ w <:+: second) := by
    intro w hw
    have hnewline : newline ∉ w := by
      simp only [List.mem_cons, List.not_mem_nil, or_false] at hw
      rcases hw with rfl | rfl <;> decide
    rw [hstripped, infix_append_iff hnewline (Or.inl hlast),
      infix_append_iff hnewline (Or.inr htrailer.head), or_iff_right (hneutral.words w hw),
      or_iff_left (htrailer.words w hw), hbetween.infix_iff hw]
  -- and no threat, nor does one arise at its ends
  have hthreats : (∀ threat ∈ threatPatterns,
      ¬ Occurs threat.1 threat.2 (framed headers front block rest genome)) ↔
      ∀ threat ∈ threatPatterns,
        ¬ Occurs threat.1 threat.2 front ∧ ¬ Occurs threat.1 threat.2 rest := by
    refine forall₂_congr fun threat hmem => ?_
    rw [occurs_framed hframe hend hmem, not_or]
  rw [isSafe_iff, ← depth_eq_zero_iff, hdepth, hword (ascii "catch") (by decide),
    hword (ascii "try") (by decide), noThreat_iff, hthreats, main_framed hframe]
  unfold Passes
  constructor
  · rintro ⟨-, hbraces, hcatch, htry, hthreats, hmain⟩
    refine ⟨hbraces, fun w hw => ?_, hthreats, hmain⟩
    simp only [List.mem_cons, List.not_mem_nil, or_false] at hw
    rcases hw with rfl | rfl
    · exact hcatch
    · exact htry
  · rintro ⟨hbraces, hwords, hthreats, hmain⟩
    refine ⟨fun hempty => ?_, hbraces, hwords _ (by decide), hwords _ (by decide), hthreats, hmain⟩
    have hmain' := (main_framed hframe).mpr hmain
    rw [hempty] at hmain'
    exact absurd (List.eq_nil_of_infix_nil hmain') (by decide)

/-! ## The place of the block -/

/-- Skipping space leaves the end of a text. -/
theorem skipSpace_suffix (t : Text) : skipSpace t <:+ t := List.dropWhile_suffix _

/-- The signature ends in the opening brace. -/
theorem afterMain_eq_some {t rest : Text} (h : afterMain t = some rest) :
    ascii "int" <+: t ∧ asciiByte '\x7b' :: rest <:+ t := by
  have hliteral : ∀ {literal : String} {t rest : Text}, afterLiteral literal t = some rest →
      rest <:+ t := by
    intro literal t rest h
    rw [afterLiteral_eq_some.mp h]
    exact List.suffix_append _ _
  simp only [afterMain, Option.bind_eq_bind] at h
  obtain ⟨t₁, h₁, h⟩ := Option.bind_eq_some_iff.mp h
  refine ⟨?_, ?_⟩
  · rw [afterLiteral_eq_some.mp h₁]
    exact List.prefix_append _ _
  · split at h
    · obtain ⟨t₂, h₂, h⟩ := Option.bind_eq_some_iff.mp h
      obtain ⟨t₃, h₃, h⟩ := Option.bind_eq_some_iff.mp h
      obtain ⟨t₄, h₄, h₅⟩ := Option.bind_eq_some_iff.mp h
      -- the brace, read off backwards through the pattern
      have hbrace : asciiByte '\x7b' :: rest <:+ skipSpace t₄ := by
        rw [afterLiteral_eq_some.mp h₅]
        exact List.suffix_refl _
      calc asciiByte '\x7b' :: rest
          <:+ skipSpace t₄ := hbrace
        _ <:+ t₄ := skipSpace_suffix t₄
        _ <:+ t₃.dropWhile _ := hliteral h₄
        _ <:+ t₃ := List.dropWhile_suffix _
        _ <:+ skipSpace t₂ := hliteral h₃
        _ <:+ t₂ := skipSpace_suffix t₂
        _ <:+ skipSpace t₁ := hliteral h₂
        _ <:+ t₁ := skipSpace_suffix t₁
        _ <:+ t := hliteral h₁
    · exact absurd h (by simp)

/-- The first part ends in the brace, and the two parts are the text. -/
theorem searchMain_eq_some {t front rest : Text} (h : searchMain t = some (front, rest)) :
    t = front ++ rest ∧ ∃ u, front = u ++ [asciiByte '\x7b'] := by
  induction t generalizing front with
  | nil => exact absurd h (by simp [searchMain])
  | cons b t ih =>
    rw [searchMain] at h
    split at h
    · rename_i rest' hmatch
      obtain ⟨rfl, rfl⟩ := Prod.mk.inj (Option.some.inj h)
      obtain ⟨u, hu⟩ := (afterMain_eq_some hmatch).2
      have htext : b :: t = (u ++ [asciiByte '\x7b']) ++ rest' := by simp [hu]
      have hfront : (b :: t).take ((b :: t).length - rest'.length) = u ++ [asciiByte '\x7b'] := by
        rw [htext, List.length_append, Nat.add_sub_cancel, List.take_left]
      rw [hfront]
      exact ⟨htext, u, rfl⟩
    · obtain ⟨⟨front', rest'⟩, hsearch, heq⟩ := Option.map_eq_some_iff.mp h
      obtain ⟨rfl, rfl⟩ := Prod.mk.inj heq
      obtain ⟨rfl, u, rfl⟩ := ih hsearch
      exact ⟨rfl, b :: u, rfl⟩

/-- No signature starts in a text without `int` and its beginnings. -/
theorem searchMain_append {u : Text} (h : Free (ascii "int") u) (t : Text) :
    searchMain (u ++ t) = (searchMain t).map fun (front, rest) => (u ++ front, rest) := by
  induction u with
  | nil => simp
  | cons b u ih =>
    have hsuffix : u <:+ b :: u := List.suffix_cons b u
    have htail : Free (ascii "int") u :=
      ⟨fun hpart => h.1 (hpart.trans hsuffix.isInfix), fun k hk hpos hend =>
        h.2 k hk hpos (hend.trans hsuffix)⟩
    have hnone : afterMain (b :: u ++ t) = none := by
      cases hmatch : afterMain (b :: u ++ t) with
      | none => rfl
      | some rest =>
        exfalso
        obtain ⟨v, hv⟩ := (afterMain_eq_some hmatch).1
        rcases List.append_eq_append_iff.mp hv with ⟨c, hc, -⟩ | ⟨c, hc, -⟩
        · exact h.1 ⟨[], c, hc.symm⟩
        · cases c with
          | nil => exact h.1 ⟨[], [], by rw [hc]; simp⟩
          | cons d c =>
            refine h.2 (b :: u).length ?_ (Nat.succ_pos _) ?_
            · rw [hc]
              simp only [List.length_append, List.length_cons]
              omega
            · rw [hc, List.take_left]
    rw [List.cons_append, searchMain, ← List.cons_append, hnone, ih htail, Option.map_map]
    rfl

/-- And the headers name no return type. -/
theorem free_requiredHeaders (base : Text) : Free (ascii "int") (requiredHeaders base) := by
  obtain ⟨b₁, b₂, b₃, hheaders⟩ := requiredHeaders_eq base
  have hfree : ∀ b₁ b₂ b₃, Free (ascii "int") (headersOf b₁ b₂ b₃) := by decide +kernel
  rw [hheaders]
  exact hfree b₁ b₂ b₃

/-! ## The code of the forge -/

/-- A base with the block reduced in it. -/
def reduced (base : Text) (paradigm : Nat) : Text :=
  match searchMain base with
  | some (front, rest) => front ++ stub (bracesAround paradigm) ++ rest
  | none => base ++ stub ((bracesAround paradigm).map (· + 1))

/-- **The code of the forge is a framed base**, and so is the base with the block reduced. -/
theorem framed_evolveCodebase (base : Text) (rng : Draws) :
    ∃ front rest braces headers block genome, Frame headers block genome braces ∧
      evolveCodebase base rng = framed headers front block rest genome ∧
      reduced base (paradigmOf rng) = framed [] front (stub braces) rest [] ∧
      (searchMain base = some (front, rest) ∨ (searchMain base = none ∧ front = base ∧ rest = [])) := by
  obtain ⟨code, kept, literals, hblock⟩ := insertion_synthesizeLogicBlock rng
  obtain ⟨n, hcode⟩ : ∃ n, evolveCodebase base rng =
      insertBlock (requiredHeaders base ++ base) (synthesizeLogicBlock rng).1 ++ genomeId n :=
    ⟨_, rfl⟩
  rw [hcode, insertBlock, searchMain_append (free_requiredHeaders base), reduced]
  cases hmain : searchMain base with
  | some match' =>
    obtain ⟨front, rest⟩ := match'
    refine ⟨front, rest, _, _, _, _, frame_of_insertion hblock base n, ?_, ?_, Or.inl rfl⟩
    · simp only [Option.map_some, framed, List.append_assoc]
    · simp only [framed, List.append_assoc, List.nil_append, List.append_nil]
  | none =>
    obtain ⟨code', kept', literals', horphan⟩ := insertion_orphan hblock.toBlock
    refine ⟨base, [], _, _, _, _, frame_of_insertion horphan base n, ?_, ?_,
      Or.inr ⟨rfl, rfl, rfl⟩⟩
    · simp only [Option.map_none, framed, List.append_assoc, List.nil_append]
    · simp only [framed, List.nil_append, List.append_nil]

/-- The brace of the first signature of `main`, if there is one, is program text: it stands in
no comment. -/
def MainInProgram (base : Text) : Prop :=
  ∀ front rest, searchMain base = some (front, rest) →
    ∃ kept, ∀ r, stripComments (front ++ r) = kept ++ asciiByte '\x7b' :: stripComments r

/-- **The verdict on the code of the forge** is the one on the base with the block reduced; and
the exception handling that the analyzer demands is that of the base, unless the signature of
`main` stands in a comment. -/
theorem accepted_iff (base : Text) (rng : Draws) :
    ((evaluateMutation (evolveCodebase base rng)).isSafe = true ↔
      (evaluateMutation (reduced base (paradigmOf rng))).isSafe = true) ∧
    (MainInProgram base → (evaluateMutation (evolveCodebase base rng)).isSafe = true →
      ∀ w ∈ [ascii "catch", ascii "try"], w <:+: stripCommentsAndStrings base) := by
  obtain ⟨front, rest, braces, headers, block, genome, hframe, hcode, hreduced, hplace⟩ :=
    framed_evolveCodebase base rng
  have hparts : base = front ++ rest ∧ ((∃ u, front = u ++ [asciiByte '\x7b']) ∨ rest = []) ∧
      (MainInProgram base → InProgram front rest) := by
    rcases hplace with hmain | ⟨-, rfl, rfl⟩
    · obtain ⟨hbase, hbrace⟩ := searchMain_eq_some hmain
      exact ⟨hbase, Or.inl hbrace, fun h => Or.inr (h front rest hmain)⟩
    · exact ⟨(List.append_nil _).symm, Or.inr rfl, fun _ => Or.inl rfl⟩
  obtain ⟨hbase, hend, hprogram⟩ := hparts
  obtain ⟨verdict, hverdict, hwords⟩ := isSafe_framed braces hend
  rw [hcode, hreduced, hverdict hframe, hverdict (frame_stub braces)]
  refine ⟨Iff.rfl, fun hmain hsafe => ?_⟩
  rw [hbase]
  exact hwords (hprogram hmain) hsafe

/-- A base with a `main` that lacks nothing but exception handling. -/
structure LacksHandling (base : Text) : Prop where
  main     : (searchMain base).isSome = true
  balanced : (stripCommentsAndStrings base).count (asciiByte '\x7b') =
    (stripCommentsAndStrings base).count (asciiByte '\x7d')
  safe     : ∀ threat ∈ getThreatSignatures, threat.1 base = false
  lacks    : ¬ ∀ w ∈ [ascii "catch", ascii "try"], w <:+: stripCommentsAndStrings base

/-- The base algorithm of `main` is one, and its mutations are rejected. -/
theorem accepted_fails_on_mainBaseAlgorithm : ¬ ∀ base rng, LacksHandling base →
    (evaluateMutation (evolveCodebase base rng)).isSafe = true := by
  intro h
  have hlacks : LacksHandling mainBaseAlgorithm :=
    ⟨by decide +kernel, by decide +kernel, by decide +kernel, by decide +kernel⟩
  have hrejected : (evaluateMutation (evolveCodebase mainBaseAlgorithm fun _ => 0)).isSafe =
      false := by decide +kernel
  rw [h mainBaseAlgorithm _ hlacks] at hrejected
  exact absurd hrejected (by simp)

/-- Behind a comment with a signature, the line break sets free what follows the signature. -/
example : (evaluateMutation (evolveCodebase
    (ascii "// int main() \x7b try \x7b\x7d catch\nint main() \x7b\x7d") fun _ => 0)).isSafe =
      true := by decide +kernel

end Swayam.Forge
