import Swayam.Forge.Block

/-!
# SWAYAM — what the forge puts around a base

A base in two parts, with headers in front, a block between the parts and a
genome id behind (`framed`). None of these texts decides a check of the analyzer
wherever it stands (`Neutral`), and no pattern lies across their ends (`Frame`).

* `frame_of_insertion` — the texts of the forge are a frame;
* `frame_stub` — so is the block alone, reduced to a line break, a string literal
  and braces (`stub`).
-/

namespace Swayam.Forge

open Search

/-! ## Texts that decide nothing -/

/-- Neither of the words of exception handling. -/
def NoHandler (t : Text) : Prop := ∀ w ∈ [ascii "try", ascii "catch"], ¬ w <:+: t

/-- Wherever it stands, a text decides none of the checks of the analyzer. -/
structure Neutral (t code kept : Text) : Prop where
  comments : ∀ rest, stripComments (t ++ rest) = code ++ stripComments rest
  noEnd    : commentEnd t = none ∧ t.getLast? ≠ some star
  strings  : ∀ rest, stripStrings (code ++ rest) = kept ++ stripStrings rest
  words    : NoHandler kept
  balanced : depth kept = 0
  main     : ¬ ascii "main" <:+: t
  threats  : ∀ threat ∈ threatPatterns, ¬ Occurs threat.1 threat.2 t

/-- Nothing changes nothing. -/
theorem neutral_nil : Neutral [] [] [] where
  comments _ := rfl
  noEnd := ⟨rfl, by simp⟩
  strings _ := rfl
  words := by
    unfold NoHandler
    decide
  balanced := rfl
  main := by decide
  threats threat hmem := not_occurs_of_notMem (fun _ => compact_of_threat hmem) (by simp)

/-- A text free of the grams handles nothing. -/
theorem noHandler_of_free {t : Text} (h : ∀ w ∈ keptGrams, Free w t) : NoHandler t := by
  intro w hw
  simp only [List.mem_cons, List.not_mem_nil, or_false] at hw
  rcases hw with rfl | rfl
  · have hgram : ascii "ry" <:+: ascii "try" := by decide
    exact fun hword => (h _ (by decide)).1 (hgram.trans hword)
  · have hgram : ascii "ch" <:+: ascii "catch" := by decide
    exact fun hword => (h _ (by decide)).1 (hgram.trans hword)

/-- A balanced insertion is neutral. -/
theorem Inserts.neutral {t code kept : Text} {literals : Literals}
    (h : Inserts t code kept literals) (hdepth : depth kept = 0) : Neutral t code kept where
  comments := h.comments
  noEnd := h.noEnd
  strings := h.strings
  words := noHandler_of_free fun w hw => (h.keptFree w hw).1
  balanced := hdepth
  main := (clean_of_free h.free).2
  threats := (clean_of_free h.free).1

/-- Text that parts what it stands between: it holds no word, and none goes on into it. -/
structure Parted (t : Text) : Prop where
  ends  : Sealed t
  words : NoHandler t

/-- **What may stand in the place of the block**: neutral text on lines of its own, whose literals
hold nothing that counts, with as many braces open around the last of them. -/
structure Within (block code kept : Text) (literals : Literals) (braces : Option Nat) : Prop where
  neutral   : Neutral block code kept
  kept      : Parted kept
  codeFirst : code.head? = some newline
  lines     : block.head? = some newline ∧ block.getLast? = some newline
  inverted  : Inverted code literals
  around    : literals.map (fun l => depth l.2) = braces.map fun n => -(n : Int)
  shown     : ∀ l ∈ literals, depth l.1 = 0 ∧ Parted l.1 ∧ Parted (l.1 ++ quote :: l.2)
  apart     : ∀ v, Apart block v

/-- **Where the parts meet**: the headers, what stands in the place of the block, and the genome
id begin and end with their lines, and no pattern lies across. -/
structure Frame (headers block genome : Text) (braces : Option Nat) : Prop where
  before : Neutral headers headers headers ∧ (∀ b, headers.getLast? = some b → b = newline) ∧
    ∀ v, Apart headers v
  within : ∃ code kept literals, Within block code kept literals braces
  after  : ∃ code, Neutral genome code code ∧ quote ∉ code ∧
    (∀ b, genome.head? = some b → b = newline) ∧ (∀ b, code.head? = some b → b = newline) ∧
    ∀ u, Apart u genome
  seam   : ∀ u, Apart u (block ++ genome)

/-- A base in two parts, with the texts around and between them. -/
def framed (headers front block rest genome : Text) : Text :=
  headers ++ (front ++ (block ++ (rest ++ genome)))

/-! ## The frames -/

/-- Nothing stands apart from everything, -/
theorem apart_nil (v : Text) : Apart [] v := by
  intro p₁ p₂ front rest _ hu _
  exact Or.inl (List.append_eq_nil_iff.mp hu.symm).2

/-- and so does a text without terminals, -/
theorem apart_of_noTerminal {v : Text} (h : ∀ b ∈ v, isTerminal b = false) (u : Text) :
    Apart u v := by
  intro p₁ p₂ front rest hp _ hv
  rw [or_iff_not_imp_right]
  intro hne
  obtain ⟨inner, b, heq, hb, -⟩ := hp.ends
  -- the terminal would stand in the second part
  have hlast : p₂.getLast hne = b := by
    have hends : (p₁ ++ p₂).getLast? = some b := by rw [heq, List.getLast?_concat]
    rw [List.getLast?_append, List.getLast?_eq_some_getLast hne] at hends
    exact Option.some.inj hends
  have hmem : b ∈ v := by
    rw [hv, ← hlast]
    exact List.mem_append_left _ (List.getLast_mem hne)
  rw [h b hmem] at hb
  exact absurd hb (by simp)

/-- and a line end. -/
theorem apart_newline (v : Text) : Apart [newline] v := by
  intro p₁ p₂ front rest hp hu _
  cases p₁ with
  | nil => exact Or.inl rfl
  | cons b p₁ =>
    -- a pattern does not start with white space
    have hb : b = newline := List.mem_singleton.mp (by rw [hu]; simp)
    have hstart := hp.start b rfl
    rw [hb] at hstart
    exact absurd hstart (by decide)

/-- A block stands apart from what is around it. -/
theorem Block.sealed {t code kept : Text} {literals : Literals} {braces : Option Nat}
    (h : Block t code kept literals braces) (hfirst : kept.head? = some newline) :
    Parted kept ∧ ∀ l ∈ literals, depth l.1 = 0 ∧ Parted l.1 ∧ Parted (l.1 ++ quote :: l.2) := by
  refine ⟨⟨⟨_, _, hfirst, h.last, by decide, by decide⟩,
    noHandler_of_free fun w hw => (h.keptFree w hw).1⟩, fun l hl => ?_⟩
  obtain ⟨hdepth, ⟨b, c, hhead, hlast, hb, hc⟩, hnewline⟩ := h.shown l hl
  have hfree := fun w hw => (h.keptFree w hw).2 l hl
  have hquote : ∀ w ∈ keptGrams, Free w [quote] := by decide
  refine ⟨hdepth, ⟨⟨b, c, hhead, hlast, hb, hc⟩, noHandler_of_free fun w hw => (hfree w hw).1⟩,
    ⟨b, newline, ?_, ?_, hb, by decide⟩, noHandler_of_free fun w hw => ?_⟩
  · rw [List.head?_append, hhead]
    rfl
  · rw [List.getLast?_append, List.getLast?_cons, hnewline]
    rfl
  · exact (hfree w hw).1.append ((hquote w hw).append (hfree w hw).2)

/-- So it may stand within a program. -/
theorem Block.within {t code kept : Text} {literals : Literals} {braces : Option Nat}
    (h : Block t code kept literals braces)
    (hfirst : t.head? = some newline ∧ code.head? = some newline ∧ kept.head? = some newline) :
    Within t code kept literals braces where
  neutral := h.toInserts.neutral h.balanced
  kept := (h.sealed hfirst.2.2).1
  codeFirst := hfirst.2.1
  lines := by
    obtain ⟨u, x, hlast, -⟩ := h.barrier
    refine ⟨hfirst.1, ?_⟩
    rw [hlast, List.getLast?_append]
    rfl
  inverted := h.inverted
  around := h.around
  shown := (h.sealed hfirst.2.2).2
  apart v := by
    obtain ⟨u, x, hlast, hx⟩ := h.barrier
    rw [hlast]
    exact apart_of_barrier [newline] hx (List.all_eq_true.mp (by decide)) v

/-- **The block, reduced** to a line break and, if it has string literals, one of them in as many
braces as stand around the last. -/
def stub : Option Nat → Text
  | none => [newline]
  | some n => (newline :: List.replicate n (asciiByte '\x7b')) ++ (ascii "\"\n\"" ++
      (ascii ";" ++ List.replicate n (asciiByte '\x7d') ++ [newline]))

/-- Braces alone. -/
theorem depth_braces (n : Nat) : depth (List.replicate n (asciiByte '\x7b')) = n ∧
    depth (List.replicate n (asciiByte '\x7d')) = -(n : Int) := by
  have hne : asciiByte '\x7b' ≠ asciiByte '\x7d' := by decide
  constructor
  · rw [depth, List.count_replicate_self, List.count_replicate, if_neg (by simpa using hne)]
    simp
  · rw [depth, List.count_replicate_self, List.count_replicate, if_neg (by simpa using hne.symm)]
    simp

/-- The reduced block with a literal is a block of lines, too. -/
theorem block_stub (n : Nat) : Block (stub (some n)) (stub (some n))
    ((newline :: List.replicate n (asciiByte '\x7b')) ++
      ([] ++ (ascii ";" ++ List.replicate n (asciiByte '\x7d') ++ [newline])))
    (some ([newline], ascii ";" ++ List.replicate n (asciiByte '\x7d') ++ [newline])) (some n) := by
  have hfront := inserts_inert (t := newline :: List.replicate n (asciiByte '\x7b')) (by
    intro b hb
    rcases List.mem_cons.mp hb with rfl | hb
    · rfl
    · rw [List.eq_of_mem_replicate hb]
      rfl)
  have hstring : Inserts (ascii "\"\n\"") (ascii "\"\n\"") [] (some ([newline], [])) :=
    inserts_string [newline] (by decide) (by decide) (fun _ => rfl) (by decide)
      (by decide) (by decide)
  have hback := inserts_inert
    (t := ascii ";" ++ List.replicate n (asciiByte '\x7d') ++ [newline]) (by
      intro b hb
      simp only [List.mem_append] at hb
      rcases hb with (hb | hb) | hb
      · exact List.all_eq_true.mp (by decide) b hb
      · rw [List.eq_of_mem_replicate hb]
        rfl
      · exact List.all_eq_true.mp (by decide) b hb)
  -- the braces in front are closed behind
  obtain ⟨hopen, hclose⟩ := depth_braces n
  have hdepth : depth (newline :: List.replicate n (asciiByte '\x7b')) = n := by
    rw [← List.singleton_append, depth_append, hopen, (by decide : depth [newline] = 0)]
    omega
  have hdepth' : depth (ascii ";" ++ List.replicate n (asciiByte '\x7d') ++ [newline]) =
      -(n : Int) := by
    rw [depth_append, depth_append, hclose, (by decide : depth [newline] = 0),
      (by decide : depth (ascii ";") = 0)]
    omega
  refine ⟨hfront.append (hstring.append hback), ?_, ?_, ?_, fun l hl => ?_, ?_⟩
  · rw [depth_append, depth_append, hdepth, hdepth', (by decide : depth [] = 0)]
    omega
  · simp only [List.getLast?_append]
    rfl
  · refine EndsInBarrier.append ?_ _
    refine EndsInBarrier.append ?_ _
    -- without braces the barrier is the semicolon
    cases n with
    | zero => exact ⟨[], asciiByte ';', rfl, rfl⟩
    | succ n =>
      refine ⟨ascii ";" ++ List.replicate n (asciiByte '\x7d'), asciiByte '\x7d', ?_, rfl⟩
      rw [List.replicate_succ']
      simp
  · obtain rfl := Option.some.inj hl
    refine ⟨(by decide : depth [newline] = 0), ⟨_, _, rfl, rfl, by decide, by decide⟩, ?_⟩
    simp only [List.getLast?_append]
    rfl
  · exact congrArg some hdepth'

/-- The stub is such a block. -/
theorem within_stub (braces : Option Nat) :
    ∃ code kept literals, Within (stub braces) code kept literals braces := by
  cases braces with
  | none =>
    have hinserts : Inserts [newline] [newline] [newline] none :=
      inserts_inert (List.all_eq_true.mp (by decide))
    refine ⟨[newline], [newline], none, hinserts.neutral rfl, ⟨?_, ?_⟩, rfl, ⟨rfl, rfl⟩,
      hinserts.inverted, rfl, by simp, apart_newline⟩
    · exact ⟨newline, newline, rfl, rfl, by decide, by decide⟩
    · exact noHandler_of_free (by decide)
  | some n => exact ⟨_, _, _, (block_stub n).within ⟨rfl, rfl, rfl⟩⟩

/-- Nothing but the block, reduced. -/
theorem frame_stub (braces : Option Nat) : Frame [] (stub braces) [] braces where
  before := ⟨neutral_nil, by simp, apart_nil⟩
  within := within_stub braces
  after := ⟨[], neutral_nil, by simp, by simp, by simp, apart_of_noTerminal (by simp)⟩
  seam := by
    refine apart_of_noTerminal ?_
    rw [List.append_nil]
    cases braces with
    | none => exact eq_false_of_any (by decide)
    | some n =>
      intro b hb
      simp only [stub, List.mem_append, List.mem_cons, List.mem_replicate] at hb
      rcases hb with (rfl | ⟨-, rfl⟩) | hb | (hb | ⟨-, rfl⟩) | rfl | hb
      · rfl
      · rfl
      · exact eq_false_of_any (by decide) b hb
      · exact eq_false_of_any (by decide) b hb
      · rfl
      · rfl
      · exact absurd hb (by simp)

/-- The headers, by which of them are there already. -/
def headersOf (b₁ b₂ b₃ : Bool) : Text :=
  (if b₁ then [] else ascii "#include <fstream>\n") ++
  (if b₂ then [] else ascii "#include <filesystem>\n") ++
  (if b₃ then [] else ascii "#include <system_error>\n")

/-- The headers are three optional lines, -/
theorem requiredHeaders_eq (base : Text) :
    ∃ b₁ b₂ b₃, requiredHeaders base = headersOf b₁ b₂ b₃ :=
  ⟨decide (ascii "<fstream>" <:+: base), decide (ascii "<filesystem>" <:+: base),
    decide (ascii "<system_error>" <:+: base),
    by simp only [requiredHeaders, headersOf, decide_eq_true_eq]⟩

/-- each of them neutral. -/
theorem neutral_headers (base : Text) :
    Neutral (requiredHeaders base) (requiredHeaders base) (requiredHeaders base) ∧
      (∀ b, (requiredHeaders base).getLast? = some b → b = newline) ∧
      ∀ v, Apart (requiredHeaders base) v := by
  obtain ⟨b₁, b₂, b₃, hheaders⟩ := requiredHeaders_eq base
  rw [hheaders]
  have hthreats : ∀ b₁ b₂ b₃, ∀ threat ∈ getThreatSignatures,
      threat.1 (headersOf b₁ b₂ b₃) = false := by decide +kernel
  have hplain : ∀ b₁ b₂ b₃, slash ∉ headersOf b₁ b₂ b₃ ∧ quote ∉ headersOf b₁ b₂ b₃ ∧
      (headersOf b₁ b₂ b₃).getLast? ≠ some star ∧ depth (headersOf b₁ b₂ b₃) = 0 ∧
      (∀ w ∈ [ascii "try", ascii "catch", ascii "main"], ¬ w <:+: headersOf b₁ b₂ b₃) ∧
      (headersOf b₁ b₂ b₃ = [] ∨ [asciiByte '>', newline] <:+ headersOf b₁ b₂ b₃) := by
    decide +kernel
  obtain ⟨hslash, hquote, hstar, hdepth, hwords, hends⟩ := hplain b₁ b₂ b₃
  refine ⟨⟨stripComments_append_of_notMem hslash, ⟨commentEnd_eq_none hslash, hstar⟩,
    stripStrings_append_of_notMem hquote, fun w hw => hwords w ?_, hdepth,
    hwords _ (by decide), (noThreat_iff _).mp (hthreats b₁ b₂ b₃)⟩, fun b hb => ?_, fun v => ?_⟩
  · simp only [List.mem_cons, List.not_mem_nil, or_false] at hw ⊢
    tauto
  · rcases hends with hnil | ⟨u, hu⟩
    · rw [hnil] at hb
      exact absurd hb (by simp)
    · rw [← hu, List.getLast?_append] at hb
      exact (Option.some.inj hb).symm
  · rcases hends with hnil | ⟨u, hu⟩
    · rw [hnil]
      exact apart_nil v
    · rw [← hu]
      exact apart_of_barrier [newline] rfl (List.all_eq_true.mp (by decide)) v

/-- The genome id, for every number. -/
def genomeId (n : Nat) : Text := ascii "\n// [EVO-GENOME-ID: 0x" ++ decimal n ++ ascii "]\n"

/-- The genome line is a comment, -/
theorem genomeId_eq (n : Nat) : genomeId n = (newline :: ascii "// ") ++
    asciiByte '[' :: (ascii "EVO-GENOME-ID: 0x" ++ (decimal n ++ ascii "]\n")) := by
  have hfront : ascii "\n// [EVO-GENOME-ID: 0x" =
      (newline :: ascii "// ") ++ asciiByte '[' :: ascii "EVO-GENOME-ID: 0x" := rfl
  rw [genomeId, hfront]
  simp only [List.append_assoc, List.cons_append]

/-- of which its line ends are left. -/
theorem neutral_genomeId (n : Nat) : Neutral (genomeId n) [newline, newline] [newline, newline] := by
  have htext : genomeId n = [newline] ++ (slash :: slash ::
      ((ascii " [EVO-GENOME-ID: 0x" ++ (decimal n ++ ascii "]")) ++ [newline])) := by
    have hfront : ascii "\n// [EVO-GENOME-ID: 0x" =
        [newline] ++ (slash :: slash :: ascii " [EVO-GENOME-ID: 0x") := rfl
    have hback : ascii "]\n" = ascii "]" ++ [newline] := rfl
    rw [genomeId, hfront, hback]
    simp only [List.append_assoc, List.cons_append]
  have hline : ∀ b ∈ ascii " [EVO-GENOME-ID: 0x" ++ (decimal n ++ ascii "]"),
      isLineEnd b = false := by
    intro b hb
    rcases List.mem_append.mp hb with hb | hb
    · exact eq_false_of_any (by decide) b hb
    · rcases List.mem_append.mp hb with hb | hb
      · rw [isLineEnd, Bool.or_eq_false_iff, decide_eq_false_iff_not, decide_eq_false_iff_not]
        constructor
        · rintro rfl
          exact notMem_decimal rfl n hb
        · rintro rfl
          exact notMem_decimal rfl n hb
      · exact eq_false_of_any (by decide) b hb
  have hparts : slash :: slash :: ((ascii " [EVO-GENOME-ID: 0x" ++ (decimal n ++ ascii "]")) ++
      [newline]) = (slash :: slash :: ascii " [EVO-GENOME-ID: 0x") ++
        (decimal n ++ (ascii "]" ++ [newline])) := by
    simp only [List.append_assoc, List.cons_append]
  have hend : commentEnd (slash :: slash ::
      ((ascii " [EVO-GENOME-ID: 0x" ++ (decimal n ++ ascii "]")) ++ [newline])) = none := by
    have htail : slash ∉ decimal n ++ (ascii "]" ++ [newline]) := by
      rw [List.mem_append, not_or]
      exact ⟨notMem_decimal rfl n, by decide⟩
    rw [hparts, commentEnd_append_of_eq_none (by decide) (fun h => absurd h (by decide)),
      commentEnd_eq_none htail]
    rfl
  have hfree : ∀ w ∈ rawGrams, Free w (slash :: slash ::
      ((ascii " [EVO-GENOME-ID: 0x" ++ (decimal n ++ ascii "]")) ++ [newline])) := by
    intro w hw
    rw [hparts]
    have hfront : ∀ w ∈ rawGrams, Free w (slash :: slash :: ascii " [EVO-GENOME-ID: 0x") := by
      decide
    have hback : ∀ w ∈ rawGrams, Free w (ascii "]" ++ [newline]) := by decide
    exact (hfront w hw).append (((inserts_decimal n).free w hw).append (hback w hw))
  rw [htext]
  exact ((inserts_code (t := [newline]) (by decide)).append
    (inserts_comment _ hline hend hfree)).neutral rfl

/-- What the forge puts around and into a base. -/
theorem frame_of_insertion {t code kept : Text} {literals : Literals} {braces : Option Nat}
    (h : Insertion t code kept literals braces) (base : Text) (n : Nat) :
    Frame (requiredHeaders base) t (genomeId n) braces where
  before := neutral_headers base
  within := by
    obtain ⟨z, v, hfirst, -⟩ := h.first
    exact ⟨code, kept, literals, h.toBlock.within ⟨by rw [hfirst]; rfl, h.codeFirst, h.keptFirst⟩⟩
  after := by
    refine ⟨[newline, newline], neutral_genomeId n, by decide, fun b hb => ?_, fun b hb => ?_,
      fun u => ?_⟩
    · exact (Option.some.inj hb).symm
    · exact (Option.some.inj hb).symm
    · rw [genomeId_eq]
      exact apart_of_behind (eq_false_of_any (by decide)) rfl rfl u
  seam u := by
    obtain ⟨z, v, hfirst, hz⟩ := h.first
    rw [hfirst, List.append_assoc]
    exact apart_of_behind hz rfl rfl u

end Swayam.Forge
