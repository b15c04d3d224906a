import Swayam.Analyzer.Shielding

/-!
# SWAYAM — verdicts on sources with the same tokens

What the compiler does not see decides the verdict of the analyzer. The threats
are searched in the comments too; and a comment that goes on over a line splice
goes on for the compiler only, so that it can supply whatever the stripped text
lacks.

* `lex_behind_comment` — a comment in front changes no other piece;
* `exists_rejected`, `exists_accepted` — of the texts with the tokens of a given one,
  one is rejected and one is accepted;
* `sameVerdicts_iff` — but for the texts with a threat that is itself a token.
-/

namespace Swayam.Cpp

/-! ## A comment in front -/

/-- **A comment in front** of a text is a piece of its own. -/
theorem lex_behind_comment {front t : Text} {comment : List Glyph}
    (hreads : ∀ gs, Reads t gs → Reads (front ++ newline :: t) (comment ++ ⟨[], newline⟩ :: gs))
    (hslashes : ascii "//" <+: bytes comment) (hline : ∀ b ∈ bytes comment, isLineEnd b = false) :
    lex (front ++ newline :: t) =
      ⟨.comment, comment⟩ :: ⟨.space, [⟨[], newline⟩]⟩ :: piecesOf t := by
  have hglyphs := (hreads _ (reads_glyphs (.nil t))).glyphs_eq
  obtain ⟨text, htext⟩ := hslashes
  -- no mark starts with a slash
  have hmark : behindMark (front ++ newline :: t) = front ++ newline :: t := by
    refine behindMark_of_not ?_
    rintro ⟨u, hu⟩
    rw [← hu, glyphs_marked] at hglyphs
    have hcomment : bytes (comment ++ ⟨[], newline⟩ :: glyphs [] 0 t) =
        slash :: slash :: (text ++ bytes (⟨[], newline⟩ :: glyphs [] 0 t)) := by
      rw [bytes, List.map_append, ← bytes, ← htext]
      rfl
    rw [← hglyphs] at hcomment
    exact absurd (List.cons.inj hcomment).1 (by decide)
  rw [lex, hmark, piecesOf, hglyphs, piecesOf]
  generalize glyphs [] 0 t = gs
  have hbytes : bytes (comment ++ ⟨[], newline⟩ :: gs) = bytes comment ++ newline :: bytes gs := by
    simp [bytes]
  have hcons : bytes (comment ++ ⟨[], newline⟩ :: gs) =
      slash :: slash :: (text ++ newline :: bytes gs) := by
    rw [hbytes, ← htext]
    rfl
  -- the comment goes up to the end of its line
  have hlexeme : lexeme .lineStart (comment ++ ⟨[], newline⟩ :: gs) =
      (.comment, comment.length) := by
    have htake : (slash :: slash :: (text ++ newline :: bytes gs)).takeWhile
        (fun b => !isLineEnd b) = bytes comment := by
      rw [← hcons, hbytes]
      refine takeWhile_eq (fun b hb => by rw [hline b hb]; rfl) fun b hb => ?_
      rw [← Option.some.inj hb]
      rfl
    have hspace : isWhite slash = false := rfl
    unfold lexeme
    rw [hcons]
    dsimp only
    rw [if_neg (by simp [hspace]), if_pos ⟨rfl, rfl⟩, htake, bytes, List.length_map]
  have hnewline : lexeme .lineStart (⟨[], newline⟩ :: gs) = (.space, 1) := rfl
  obtain ⟨g, comment', rfl⟩ : ∃ g comment', comment = g :: comment' := by
    cases comment with
    | nil => exact absurd htext (by simp [bytes, ascii])
    | cons g comment => exact ⟨g, comment, rfl⟩
  rw [List.cons_append] at hlexeme ⊢
  rw [pieces_cons_eq, firstPiece, hlexeme]
  dsimp only
  rw [← List.cons_append, List.take_left, List.drop_left, pieces_cons_eq, firstPiece]
  have hnext : Context.next .lineStart ⟨.comment, g :: comment'⟩ = .lineStart := rfl
  rw [hnext, hnewline]
  rfl

/-- The tokens behind it are those of the text. -/
theorem sourceTokens_behind_comment {front t : Text} {comment : List Glyph}
    (hreads : ∀ gs, Reads t gs → Reads (front ++ newline :: t) (comment ++ ⟨[], newline⟩ :: gs))
    (hslashes : ascii "//" <+: bytes comment) (hline : ∀ b ∈ bytes comment, isLineEnd b = false) :
    sourceTokens (front ++ newline :: t) = (piecesOf t).filterMap Piece.sourceToken ∧
      ((∀ p ∈ piecesOf t, p.isAllowed = true) → Lexable (front ++ newline :: t)) := by
  have hlex := lex_behind_comment hreads hslashes hline
  constructor
  · rw [sourceTokens, hlex]
    rfl
  · intro h p hp
    rw [hlex] at hp
    rcases List.mem_cons.mp hp with rfl | hp
    · show ((ascii "//").isPrefixOf (bytes comment) || _) = true
      rw [List.isPrefixOf_iff_prefix.mpr hslashes, Bool.true_or]
    · rcases List.mem_cons.mp hp with rfl | hp
      · rfl
      · exact h p hp

/-! ## A rejected text -/

/-- **A rejected text with the same tokens.** -/
theorem exists_rejected {sourceCode : Text} (hlex : Lexable sourceCode) :
    ∃ other, other ≠ [] ∧ Lexable other ∧ sourceTokens other = sourceTokens sourceCode ∧
      (evaluateMutation other).isSafe = false := by
  have hreads : ∀ gs, Reads (behindMark sourceCode) gs →
      Reads (ascii "// fork(" ++ newline :: behindMark sourceCode)
        ((ascii "// fork(").map (fun b => ⟨[], b⟩) ++ ⟨[], newline⟩ :: gs) := by
    intro gs h
    exact Reads.append_bare (by decide)
      (.cons (.nil _) (by rw [afterSplice, if_neg (by decide)]) h)
  obtain ⟨htokens, hlexable⟩ := sourceTokens_behind_comment hreads (by decide)
    (eq_false_of_any (by decide))
  refine ⟨_, by simp, hlexable hlex, htokens, ?_⟩
  rw [← Bool.not_eq_true, isSafe_iff]
  rintro ⟨-, -, -, -, hthreats, -⟩
  rw [noThreat_iff] at hthreats
  refine hthreats (CallPattern ["popen", "execl", "system", "execve", "fork"], true) (by
    simp [threatPatterns])
    ⟨ascii "// ", ascii "fork(", newline :: behindMark sourceCode, rfl, ?_, fun _ => ?_⟩
  · exact ⟨"fork", by simp, [], by simp [Spaces], rfl⟩
  · intro b hb
    rw [← Option.some.inj hb]
    rfl

/-! ## An accepted text -/

/-- The second line of a comment, which is none for the analyzer. -/
def supplied (n m : Nat) : Text :=
  List.replicate n (asciiByte '\x7b') ++ List.replicate m (asciiByte '\x7d') ++ ascii " try catch"

/-- A comment that goes on over a line splice. -/
def supplement (n m : Nat) : Text :=
  ascii "// main " ++ ([escape, newline] ++ asciiByte ' ' :: supplied n m)

def supplementGlyphs (n m : Nat) : List Glyph :=
  (ascii "// main ").map (fun b => ⟨[], b⟩) ++
    ⟨[escape, newline], asciiByte ' '⟩ :: (supplied n m).map fun b => ⟨[], b⟩

/-- No byte of it means anything to the two passes. -/
theorem mem_supplied {n m : Nat} {b : Byte} (hb : b ∈ supplied n m) :
    b ∈ ascii "\x7b\x7d trycatch" := by
  simp only [supplied, List.mem_append, List.mem_replicate] at hb
  rcases hb with (⟨-, rfl⟩ | ⟨-, rfl⟩) | hb
  · decide
  · decide
  · exact (by decide : ascii " try catch" ⊆ ascii "\x7b\x7d trycatch") hb

/-- The supplement is read on its own line. -/
theorem reads_supplement {n m : Nat} {t : Text} {gs : List Glyph} (h : Reads t gs) :
    Reads (supplement n m ++ newline :: t) (supplementGlyphs n m ++ ⟨[], newline⟩ :: gs) := by
  have hnone : ∀ {b : Byte} {t : Text}, b ≠ escape → afterSplice (b :: t) = none :=
    fun hb => if_neg hb
  have hescape : escape ∉ supplied n m := fun hmem => absurd (mem_supplied hmem) (by decide)
  have hline : Reads (supplied n m ++ newline :: t)
      ((supplied n m).map (fun b => ⟨[], b⟩) ++ ⟨[], newline⟩ :: gs) :=
    Reads.append_bare hescape (.cons (.nil _) (hnone (by decide)) h)
  have hsplice : Splices [escape, newline] (asciiByte ' ' :: (supplied n m ++ newline :: t)) := by
    have hone := Splices.append (.nil _)
      (spliceOf_shield (asciiByte ' ' :: (supplied n m ++ newline :: t)))
    rwa [List.nil_append] at hone
  have hall := Reads.append_bare (u := ascii "// main ") (by decide)
    (.cons hsplice (hnone (by decide)) hline)
  have htext : supplement n m ++ newline :: t = ascii "// main " ++
      ([escape, newline] ++ asciiByte ' ' :: (supplied n m ++ newline :: t)) := by
    rw [supplement]
    simp only [List.append_assoc, List.cons_append]
  rw [htext, supplementGlyphs, List.append_assoc, List.cons_append]
  exact hall

/-- What is stripped from a text behind the comment. -/
theorem strip_supplement (n m : Nat) (t : Text) :
    stripCommentsAndStrings (supplement n m ++ newline :: t) =
      (newline :: asciiByte ' ' :: (supplied n m ++ [newline])) ++ stripCommentsAndStrings t := by
  have hmem : ∀ x, x ∉ ascii "\n \x7b\x7dtrycatch" →
      x ∉ newline :: asciiByte ' ' :: (supplied n m ++ [newline]) := by
    intro x hx hmem
    refine hx ?_
    simp only [List.mem_cons, List.mem_append, List.not_mem_nil, or_false] at hmem
    rcases hmem with rfl | rfl | hmem | rfl
    · decide
    · decide
    · exact (by decide : ascii "\x7b\x7d trycatch" ⊆ ascii "\n \x7b\x7dtrycatch") (mem_supplied hmem)
    · decide
  have htext : supplement n m ++ newline :: t = slash :: slash :: (ascii " main \\" ++
      ((newline :: asciiByte ' ' :: (supplied n m ++ [newline])) ++ t)) := by
    rw [supplement]
    simp [ascii, slash, escape]
  have hdrop : (ascii " main \\" ++
      ((newline :: asciiByte ' ' :: (supplied n m ++ [newline])) ++ t)).dropWhile
      (fun b => !isLineEnd b) = (newline :: asciiByte ' ' :: (supplied n m ++ [newline])) ++ t := rfl
  rw [stripCommentsAndStrings_eq, htext, stripComments_line, hdrop,
    stripComments_append_of_notMem (hmem _ (by decide)),
    stripStrings_append_of_notMem (hmem _ (by decide))]
  rfl

/-- It supplies the braces asked for. -/
theorem count_supplied (n m : Nat) :
    (newline :: asciiByte ' ' :: (supplied n m ++ [newline])).count (asciiByte '\x7b') = n ∧
      (newline :: asciiByte ' ' :: (supplied n m ++ [newline])).count (asciiByte '\x7d') = m := by
  have hsplit : newline :: asciiByte ' ' :: (supplied n m ++ [newline]) =
      [newline, asciiByte ' '] ++ (List.replicate n (asciiByte '\x7b') ++
        (List.replicate m (asciiByte '\x7d') ++ ascii " try catch\n")) := by
    rw [supplied]
    simp [ascii]
    rfl
  have hopen : [newline, asciiByte ' '].count (asciiByte '\x7b') = 0 := by decide
  have hopen' : (ascii " try catch\n").count (asciiByte '\x7b') = 0 := by decide
  have hclose : [newline, asciiByte ' '].count (asciiByte '\x7d') = 0 := by decide
  have hclose' : (ascii " try catch\n").count (asciiByte '\x7d') = 0 := by decide
  have hne : (asciiByte '\x7b' == asciiByte '\x7d') = false := by decide
  have hne' : (asciiByte '\x7d' == asciiByte '\x7b') = false := by decide
  rw [hsplit]
  simp only [List.count_append, List.count_replicate, hopen, hopen', hclose, hclose', hne, hne',
    beq_self_eq_true]
  simp

/-- **An accepted text with the same tokens**, unless one of them is a threat. -/
theorem exists_accepted {sourceCode : Text} (hlex : Lexable sourceCode)
    (hopening : ∀ p ∈ lex sourceCode, p.isRaw = true →
      ∀ threat ∈ threatPatterns, ¬ Occurs threat.1 threat.2 p.opening) :
    ∃ other, other ≠ [] ∧ Lexable other ∧ sourceTokens other = sourceTokens sourceCode ∧
      (evaluateMutation other).isSafe = true := by
  obtain ⟨shielded, hsilent, hshielded⟩ := exists_shielded hopening
  -- the same pieces, the same tokens
  have htokens : (piecesOf shielded).filterMap Piece.sourceToken = sourceTokens sourceCode := by
    rw [hshielded, List.filterMap_map, sourceTokens, lex]
    exact List.filterMap_congr fun p _ => p.shield_sourceToken.1
  have hlexable : ∀ p ∈ piecesOf shielded, p.isAllowed = true := by
    intro p hp
    rw [hshielded] at hp
    obtain ⟨q, hq, rfl⟩ := List.mem_map.mp hp
    rw [q.shield_sourceToken.2]
    exact hlex q hq
  -- the braces that are missing
  obtain ⟨n, hn⟩ : ∃ n, n = (stripCommentsAndStrings shielded).count (asciiByte '\x7d') := ⟨_, rfl⟩
  obtain ⟨m, hm⟩ : ∃ m, m = (stripCommentsAndStrings shielded).count (asciiByte '\x7b') := ⟨_, rfl⟩
  have hbytes : bytes (supplementGlyphs n m) = ascii "// main " ++ asciiByte ' ' :: supplied n m := by
    simp [supplementGlyphs, bytes, Function.comp_def]
  have hline : ∀ b ∈ bytes (supplementGlyphs n m), isLineEnd b = false := by
    intro b hb
    rw [hbytes] at hb
    rcases List.mem_append.mp hb with hb | hb
    · exact eq_false_of_any (by decide) b hb
    · rcases List.mem_cons.mp hb with rfl | hb
      · rfl
      · exact eq_false_of_any (by decide) b (mem_supplied hb)
  obtain ⟨htokens', hlexable'⟩ := sourceTokens_behind_comment
    (fun gs (h : Reads shielded gs) => reads_supplement h) (by rw [hbytes]; exact ⟨_, rfl⟩) hline
  refine ⟨_, by simp, hlexable' hlexable, htokens'.trans htokens, isSafe_iff.mpr ?_⟩
  rw [strip_supplement]
  have hin : ∀ {w : Text}, w <:+: ascii " try catch" →
      w <:+: (newline :: asciiByte ' ' :: (supplied n m ++ [newline])) ++
        stripCommentsAndStrings shielded := by
    intro w hw
    refine hw.trans ⟨newline :: asciiByte ' ' :: (List.replicate n (asciiByte '\x7b') ++
      List.replicate m (asciiByte '\x7d')), newline :: stripCommentsAndStrings shielded, ?_⟩
    simp [supplied]
  refine ⟨by simp, ?_, hin (by decide), hin (by decide), (noThreat_iff _).mpr ?_, ?_⟩
  · rw [List.count_append, List.count_append, (count_supplied n m).1, (count_supplied n m).2]
    omega
  · have hquiet : ∀ b ∈ supplement n m ++ [newline], isTerminal b = false := by
      intro b hb
      rw [supplement, ← List.append_assoc, List.append_assoc] at hb
      rcases List.mem_append.mp hb with hb | hb
      · exact eq_false_of_any (by decide) b hb
      · rcases List.mem_append.mp hb with hb | hb
        · rcases List.mem_cons.mp hb with rfl | hb
          · rfl
          · exact eq_false_of_any (by decide) b (mem_supplied hb)
        · rw [List.mem_singleton.mp hb]
          rfl
    have hsilentAll := (silent_of_noTerminal hquiet).append hsilent
    rw [List.append_assoc] at hsilentAll
    exact hsilentAll.not_occurs
  · exact ⟨ascii "// ", ascii " " ++ ([escape, newline] ++ asciiByte ' ' :: supplied n m) ++
      newline :: shielded, by simp [supplement, ascii]⟩

/-! ## Threats among the tokens -/

/-- A raw string literal whose delimiter the signatures take for a call. -/
def Piece.Threatens (p : Piece) : Prop :=
  p.isRaw = true ∧ ∃ threat ∈ getThreatSignatures, threat.1 p.opening = true

/-- A signature is found exactly where a threat occurs. -/
theorem threat_iff (t : Text) : (∃ threat ∈ getThreatSignatures, threat.1 t = true) ↔
    ∃ threat ∈ threatPatterns, Occurs threat.1 threat.2 t := by
  have hiff := not_congr (noThreat_iff t)
  simpa only [not_forall, exists_prop, Bool.not_eq_false, not_not] using hiff

/-- Behind a quote, what occurs by itself occurs in any text. -/
theorem occurs_of_quoted {threat : (Text → Prop) × Bool} (hmem : threat ∈ threatPatterns) {t : Text}
    (h : Occurs threat.1 threat.2 (quote :: t)) (front rest : Text) :
    Occurs threat.1 threat.2 (front ++ (quote :: t ++ rest)) := by
  obtain ⟨u, p, w, heq, hp, hbounded⟩ := h
  refine ⟨front ++ u, p, w ++ rest, ?_, hp, fun hb b hlast => ?_⟩
  · rw [heq]
    simp only [List.append_assoc]
  · -- the pattern does not start with the quote
    have hne : u ≠ [] := by
      rintro rfl
      cases p with
      | nil => exact absurd (notMem_of_threat hmem hp (x := quote) rfl).2 (by simp)
      | cons c p =>
        obtain ⟨rfl, -⟩ := List.cons.inj heq
        exact (notMem_of_threat hmem hp (x := quote) rfl).1 List.mem_cons_self
    rw [List.getLast?_append, List.getLast?_eq_some_getLast hne, Option.some_or] at hlast
    exact hbounded hb b (by rw [List.getLast?_eq_some_getLast hne, hlast])

/-- The opening of a raw string literal stands in the text as it is. -/
theorem exists_opening {sourceCode : Text} {p : Piece} (hp : p ∈ lex sourceCode)
    (hraw : p.isRaw = true) : ∃ front rest, sourceCode = front ++ (p.opening ++ rest) := by
  have hreads : Reads (behindMark sourceCode) (glyphs [] 0 (behindMark sourceCode)) :=
    reads_glyphs (.nil _)
  obtain ⟨trailing, -, htext⟩ := hreads.text
  obtain ⟨ctx, gs, hfirst, before, hgs⟩ := exists_firstPiece hp
  obtain ⟨start, q, delim, body, rest, hparts, hraws, -, -⟩ := exists_rawParts hfirst hraw
  have hdelim := hraws.delimiter_raw
  obtain ⟨front, hfront⟩ := behindMark_suffix sourceCode
  refine ⟨front ++ (before.flatMap Glyph.raw ++ (start.flatMap Glyph.raw ++ q.splice)),
    body.flatMap Glyph.raw ++ (rest.flatMap Glyph.raw ++ trailing), ?_⟩
  rw [← hfront, htext, ← hgs, hparts, hraws.glyphs, Piece.opening, hraws.delimiter_eq.2]
  simp only [List.flatMap_append, List.flatMap_cons, hdelim, Glyph.raw, hraws.quoted, paren]
  simp [ascii]

/-- **No text with a threat among its tokens is accepted**, whatever else is in it. -/
theorem rejected_of_threatens {sourceCode other : Text} {p : Piece} (hp : p ∈ lex sourceCode)
    (hthreatens : p.Threatens) (htokens : sourceTokens other = sourceTokens sourceCode) :
    (evaluateMutation other).isSafe = false := by
  obtain ⟨hraw, hthreat⟩ := hthreatens
  obtain ⟨threat, hmem, hoccurs⟩ := (threat_iff _).mp hthreat
  -- the same token in the other text
  have htoken : ∀ p : Piece, p.isRaw = true →
      p.sourceToken = some (.string p.start (some p.delimiter) p.suffix) := by
    intro p hraw
    have hstring : p.isString = true := by
      rw [Piece.isRaw, Bool.and_eq_true] at hraw
      exact hraw.1
    have hkind : p.kind = .literal := by
      rw [Piece.isString, Bool.and_eq_true, decide_eq_true_eq] at hstring
      exact hstring.1
    unfold Piece.sourceToken
    rw [hkind]
    dsimp only
    rw [if_pos hstring, if_pos hraw]
  have hin : SourceToken.string p.start (some p.delimiter) p.suffix ∈ sourceTokens other := by
    rw [htokens]
    exact List.mem_filterMap.mpr ⟨p, hp, htoken p hraw⟩
  obtain ⟨p', hp', htoken'⟩ := List.mem_filterMap.mp hin
  obtain ⟨hraw', hdelim⟩ : p'.isRaw = true ∧ p'.delimiter = p.delimiter := by
    unfold Piece.sourceToken at htoken'
    split at htoken'
    · exact absurd htoken' (by simp)
    · exact absurd htoken' (by simp)
    · split at htoken'
      · obtain ⟨-, hdelim, -⟩ := SourceToken.string.inj (Option.some.inj htoken')
        split at hdelim
        · rename_i hraw'
          exact ⟨hraw', Option.some.inj hdelim⟩
        · exact absurd hdelim (by simp)
      · exact absurd htoken' (by simp)
  obtain ⟨front, rest, hother⟩ := exists_opening hp' hraw'
  rw [← Bool.not_eq_true, isSafe_iff]
  rintro ⟨-, -, -, -, hthreats, -⟩
  refine (noThreat_iff _).mp hthreats threat hmem ?_
  rw [hother, Piece.opening, hdelim]
  exact occurs_of_quoted hmem hoccurs front rest

/-! ## The verdicts -/

/-- All the texts with the tokens of this one get its verdict. -/
def SameVerdicts (sourceCode : Text) : Prop :=
  ∀ other, other ≠ [] → Lexable other → sourceTokens other = sourceTokens sourceCode →
    (evaluateMutation other).isSafe = (evaluateMutation sourceCode).isSafe

/-- **The verdict depends on what is between the tokens**, unless there is a threat among them:
then it is always the same. -/
theorem sameVerdicts_iff {sourceCode : Text} (hlex : Lexable sourceCode) :
    SameVerdicts sourceCode ↔ ∃ p ∈ lex sourceCode, p.Threatens := by
  constructor
  · intro hsame
    by_contra hnot
    have hopening : ∀ p ∈ lex sourceCode, p.isRaw = true →
        ∀ threat ∈ threatPatterns, ¬ Occurs threat.1 threat.2 p.opening := by
      intro p hp hraw threat hmem hoccurs
      exact hnot ⟨p, hp, hraw, (threat_iff _).mpr ⟨threat, hmem, hoccurs⟩⟩
    obtain ⟨rejected, hne, hrejected, htokens, hrejects⟩ := exists_rejected hlex
    obtain ⟨accepted, hne', haccepted, htokens', haccepts⟩ := exists_accepted hlex hopening
    have hboth := (hsame rejected hne hrejected htokens).trans
      (hsame accepted hne' haccepted htokens').symm
    rw [hrejects, haccepts] at hboth
    exact absurd hboth (by simp)
  · rintro ⟨p, hp, hthreatens⟩ other - - htokens
    rw [rejected_of_threatens hp hthreatens htokens, rejected_of_threatens hp hthreatens rfl]

/-- On an accepted source: a literal or comment that threatens decides it. -/
theorem sameVerdicts_acceptedSource : Lexable acceptedSource ∧
    (SameVerdicts acceptedSource ↔ ∃ p ∈ lex acceptedSource, p.Threatens) :=
  ⟨by decide +kernel, sameVerdicts_iff (by decide +kernel)⟩

/-- A comment that only the analyzer reads. -/
theorem sameVerdicts_fails : ¬ ∀ sourceCode other, sourceCode ≠ [] → other ≠ [] →
    Lexable sourceCode → Lexable other → sourceTokens other = sourceTokens sourceCode →
      (evaluateMutation other).isSafe = (evaluateMutation sourceCode).isSafe := by
  intro h
  have hverdict := h acceptedSource (acceptedSource ++ ascii " // fork()") (by decide) (by decide)
    (by decide +kernel) (by decide +kernel) (by decide +kernel)
  have haccepted : (evaluateMutation acceptedSource).isSafe = true := by decide
  have hrejected : (evaluateMutation (acceptedSource ++ ascii " // fork()")).isSafe = false := by
    decide +kernel
  rw [haccepted, hrejected] at hverdict
  exact absurd hverdict (by simp)

end Swayam.Cpp
