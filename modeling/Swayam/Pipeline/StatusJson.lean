import Swayam.Lib.Json
import Swayam.Pipeline.StatusFile

/-!
# SWAYAM — `status.json` as JSON

The workflow reads the outcome and the reason of `status.json` with `jq`. Both
`write_status` put them between quotes as they are, and `main` gives the text of
any exception as a reason.

* `mainStatusText_eq`, `supervisorStatusText_eq` — the two write the same text, and
  `statusText_eq`, it is the one of `StatusFile.lean`;
* `tokens_statusParts` — the tokens of it, whatever the two strings are;
* `statusReads_iff` — when it is a JSON object that says what was meant.
-/

namespace Swayam.Pipeline

open Json Utf8

/-! ## The two encoders -/

/-- `write_status` of `main.cpp` -/
def mainStatusText (outcome reason : Text) : Text :=
  ascii "\x7b\n" ++
  (ascii "  \"outcome\": \"" ++ outcome ++ ascii "\"") ++
  (if reason ≠ [] then ascii ",\n  \"reason\": \"" ++ reason ++ ascii "\"" else []) ++
  ascii "\n\x7d\n"

/-- `write_status` of `Supervisor.hpp` -/
def supervisorStatusText (outcome reason : Text) : Text :=
  (ascii "\x7b\n  \"outcome\": \"" ++ outcome ++ ascii "\"") ++
  (if reason ≠ [] then ascii ",\n  \"reason\": \"" ++ reason ++ ascii "\"" else []) ++
  ascii "\n\x7d\n"

/-- `"outcome"` and `"reason"` -/
def outcomeKey : Text := ascii "outcome"
def reasonKey : Text := ascii "reason"

/-- The text in front of the quote of the outcome, and of the reason. -/
def outcomeHead : Text := ascii "\x7b\n  \"outcome\": "
def reasonHead : Text := ascii "\n  \"reason\": "

/-- A string as it stands in the text. -/
def quoted (t : Text) : Text := Json.quote :: (t ++ [Json.quote])

/-- The comma and what it puts in front of the reason. -/
def reasonPart (reason : Text) : Text :=
  if reason = [] then [] else asciiByte ',' :: (reasonHead ++ quoted reason)

def statusTail : Text := ascii "\n\x7d\n"

/-- The parts of the text. -/
def statusParts (outcome reason : Text) : Text :=
  outcomeHead ++ (quoted outcome ++ (reasonPart reason ++ statusTail))

/-- The encoder of the cycle, part by part. -/
theorem supervisorStatusText_eq (outcome reason : Text) :
    supervisorStatusText outcome reason = statusParts outcome reason := by
  have hhead : ascii "\x7b\n  \"outcome\": \"" = outcomeHead ++ [Json.quote] := rfl
  have hreason : ascii ",\n  \"reason\": \"" = asciiByte ',' :: (reasonHead ++ [Json.quote]) := rfl
  have hquote : ascii "\"" = [Json.quote] := rfl
  rw [supervisorStatusText, statusParts, hhead, hreason, hquote, reasonPart, quoted, quoted,
    statusTail]
  by_cases h : reason = []
  · simp [h]
  · simp [h]

/-- And that of `main`: the two write the same text. -/
theorem mainStatusText_eq (outcome reason : Text) :
    mainStatusText outcome reason = statusParts outcome reason := by
  rw [← supervisorStatusText_eq]
  have hhead : ascii "\x7b\n  \"outcome\": \"" = ascii "\x7b\n" ++ ascii "  \"outcome\": \"" := rfl
  rw [mainStatusText, supervisorStatusText, hhead]
  simp only [List.append_assoc]

/-- It is the text of `StatusFile.lean`. -/
theorem statusText_eq (status : Status) :
    statusText status = supervisorStatusText status.outcome status.reason := by
  have hquote : ascii "\"" = [quote] := rfl
  rw [statusText, supervisorStatusText, outcomeMark, statusHead, hquote]
  by_cases h : status.reason = []
  · simp [h]
  · simp [h]

/-! ## Its tokens -/

/-- The tokens in front of the outcome, and of the reason. -/
def outcomeToks : List Token := [.openObject, .str outcomeKey, .colon]
def reasonToks : List Token := [.comma, .str reasonKey, .colon]

/-- The two keys need no escapes. -/
theorem plain_key {key : Text} (h : key = outcomeKey ∨ key = reasonKey) : Plain key := by
  rcases h with rfl | rfl
  · exact plain_of_all (by decide)
  · exact plain_of_all (by decide)

/-- A key, with a newline and two blanks in front of it. -/
theorem run_key {key : Text} (hkey : Plain key) (toks : List Token) :
    run ⟨toks, .outside⟩ (ascii "\n  " ++ (quoted key ++ ascii ": ")) =
      some ⟨toks ++ [.str key] ++ [.colon], .outside⟩ := by
  have hfront : run ⟨toks, .outside⟩ (ascii "\n  ") = some ⟨toks, .outside⟩ := rfl
  rw [run_append, hfront, Option.bind_some, run_append, quoted, run_plain hkey, Option.bind_some]
  rfl

/-- The scanner in front of the outcome, -/
theorem run_outcomeHead : run ⟨[], .outside⟩ outcomeHead = some ⟨outcomeToks, .outside⟩ := by
  have hopen : run ⟨[], .outside⟩ (ascii "\x7b") = some ⟨[.openObject], .outside⟩ := rfl
  rw [show outcomeHead = ascii "\x7b" ++ (ascii "\n  " ++ (quoted outcomeKey ++ ascii ": "))
    from rfl, run_append, hopen, Option.bind_some, run_key (plain_key (Or.inl rfl))]
  rfl

/-- in front of the reason, -/
theorem run_reasonHead (toks : List Token) :
    run ⟨toks, .outside⟩ reasonHead = some ⟨toks ++ [.str reasonKey, .colon], .outside⟩ := by
  rw [show reasonHead = ascii "\n  " ++ (quoted reasonKey ++ ascii ": ") from rfl,
    run_key (plain_key (Or.inr rfl)), List.append_assoc]
  rfl

/-- and behind both. -/
theorem run_statusTail (toks : List Token) :
    run ⟨toks, .outside⟩ statusTail = some ⟨toks ++ [.closeObject], .outside⟩ := rfl

/-- A comma behind a string, and a newline: the string is closed. -/
theorem not_string_of_comma {s s' : Scan} {t : Text}
    (h : run s (asciiByte ',' :: Json.newline :: t) = some s') (raw : Text) (escaped : Bool) :
    s.mode ≠ .string raw escaped := by
  intro hmode
  rw [run_cons, Option.bind_eq_some_iff] at h
  obtain ⟨m, hm, hrun⟩ := h
  -- in a string the comma stays there
  have hopen : ∃ raw' escaped', m.mode = .string raw' escaped' := by
    rw [step, hmode] at hm
    dsimp only at hm
    rw [stringStep, if_neg (by decide)] at hm
    cases escaped with
    | true =>
      obtain rfl := Option.some.inj hm
      exact ⟨_, _, rfl⟩
    | false =>
      rw [if_neg (by simp), if_neg (by decide)] at hm
      obtain rfl := Option.some.inj hm
      exact ⟨_, _, rfl⟩
  obtain ⟨raw', escaped', hmode'⟩ := hopen
  obtain ⟨toks, hfinish, -⟩ := run_newline hrun
  exact finish_eq_some hfinish raw' escaped' hmode'

/-- A quoted text in front of a newline. -/
theorem run_quoted_newline {toks : List Token} {x t : Text} {s : Scan}
    (h : run ⟨toks, .outside⟩ (quoted x ++ Json.newline :: t) = some s) :
    ∃ new, Quoted x new ∧ run ⟨toks ++ new, .outside⟩ (Json.newline :: t) = some s := by
  rw [run_append, Option.bind_eq_some_iff] at h
  obtain ⟨m, hm, hrun⟩ := h
  obtain ⟨toks', hfinish, -⟩ := run_newline hrun
  obtain ⟨new, rfl, hnew⟩ := run_quoted hm (finish_eq_some hfinish)
  exact ⟨new, hnew, hrun⟩

/-- **The tokens of the text**: those of the frame, and for each of the two strings what it is
scanned to between its quotes. -/
theorem tokens_statusParts {outcome reason : Text} {toks : List Token}
    (h : tokens (statusParts outcome reason) = some toks) :
    ∃ new, Quoted outcome new ∧
      ((reason = [] ∧ toks = outcomeToks ++ new ++ [.closeObject]) ∨
        (reason ≠ [] ∧ ∃ new', Quoted reason new' ∧
          toks = outcomeToks ++ new ++ (reasonToks ++ new') ++ [.closeObject])) := by
  rw [tokens, Option.bind_eq_some_iff] at h
  obtain ⟨s, hs, hfinish⟩ := h
  rw [statusParts, run_append, run_outcomeHead, Option.bind_some, reasonPart] at hs
  by_cases hreason : reason = []
  · -- the newline of the tail closes the quote of the outcome
    rw [if_pos hreason, List.nil_append] at hs
    obtain ⟨new, hnew, hrun⟩ := run_quoted_newline (t := ascii "\x7d\n") hs
    have htail := run_statusTail (outcomeToks ++ new)
    rw [show statusTail = Json.newline :: ascii "\x7d\n" from rfl, hrun] at htail
    obtain rfl := Option.some.inj htail
    obtain rfl := Option.some.inj hfinish
    exact ⟨new, hnew, Or.inl ⟨hreason, rfl⟩⟩
  · -- here a comma stands in front of the newline
    rw [if_neg hreason, run_append, Option.bind_eq_some_iff] at hs
    obtain ⟨m, hm, hrun⟩ := hs
    rw [List.cons_append, List.append_assoc] at hrun
    obtain ⟨new, rfl, hnew⟩ := run_quoted hm fun raw escaped =>
      not_string_of_comma (t := ascii "  \"reason\": " ++ (quoted reason ++ statusTail)) hrun raw
        escaped
    have hcomma : step ⟨outcomeToks ++ new, .outside⟩ (asciiByte ',') =
        some ⟨outcomeToks ++ new ++ [.comma], .outside⟩ := rfl
    rw [run_cons, hcomma, Option.bind_some, run_append, run_reasonHead, Option.bind_some] at hrun
    obtain ⟨new', hnew', hrun⟩ := run_quoted_newline (t := ascii "\x7d\n") hrun
    have htail := run_statusTail
      (outcomeToks ++ new ++ [.comma] ++ [.str reasonKey, .colon] ++ new')
    rw [show statusTail = Json.newline :: ascii "\x7d\n" from rfl, hrun] at htail
    obtain rfl := Option.some.inj htail
    obtain rfl := Option.some.inj hfinish
    refine ⟨new, hnew, Or.inr ⟨hreason, new', hnew', ?_⟩⟩
    simp [reasonToks]

/-! ## What it says -/

/-- The text is one JSON object, with the outcome, and with the reason when there is one. -/
def Reads (text : Text) (outcome reason : Text) : Prop :=
  ∃ members, Writes text (.obj members) ∧
    members.get outcomeKey = some (.str outcome) ∧
    members.get reasonKey = if reason = [] then none else some (.str reason)

/-- Both encoders write such a text. -/
structure StatusReads (outcome reason : Text) : Prop where
  main       : Reads (mainStatusText outcome reason) outcome reason
  supervisor : Reads (supervisorStatusText outcome reason) outcome reason

/-- A text that may stand in a string of JSON as it is. -/
structure PlainUtf8 (t : Text) : Prop where
  plain : Plain t
  utf8  : IsUtf8 t

section Strings

variable {outcome reason v : Text} {new new' : List Token}

/-- The strings of the text: its keys, and those of the two places. -/
theorem mem_toks (h : .str v ∈ outcomeToks ++ new ++ (reasonToks ++ new') ++ [.closeObject]) :
    (v = outcomeKey ∨ v = reasonKey) ∨ .str v ∈ new ∨ .str v ∈ new' := by
  simp only [outcomeToks, reasonToks, List.mem_append, List.mem_cons, List.not_mem_nil, or_false,
    reduceCtorEq, false_or, Token.str.injEq] at h
  rcases h with (hkey | hnew) | hkey | hnew
  · exact Or.inl (Or.inl hkey)
  · exact Or.inr (Or.inl hnew)
  · exact Or.inl (Or.inr hkey)
  · exact Or.inr (Or.inr hnew)

/-- Each of them is plain, or shorter than one of the two that is not. -/
theorem plain_or_shorter (hnew : Quoted outcome new) (hnew' : Quoted reason new')
    (h : .str v ∈ outcomeToks ++ new ++ (reasonToks ++ new') ++ [.closeObject]) :
    Plain v ∨ (¬ Plain outcome ∧ v.length < outcome.length) ∨
      (¬ Plain reason ∧ v.length < reason.length) := by
  rcases mem_toks h with hkey | hmem | hmem
  · exact Or.inl (plain_key hkey)
  · exact (hnew.of_mem hmem).imp_right Or.inl
  · exact (hnew'.of_mem hmem).imp_right Or.inr

/-- **Both strings are plain** when both are found among the tokens: the longer one of two that
are not plain is nowhere. -/
theorem plain_of_mem {toks : List Token} (hnew : Quoted outcome new) (hnew' : Quoted reason new')
    (htoks : toks = outcomeToks ++ new ++ (reasonToks ++ new') ++ [.closeObject])
    (houtcome : .str outcome ∈ toks) (hreason : .str reason ∈ toks) :
    Plain outcome ∧ Plain reason := by
  subst htoks
  -- a string that is not plain is shorter than the other one, which is then not plain either
  rcases plain_or_shorter hnew hnew' houtcome with ho | ⟨-, hself⟩ | ⟨hnot, hlt⟩
  · rcases plain_or_shorter hnew hnew' hreason with hr | ⟨hnot, -⟩ | ⟨-, hself⟩
    · exact ⟨ho, hr⟩
    · exact absurd ho hnot
    · exact absurd hself (Nat.lt_irrefl _)
  · exact absurd hself (Nat.lt_irrefl _)
  · rcases plain_or_shorter hnew hnew' hreason with hr | ⟨-, hlt'⟩ | ⟨-, hself⟩
    · exact absurd hr hnot
    · omega
    · exact absurd hself (Nat.lt_irrefl _)

/-- The only string, when there is no reason. -/
theorem plain_of_mem_single (hnew : Quoted outcome new)
    (houtcome : .str outcome ∈ outcomeToks ++ new ++ [.closeObject]) : Plain outcome := by
  have hkeys : outcome = outcomeKey ∨ .str outcome ∈ new := by
    simpa [outcomeToks] using houtcome
  rcases hkeys with hkey | hmem
  · exact plain_key (Or.inl hkey)
  · rcases hnew.of_mem hmem with hplain | ⟨-, hself⟩
    · exact hplain
    · exact absurd hself (Nat.lt_irrefl _)

end Strings

/-! ## When it says so -/

/-- The quotes are ASCII, so the parts between them are texts of their own. -/
theorem isUtf8_quoted (x t y : Text) :
    IsUtf8 (x ++ (quoted t ++ y)) ↔ IsUtf8 x ∧ IsUtf8 t ∧ IsUtf8 y := by
  have hquote : Json.quote.toNat < 128 := by decide
  rw [quoted, List.cons_append, isUtf8_append_ascii hquote, List.append_assoc,
    List.singleton_append, isUtf8_append_ascii hquote]

/-- The frame is ASCII: the text is UTF-8 when the two strings are. -/
theorem isUtf8_statusParts (outcome reason : Text) :
    IsUtf8 (statusParts outcome reason) ↔ IsUtf8 outcome ∧ IsUtf8 reason := by
  have hhead : IsUtf8 outcomeHead := isUtf8_of_ascii (by decide)
  have htail : IsUtf8 statusTail := isUtf8_of_ascii (by decide)
  rw [statusParts, isUtf8_quoted, reasonPart]
  by_cases hreason : reason = []
  · rw [if_pos hreason, List.nil_append, hreason]
    simp only [hhead, htail, isUtf8_nil, and_true, true_and]
  · have hfront : IsUtf8 (asciiByte ',' :: reasonHead) := isUtf8_of_ascii (by decide)
    rw [if_neg hreason, ← List.cons_append, List.append_assoc, isUtf8_quoted]
    simp only [hhead, hfront, htail, and_true, true_and]

/-- The members of the object that was meant. -/
def statusMembers (outcome reason : Text) : Members :=
  .cons outcomeKey (.str outcome) (if reason = [] then .nil else .cons reasonKey (.str reason) .nil)

/-- A plain reason, with the comma in front of it. -/
theorem run_reason {reason : Text} (hreason : Plain reason) (toks : List Token) :
    run ⟨toks, .outside⟩ (asciiByte ',' :: (reasonHead ++ quoted reason)) =
      some ⟨toks ++ [.comma] ++ [.str reasonKey, .colon] ++ [.str reason], .outside⟩ := by
  have hcomma : step ⟨toks, .outside⟩ (asciiByte ',') = some ⟨toks ++ [.comma], .outside⟩ := rfl
  rw [run_cons, hcomma, Option.bind_some, run_append, run_reasonHead, Option.bind_some, quoted,
    run_plain hreason]

/-- **The tokens of plain strings** are those of the object. -/
theorem tokens_plain {outcome reason : Text} (houtcome : Plain outcome) (hreason : Plain reason) :
    tokens (statusParts outcome reason) = some (Value.obj (statusMembers outcome reason)).tokens := by
  rw [tokens, statusParts, run_append, run_outcomeHead, Option.bind_some, run_append, quoted,
    run_plain houtcome, Option.bind_some, reasonPart, statusMembers]
  by_cases h : reason = []
  · rw [if_pos h, if_pos h, List.nil_append, run_statusTail]
    rfl
  · rw [if_neg h, if_neg h, run_append, run_reason hreason, Option.bind_some, run_statusTail]
    rfl

/-- **Plain strings are read back.** -/
theorem reads_plain {outcome reason : Text} (houtcome : PlainUtf8 outcome)
    (hreason : PlainUtf8 reason) : Reads (statusParts outcome reason) outcome reason := by
  refine ⟨statusMembers outcome reason, ⟨?_, tokens_plain houtcome.plain hreason.plain⟩, ?_, ?_⟩
  · exact (isUtf8_statusParts outcome reason).mpr ⟨houtcome.utf8, hreason.utf8⟩
  · have hne : reasonKey ≠ outcomeKey := by decide
    unfold statusMembers
    split
    · simp [Members.get]
    · simp [Members.get, hne]
  · have hne : outcomeKey ≠ reasonKey := by decide
    unfold statusMembers
    split
    · simp [Members.get, hne]
    · simp [Members.get]

/-- **And no others**: an escape is shorter than what it stands for. -/
theorem plain_of_reads {outcome reason : Text}
    (h : Reads (statusParts outcome reason) outcome reason) :
    PlainUtf8 outcome ∧ PlainUtf8 reason := by
  obtain ⟨members, ⟨hutf8, htokens⟩, houtcome, hreason⟩ := h
  rw [isUtf8_statusParts] at hutf8
  obtain ⟨new, hnew, hparts⟩ := tokens_statusParts htokens
  have hmem : Token.str outcome ∈ (Value.obj members).tokens := by
    rw [Value.tokens]
    exact List.mem_cons_of_mem _ (List.mem_append_left _ (Members.mem_of_get houtcome))
  rcases hparts with ⟨rfl, htoks⟩ | ⟨hne, new', hnew', htoks⟩
  · -- the empty reason has nothing to be escaped
    have hnil : Plain [] := ⟨List.not_mem_nil, List.not_mem_nil, fun _ h => absurd h List.not_mem_nil⟩
    exact ⟨⟨plain_of_mem_single hnew (htoks ▸ hmem), hutf8.1⟩, ⟨hnil, hutf8.2⟩⟩
  · have hmem' : Token.str reason ∈ (Value.obj members).tokens := by
      rw [if_neg hne] at hreason
      rw [Value.tokens]
      exact List.mem_cons_of_mem _ (List.mem_append_left _ (Members.mem_of_get hreason))
    obtain ⟨hplain, hplain'⟩ := plain_of_mem hnew hnew' htoks hmem hmem'
    exact ⟨⟨hplain, hutf8.1⟩, ⟨hplain', hutf8.2⟩⟩

/-- **`status.json` says what was meant** exactly when neither string has a quote, a backslash or a
control character in it, and both are UTF-8. -/
theorem statusReads_iff (outcome reason : Text) :
    StatusReads outcome reason ↔ PlainUtf8 outcome ∧ PlainUtf8 reason := by
  constructor
  · rintro ⟨hmain, -⟩
    rw [mainStatusText_eq] at hmain
    exact plain_of_reads hmain
  · rintro ⟨houtcome, hreason⟩
    have h := reads_plain houtcome hreason
    refine ⟨?_, ?_⟩
    · rwa [mainStatusText_eq]
    · rwa [supervisorStatusText_eq]

/-- An exception text with quotes in it. -/
def quotedReason : Text := ascii "say \"no\""

theorem not_statusReads_quoted : ¬ StatusReads (ascii "quarantined") quotedReason := by
  rintro ⟨hmain, -⟩
  rw [mainStatusText_eq] at hmain
  exact (plain_of_reads hmain).2.plain.noQuote (by decide)

end Swayam.Pipeline
