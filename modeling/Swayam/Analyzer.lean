import Mathlib.Data.List.Infix
import Swayam.Text

/-!
# SWAYAM — `HeuristicAnalyzer`

The static check that a mutation passes before it is compiled. The two regular
expressions that strip comments and strings, and the four threat signatures,
are given as scanners: `regexRemove` is `std::regex_replace` with an empty
replacement for an expression whose match at a position is unique, and
`regexSearch` is `std::regex_search`.

Taken as given: the classes of the expressions are those of the "C" locale, in which no
byte from 128 on is white space or part of a word, and the backtracking of `std::regex`
does not run out of stack.
-/

namespace Swayam

/-! ## Scanners -/

/-- `\s` -/
def isSpace (b : Byte) : Bool := b = 32 || (9 ≤ b.toNat && b.toNat ≤ 13)

/-- `\w` -/
def isWord (b : Byte) : Bool :=
  isDigit b || (65 ≤ b.toNat && b.toNat ≤ 90) || (97 ≤ b.toNat && b.toNat ≤ 122) || b = 95

/-- `.` does not match the end of a line. -/
def isLineEnd (b : Byte) : Bool := b = newline || b = asciiByte '\r'

def skipSpace (t : Text) : Text := t.dropWhile isSpace

/-- The rest behind a literal that the text starts with. -/
def afterLiteral (literal : String) (t : Text) : Option Text :=
  if (ascii literal).isPrefixOf t then some (t.drop (ascii literal).length) else none

/-- The text without the matches of an expression: `matchLength` is the length of the
match at the start of a text, and `skip` what is left of the last match. -/
def regexRemove (matchLength : Text → Option Nat) : Nat → Text → Text
  | _, [] => []
  | skip + 1, _ :: rest => regexRemove matchLength skip rest
  | 0, b :: rest =>
    match matchLength (b :: rest) with
    | some (n + 1) => regexRemove matchLength n rest
    | _ => b :: regexRemove matchLength 0 rest

/-- Whether an expression matches somewhere. -/
def regexSearch (matchHere : Text → Bool) : Text → Bool
  | [] => false
  | b :: rest => matchHere (b :: rest) || regexSearch matchHere rest

/-- The same for an expression that starts with `\b`; `wordBefore` tells whether the
byte in front is a word character. -/
def regexSearchWord (matchHere : Text → Bool) (wordBefore : Bool) : Text → Bool
  | [] => false
  | b :: rest =>
    (isWord b != wordBefore && matchHere (b :: rest)) ||
      regexSearchWord matchHere (isWord b) rest

/-! ## `strip_comments_and_strings` -/

/-- The bytes up to and with the next `*/`. -/
def commentEnd : Text → Option Nat
  | [] => none
  | b :: rest =>
    if b = asciiByte '*' ∧ rest.head? = some (asciiByte '/') then some 2
    else (commentEnd rest).map (· + 1)

/-- The comment at the start of a text: to the end of the line, or to the first `*/`. -/
def commentLength (t : Text) : Option Nat :=
  match afterLiteral "//" t, afterLiteral "/*" t with
  | some rest, _ => some (2 + (rest.takeWhile fun b => !isLineEnd b).length)
  | none, some rest => (commentEnd rest).map (2 + ·)
  | none, none => none

/-- The bytes up to and with the closing quote; a backslash takes the next byte with it,
which is not the end of a line. -/
def stringEnd : Text → Option Nat
  | [] => none
  | [b] => if b = asciiByte '"' then some 1 else none
  | b :: b' :: rest =>
    if b = asciiByte '"' then some 1
    else if b = asciiByte '\\' then
      if isLineEnd b' then none else (stringEnd rest).map (2 + ·)
    else (stringEnd (b' :: rest)).map (1 + ·)

/-- The string literal at the start of a text. -/
def stringLength (t : Text) : Option Nat :=
  (afterLiteral "\"" t).bind fun rest => (stringEnd rest).map (1 + ·)

def stripCommentsAndStrings (code : Text) : Text :=
  regexRemove stringLength 0 (regexRemove commentLength 0 code)

/-! ## `get_threat_signatures` -/

/-- `#include\s*<\s*HEADER\s*>` -/
def matchInclude (header : String) (t : Text) : Bool :=
  ((((afterLiteral "#include" t).bind fun t => afterLiteral "<" (skipSpace t)).bind
    fun t => afterLiteral header (skipSpace t)).bind fun t => afterLiteral ">" (skipSpace t)).isSome

/-- `(NAME|…)\s*\(` -/
def matchCall (names : List String) (t : Text) : Bool :=
  names.any fun name =>
    ((afterLiteral name t).bind fun t => afterLiteral "(" (skipSpace t)).isSome

/-- `(std::)?` in front. -/
def matchStd (matchHere : Text → Bool) (t : Text) : Bool :=
  matchHere t || ((afterLiteral "std::" t).map matchHere).getD false

def getThreatSignatures : List ((Text → Bool) × String) :=
  [(regexSearch (matchInclude "sys/socket.h"), "NETWORK_EXFILTRATION"),
   (regexSearch (matchInclude "netinet/in.h"), "NETWORK_PROTOCOL"),
   (regexSearchWord (matchStd (matchCall ["popen", "execl", "system", "execve", "fork"])) false,
    "SUB_SHELL_EXECUTION"),
   (regexSearch (matchCall ["__asm__", "asm"]), "INLINE_ASSEMBLY_BYPASS")]

/-! ## `evaluate_mutation` -/

structure AnalysisResult where
  isSafe          : Bool
  threatSignature : Text
  deriving DecidableEq, Repr

def evaluateMutation (sourceCode : Text) : AnalysisResult :=
  if sourceCode = [] then ⟨false, ascii "EMPTY_PAYLOAD"⟩
  else
    let strippedCode := stripCommentsAndStrings sourceCode
    -- braces and handlers are looked for behind the two passes
    if strippedCode.count (asciiByte '\x7b') ≠ strippedCode.count (asciiByte '\x7d') then
      ⟨false, ascii "STRUCTURAL_BRACKET_IMBALANCE"⟩
    else if ¬ ascii "catch" <:+: strippedCode ∨ ¬ ascii "try" <:+: strippedCode then
      ⟨false, ascii "SEMANTIC_LOGIC_GAP_NO_EXCEPTION_HANDLING"⟩
    -- threats and `main` in the source as it is
    else match getThreatSignatures.find? fun threat => threat.1 sourceCode with
      | some threat => ⟨false, ascii threat.2⟩
      | none =>
        if ¬ ascii "main" <:+: sourceCode then ⟨false, ascii "MISSING_ENTRY_POINT"⟩
        else ⟨true, ascii "SAFE_FOR_COMPILATION"⟩

/-- **What the analyzer accepts**, check by check. -/
theorem isSafe_iff {sourceCode : Text} : (evaluateMutation sourceCode).isSafe = true ↔
    sourceCode ≠ [] ∧
    (stripCommentsAndStrings sourceCode).count (asciiByte '\x7b') =
      (stripCommentsAndStrings sourceCode).count (asciiByte '\x7d') ∧
    ascii "catch" <:+: stripCommentsAndStrings sourceCode ∧
    ascii "try" <:+: stripCommentsAndStrings sourceCode ∧
    (∀ threat ∈ getThreatSignatures, threat.1 sourceCode = false) ∧
    ascii "main" <:+: sourceCode := by
  unfold evaluateMutation
  split
  · rename_i hempty
    exact iff_of_false (by simp) fun h => h.1 hempty
  · rename_i hempty
    dsimp only
    split
    · rename_i hbraces
      exact iff_of_false (by simp) fun h => hbraces h.2.1
    · rename_i hbraces
      split
      · -- the checks in their order, each rejecting on its own
        rename_i hhandler
        refine iff_of_false (by simp) fun h => ?_
        rcases hhandler with hcatch | htry
        · exact hcatch h.2.2.1
        · exact htry h.2.2.2.1
      · rename_i hhandler
        rw [not_or, not_not, not_not] at hhandler
        split
        · rename_i threat hthreat
          refine iff_of_false (by simp) fun h => ?_
          have hfound := List.find?_some hthreat
          rw [h.2.2.2.2.1 threat (List.mem_of_find?_eq_some hthreat)] at hfound
          exact absurd hfound (by simp)
        · rename_i hthreats
          have hnone : ∀ threat ∈ getThreatSignatures, threat.1 sourceCode = false := by
            intro threat hmem
            rw [List.find?_eq_none] at hthreats
            exact Bool.not_eq_true _ ▸ hthreats threat hmem
          split
          · rename_i hmain
            exact iff_of_false (by simp) fun h => hmain h.2.2.2.2.2
          · rename_i hmain
            rw [not_not] at hmain hbraces
            exact iff_of_true rfl ⟨hempty, hbraces, hhandler.1, hhandler.2, hnone, hmain⟩

/-- A source that the analyzer accepts. -/
def acceptedSource : Text :=
  ascii "int main() \x7b try \x7b return 0; \x7d catch (...) \x7b return 1; \x7d \x7d"

example : evaluateMutation acceptedSource = ⟨true, ascii "SAFE_FOR_COMPILATION"⟩ := by decide

/-- The threat signatures are searched in the comments too. -/
example : evaluateMutation (acceptedSource ++ ascii " // fork()") =
    ⟨false, ascii "SUB_SHELL_EXECUTION"⟩ := by decide

end Swayam
