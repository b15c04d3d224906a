import Swayam.Analyzer

/-!
# SWAYAM — `CognitiveForge`

The generator of mutations: it puts the headers it needs in front of the base
algorithm, a block of generated code behind the first text that looks like the
signature of `main` (or a function of its own at the end), and a genome id at
the end. The engine is seeded from the clock, so what `rng()` gives is an arbitrary
stream of numbers.
-/

namespace Swayam.Forge

/-! ## Random numbers -/

/-- What `rng()` gives, call by call. -/
abbrev Draws := Nat → UInt64

/-- `rng()` -/
def draw : StateM Draws Nat := fun rng => ((rng 0).toNat, fun n => rng (n + 1))

/-- `std::hex << std::uppercase << n` -/
def hexUpper (n : Nat) : Text := (Nat.toDigits 16 n).map fun c => asciiByte c.toUpper

/-! ## The block -/

def generateDynamicIdentifier (start : Text) : StateM Draws Text := do
  let n ← draw
  return start ++ hexUpper (n % 0xFFFFFF)

/-- The three opaque predicates over a variable. -/
def opaquePredicate (logicPath : Nat) (varName : Text) : Text :=
  match logicPath with
  | 0 => ascii "if ((" ++ varName ++ ascii " * " ++ varName ++ ascii " + " ++ varName ++
      ascii ") % 2 == 0) \x7b " ++ varName ++ ascii " ^= 0xAA; \x7d else \x7b " ++ varName ++
      ascii " = 0; \x7d\n"
  | 1 => varName ++ ascii " = (" ++ varName ++ ascii " << 1) ^ (" ++ varName ++ ascii " >> 1);\n"
  | 2 => ascii "constexpr int _c_" ++ varName ++ ascii " = 42; if (" ++ varName ++
      ascii " != _c_" ++ varName ++ ascii ") \x7b " ++ varName ++ ascii "++; \x7d\n"
  | _ => []

def generateOpaquePredicate (varName : Text) : StateM Draws Text := do
  let logicPath ← draw
  return opaquePredicate (logicPath % 3) varName

/-- The comment that every block starts with. -/
def blockIntro : Text := ascii "\n    // [SWAYAM-SYNTH] Neural Polymorphic Shift Initiated\n"

/-- Paradigm 0: Polymorphic Math & Opaque Predicates. -/
def mathBlock (var1 var2 : Text) (n1 n2 : Nat) (predicate1 predicate2 : Text) (iterations : Nat) :
    Text :=
  ascii "    [[maybe_unused]] volatile unsigned long long " ++ var1 ++ ascii " = " ++ decimal n1 ++
    ascii "ULL;\n" ++
  (ascii "    [[maybe_unused]] volatile unsigned long long " ++ var2 ++ ascii " = " ++ decimal n2 ++
    ascii "ULL;\n") ++
  (ascii "    " ++ predicate1) ++
  (ascii "    " ++ predicate2) ++
  (ascii "    for(int i = 0; i < " ++ decimal iterations ++ ascii "; ++i) \x7b\n") ++
  (ascii "        " ++ var1 ++ ascii " = (" ++ var1 ++ ascii " * 0x1B3) + i;\n") ++
  (ascii "        " ++ var2 ++ ascii " ^= " ++ var1 ++ ascii ";\n    \x7d\n")

/-- Paradigm 1: Process Memory Reconnaissance. -/
def reconBlock (reconVar : Text) : Text :=
  ascii "    // [SWAYAM-SENTIENCE] Target Alpha: OS Memory Footprint Scan\n" ++
  (ascii "    [[maybe_unused]] long " ++ reconVar ++ ascii " = 0;\n") ++
  ascii "    std::ifstream _swayam_proc(\"/proc/self/statm\");\n" ++
  (ascii "    if(_swayam_proc.is_open()) \x7b _swayam_proc >> " ++ reconVar ++
    ascii "; _swayam_proc.close(); \x7d\n")

/-- Paradigm 2: Cryptographic File Manipulation. -/
def fileBlock (fileVar dummyEntropy : Text) : Text :=
  ascii "    // [SWAYAM-SENTIENCE] Target Beta: Vault File Interaction\n" ++
  (ascii "    std::string " ++ fileVar ++
    ascii " = \"./.swayam_vault/phantom_\" + std::to_string(" ++ dummyEntropy ++
    ascii "ULL) + \".dat\";\n") ++
  (ascii "    std::ofstream _swayam_out(" ++ fileVar ++ ascii ");\n") ++
  (ascii "    if(_swayam_out.is_open()) \x7b _swayam_out << \"[PHANTOM_TRACE: " ++ dummyEntropy ++
    ascii "]\"; _swayam_out.close(); \x7d\n") ++
  ascii "    std::error_code _ec;\n" ++
  (ascii "    std::filesystem::remove(" ++ fileVar ++ ascii ", _ec);\n")

def synthesizeLogicBlock : StateM Draws Text := do
  let var1 ← generateDynamicIdentifier (ascii "_evo_core_")
  let var2 ← generateDynamicIdentifier (ascii "_evo_mem_")
  let paradigm ← draw
  if paradigm % 3 = 0 then do
    -- `n1` and `n2` are drawn before the predicates
    let n1 ← draw
    let n2 ← draw
    let predicate1 ← generateOpaquePredicate var1
    let predicate2 ← generateOpaquePredicate var2
    let iterations ← draw
    return blockIntro ++
      mathBlock var1 var2 (n1 % 9999) (n2 % 9999) predicate1 predicate2 (iterations % 5 + 1)
  else if paradigm % 3 = 1 then do
    let reconVar ← generateDynamicIdentifier (ascii "_recon_stat_")
    return blockIntro ++ reconBlock reconVar
  else do
    let fileVar ← generateDynamicIdentifier (ascii "_decoy_path_")
    -- drawn, and not used
    let _contentVar ← generateDynamicIdentifier (ascii "_decoy_hash_")
    let dummyEntropy ← draw
    return blockIntro ++ fileBlock fileVar (decimal dummyEntropy)

/-- The paradigm is the third number that is drawn. -/
def paradigmOf (rng : Draws) : Nat := (rng 2).toNat % 3

section Paradigms

variable {rng : Draws}

/-- The block of each of the three paradigms. -/
theorem synthesizeLogicBlock_math (h : paradigmOf rng = 0) :
    (synthesizeLogicBlock rng).1 = blockIntro ++
      mathBlock (ascii "_evo_core_" ++ hexUpper ((rng 0).toNat % 0xFFFFFF))
        (ascii "_evo_mem_" ++ hexUpper ((rng 1).toNat % 0xFFFFFF))
        ((rng 3).toNat % 9999) ((rng 4).toNat % 9999)
        (opaquePredicate ((rng 5).toNat % 3)
          (ascii "_evo_core_" ++ hexUpper ((rng 0).toNat % 0xFFFFFF)))
        (opaquePredicate ((rng 6).toNat % 3)
          (ascii "_evo_mem_" ++ hexUpper ((rng 1).toNat % 0xFFFFFF)))
        ((rng 7).toNat % 5 + 1) := by
  have hbranch : ∀ (x y : StateM Draws Text) s, (if paradigmOf rng = 0 then x else y) s = x s := by
    intro x y s
    rw [if_pos h]
  exact congrArg Prod.fst (hbranch _ _ fun n => rng (n + 3))

theorem synthesizeLogicBlock_recon (h : paradigmOf rng = 1) :
    (synthesizeLogicBlock rng).1 = blockIntro ++
      reconBlock (ascii "_recon_stat_" ++ hexUpper ((rng 3).toNat % 0xFFFFFF)) := by
  have hbranch : ∀ (x y z : StateM Draws Text) s, (if paradigmOf rng = 0 then x
      else if paradigmOf rng = 1 then y else z) s = y s := by
    intro x y z s
    rw [if_neg (by omega), if_pos h]
  exact congrArg Prod.fst (hbranch _ _ _ fun n => rng (n + 3))

theorem synthesizeLogicBlock_file (h : paradigmOf rng = 2) :
    (synthesizeLogicBlock rng).1 = blockIntro ++
      fileBlock (ascii "_decoy_path_" ++ hexUpper ((rng 3).toNat % 0xFFFFFF))
        (decimal (rng 5).toNat) := by
  have hbranch : ∀ (x y z : StateM Draws Text) s, (if paradigmOf rng = 0 then x
      else if paradigmOf rng = 1 then y else z) s = z s := by
    intro x y z s
    rw [if_neg (by omega), if_neg (by omega)]
  exact congrArg Prod.fst (hbranch _ _ _ fun n => rng (n + 3))

end Paradigms

/-! ## The signature of `main` -/

/-- What follows `int\s+main\s*\([^)]*\)\s*\{` at the start of a text. -/
def afterMain (t : Text) : Option Text := do
  let t ← afterLiteral "int" t
  if (t.head?.map isSpace).getD false then
    let t ← afterLiteral "main" (skipSpace t)
    let t ← afterLiteral "(" (skipSpace t)
    let t ← afterLiteral ")" (t.dropWhile fun b => b ≠ asciiByte ')')
    afterLiteral "\x7b" (skipSpace t)
  else none

/-- `std::regex_search` with that expression: the text up to the end of the first match, and
the rest. -/
def searchMain : Text → Option (Text × Text)
  | [] => none
  | b :: t =>
    match afterMain (b :: t) with
    | some rest => some ((b :: t).take ((b :: t).length - rest.length), rest)
    | none => (searchMain t).map fun (front, rest) => (b :: front, rest)

/-! ## `evolve_codebase` -/

def requiredHeaders (baseAlgorithm : Text) : Text :=
  (if ascii "<fstream>" <:+: baseAlgorithm then [] else ascii "#include <fstream>\n") ++
  (if ascii "<filesystem>" <:+: baseAlgorithm then [] else ascii "#include <filesystem>\n") ++
  (if ascii "<system_error>" <:+: baseAlgorithm then [] else ascii "#include <system_error>\n")

/-- The block in its place. -/
def insertBlock (mutatedCode logicBlock : Text) : Text :=
  match searchMain mutatedCode with
  | some (front, rest) => front ++ logicBlock ++ rest
  | none =>
    mutatedCode ++ (ascii "\n// [SWAYAM-ORPHAN-BLOCK]\nvoid _evo_orphan() \x7b" ++ logicBlock ++
      ascii "\x7d\n")

def evolve (baseAlgorithm : Text) : StateM Draws Text := do
  let mutatedCode := requiredHeaders baseAlgorithm ++ baseAlgorithm
  let logicBlock ← synthesizeLogicBlock
  let n ← draw
  let genomeId := ascii "\n// [EVO-GENOME-ID: 0x" ++ decimal n ++ ascii "]\n"
  return insertBlock mutatedCode logicBlock ++ genomeId

def evolveCodebase (baseAlgorithm : Text) (rng : Draws) : Text := (evolve baseAlgorithm rng).1

/-- `base_algorithm` of `main` -/
def mainBaseAlgorithm : Text :=
  ascii "int main() \x7b\n    // [SWAYAM_BASE_GENOME]\n    return 0;\n\x7d"

end Swayam.Forge
