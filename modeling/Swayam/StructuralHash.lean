import Swayam.Lib.Numbering
import Swayam.Text

/-!
# SWAYAM — `canonicalize` of `structural_hash.py`

The canonical form of an AST: its kinds in parentheses, and in place of every
name and value a label that is numbered by first occurrence, with one counter
for both. The duplicate check compares the hashes of these texts.

A text is the UTF-8 form of a Python string. Names and values are of arbitrary
types with equality; an absent `kind` reads as an empty one, and an absent
`inner` as no children. Equality is the one of the `dict`, and a tree is never too
deep for the recursion.

* `canonical_eq_print` — the text is that of the tree in which every name and
  value is replaced by its number;
* `print_injective` — a tree of numbers is readable from its text;
* `canonical_eq_iff` — so two trees have the same text exactly when one is a
  renaming of the other.
-/

namespace Swayam.StructuralHash

open Numbering

/-! ## The AST -/

/-- A node of an AST, with the fields that `canonicalize` reads. -/
inductive Node (N V : Type)
  | mk (kind : Text) (name : Option N) (value : Option V) (inner : List (Node N V))
  deriving Repr

/-- The key `(field, node[field])`, for the fields `name` and `value`. -/
inductive Key (N V : Type)
  | name (n : N)
  | value (v : V)
  deriving DecidableEq, Repr

/-- The keys of a node: `for field in ("name", "value"): if field in node`. -/
def fieldKeys {N V : Type} (name : Option N) (value : Option V) : List (Key N V) :=
  (name.map Key.name).toList ++ (value.map Key.value).toList

/-! ## `canonicalize` -/

/-- `{"n": 0}` and `{}`: the counter, and the labels of the keys seen. -/
structure Labels (N V : Type) where
  n    : Nat := 0
  seen : List (Key N V × Text) := []

section Canonicalize

variable {N V : Type} [DecidableEq N] [DecidableEq V]

/-- `field.upper()` -/
def upper {M U : Type} : Key M U → Text
  | .name _ => ascii "NAME"
  | .value _ => ascii "VALUE"

/-- `seen[key]`, entered when it is not there. -/
def visit (key : Key N V) (s : Labels N V) : Text × Labels N V :=
  match s.seen.lookup key with
  | some label => (label, s)
  | none =>
    let label := upper key ++ ascii "_" ++ decimal s.n
    (label, ⟨s.n + 1, s.seen ++ [(key, label)]⟩)

def visitAll : List (Key N V) → Labels N V → List Text × Labels N V
  | [], s => ([], s)
  | key :: keys, s =>
    let (label, s) := visit key s
    let (labels, s) := visitAll keys s
    (label :: labels, s)

/-- `"(" + " ".join(parts) + ")"` -/
def parenthesize (parts : List Text) : Text :=
  ascii "(" ++ List.intercalate (ascii " ") parts ++ ascii ")"

mutual

def canonicalize : Node N V → Labels N V → Text × Labels N V
  | .mk kind name value inner, s =>
    let (labels, s) := visitAll (fieldKeys name value) s
    let (children, s) := canonicalizeInner inner s
    (parenthesize (kind :: (labels ++ children)), s)

def canonicalizeInner : List (Node N V) → Labels N V → List Text × Labels N V
  | [], s => ([], s)
  | child :: rest, s =>
    let (text, s) := canonicalize child s
    let (texts, s) := canonicalizeInner rest s
    (text :: texts, s)

end

/-- `canonicalize(ast, {"n": 0}, {})` -/
def canonical (ast : Node N V) : Text := (canonicalize ast ⟨0, []⟩).1

end Canonicalize

/-! ## Renamings -/

def Key.map {N V M U : Type} (f : N → M) (g : V → U) : Key N V → Key M U
  | .name n => .name (f n)
  | .value v => .value (g v)

mutual

/-- The tree with its names and values replaced, node by node. -/
def Node.map {N V M U : Type} (f : N → M) (g : V → U) : Node N V → Node M U
  | .mk kind name value inner => .mk kind (name.map f) (value.map g) (mapInner f g inner)

def mapInner {N V M U : Type} (f : N → M) (g : V → U) : List (Node N V) → List (Node M U)
  | [] => []
  | child :: rest => child.map f g :: mapInner f g rest

end

mutual

/-- The keys of a tree, in the order in which they are visited. -/
def Node.keys {N V : Type} : Node N V → List (Key N V)
  | .mk _ name value inner => fieldKeys name value ++ keysInner inner

def keysInner {N V : Type} : List (Node N V) → List (Key N V)
  | [] => []
  | child :: rest => child.keys ++ keysInner rest

end

mutual

/-- Every kind of the tree meets a condition. -/
def Node.Kinds {N V : Type} (p : Text → Prop) : Node N V → Prop
  | .mk kind _ _ inner => p kind ∧ KindsInner p inner

def KindsInner {N V : Type} (p : Text → Prop) : List (Node N V) → Prop
  | [] => True
  | child :: rest => child.Kinds p ∧ KindsInner p rest

end

section Map

variable {N V M U : Type}

theorem fieldKeys_map (f : N → M) (g : V → U) (name : Option N) (value : Option V) :
    fieldKeys (name.map f) (value.map g) = (fieldKeys name value).map (Key.map f g) := by
  cases name <;> cases value <;> rfl

mutual

theorem keys_map (f : N → M) (g : V → U) :
    ∀ a : Node N V, (a.map f g).keys = a.keys.map (Key.map f g)
  | .mk kind name value inner => by
    rw [Node.map, Node.keys, Node.keys, fieldKeys_map, keysInner_map f g inner, List.map_append]

theorem keysInner_map (f : N → M) (g : V → U) :
    ∀ as : List (Node N V), keysInner (mapInner f g as) = (keysInner as).map (Key.map f g)
  | [] => rfl
  | child :: rest => by
    rw [mapInner, keysInner, keysInner, keys_map f g child, keysInner_map f g rest,
      List.map_append]

end

theorem fieldKeys_inj {name name' : Option N} {value value' : Option V}
    (h : fieldKeys name value = fieldKeys name' value') : name = name' ∧ value = value' := by
  cases name <;> cases value <;> cases name' <;> cases value' <;> simp_all [fieldKeys]

/-- A map that is injective between the entries of two lists. -/
theorem eq_of_map_eq {α β : Type} {f : α → β} {l l' : List α}
    (hinj : ∀ x ∈ l, ∀ y ∈ l', f x = f y → x = y) (h : l.map f = l'.map f) : l = l' := by
  induction l generalizing l' with
  | nil => exact (List.map_eq_nil_iff.mp h.symm).symm
  | cons x l ih =>
    cases l' with
    | nil => exact absurd h (by simp)
    | cons y l' =>
      rw [List.map_cons, List.map_cons, List.cons.injEq] at h
      rw [hinj x List.mem_cons_self y List.mem_cons_self h.1,
        ih (fun x hx y hy => hinj x (List.mem_cons_of_mem _ hx) y (List.mem_cons_of_mem _ hy)) h.2]

/-- Replacements that agree on the keys of a node agree on its fields. -/
theorem fieldKeys_congr {f f' : N → M} {g g' : V → U} {name : Option N} {value : Option V}
    (h : ∀ key ∈ fieldKeys name value, Key.map f g key = Key.map f' g' key) :
    name.map f = name.map f' ∧ value.map g = value.map g' := by
  constructor
  · cases name with
    | none => rfl
    | some n => exact congrArg some (Key.name.inj (h (.name n) (by simp [fieldKeys])))
  · cases value with
    | none => rfl
    | some v => exact congrArg some (Key.value.inj (h (.value v) (by simp [fieldKeys])))

mutual

/-- Two renamings that agree on the keys agree on the tree. -/
theorem map_congr {f f' : N → M} {g g' : V → U} :
    ∀ {a : Node N V}, (∀ key ∈ a.keys, Key.map f g key = Key.map f' g' key) →
      a.map f g = a.map f' g'
  | .mk kind name value inner, h => by
    rw [Node.keys] at h
    obtain ⟨hname, hvalue⟩ := fieldKeys_congr fun key hkey => h key (List.mem_append_left _ hkey)
    rw [Node.map, Node.map, hname, hvalue,
      mapInner_congr fun key hkey => h key (List.mem_append_right _ hkey)]

theorem mapInner_congr {f f' : N → M} {g g' : V → U} :
    ∀ {as : List (Node N V)}, (∀ key ∈ keysInner as, Key.map f g key = Key.map f' g' key) →
      mapInner f g as = mapInner f' g' as
  | [], _ => rfl
  | child :: rest, h => by
    rw [keysInner] at h
    rw [mapInner, mapInner, map_congr fun key hkey => h key (List.mem_append_left _ hkey),
      mapInner_congr fun key hkey => h key (List.mem_append_right _ hkey)]

end

mutual

/-- **Injective replacements**: trees with the same image are the same, when no two of their
names, and no two of their values, have the same image. -/
theorem map_inj_on {f : N → M} {g : V → U} :
    ∀ {a b : Node N V},
      (∀ key ∈ a.keys, ∀ key' ∈ b.keys, Key.map f g key = Key.map f g key' → key = key') →
      a.map f g = b.map f g → a = b
  | .mk kind name value inner, .mk kind' name' value' inner', hinj, h => by
    rw [Node.keys, Node.keys] at hinj
    rw [Node.map, Node.map, Node.mk.injEq] at h
    obtain ⟨rfl, hname, hvalue, hinner⟩ := h
    have hfields : fieldKeys name value = fieldKeys name' value' := by
      refine eq_of_map_eq (fun key hkey key' hkey' => ?_) ?_ (f := Key.map f g)
      · exact hinj key (List.mem_append_left _ hkey) key' (List.mem_append_left _ hkey')
      · rw [← fieldKeys_map, ← fieldKeys_map, hname, hvalue]
    obtain ⟨rfl, rfl⟩ := fieldKeys_inj hfields
    rw [mapInner_inj_on (fun key hkey key' hkey' => hinj key (List.mem_append_right _ hkey) key'
      (List.mem_append_right _ hkey')) hinner]

/-- A renaming injective on the keys of two trees tells them apart. -/
theorem mapInner_inj_on {f : N → M} {g : V → U} :
    ∀ {as bs : List (Node N V)},
      (∀ key ∈ keysInner as, ∀ key' ∈ keysInner bs, Key.map f g key = Key.map f g key' →
        key = key') →
      mapInner f g as = mapInner f g bs → as = bs
  | [], [], _, _ => rfl
  | [], _ :: _, _, h => by simp [mapInner] at h
  | _ :: _, [], _, h => by simp [mapInner] at h
  | child :: rest, child' :: rest', hinj, h => by
    rw [keysInner, keysInner] at hinj
    rw [mapInner, mapInner, List.cons.injEq] at h
    rw [map_inj_on (fun key hkey key' hkey' => hinj key (List.mem_append_left _ hkey) key'
        (List.mem_append_left _ hkey')) h.1,
      mapInner_inj_on (fun key hkey key' hkey' => hinj key (List.mem_append_right _ hkey) key'
        (List.mem_append_right _ hkey')) h.2]

end

mutual

/-- Two renamings are one. -/
theorem map_map {M' U' : Type} (f : N → M) (g : V → U) (f' : M → M') (g' : U → U') :
    ∀ a : Node N V, (a.map f g).map f' g' = a.map (f' ∘ f) (g' ∘ g)
  | .mk kind name value inner => by
    simp only [Node.map, Option.map_map, mapInner_mapInner f g f' g' inner]

theorem mapInner_mapInner {M' U' : Type} (f : N → M) (g : V → U) (f' : M → M') (g' : U → U') :
    ∀ as : List (Node N V), mapInner f' g' (mapInner f g as) = mapInner (f' ∘ f) (g' ∘ g) as
  | [] => rfl
  | child :: rest => by
    simp only [mapInner, map_map f g f' g' child, mapInner_mapInner f g f' g' rest]

end

mutual

/-- A replacement of names and values leaves the kinds. -/
theorem kinds_map {p : Text → Prop} (f : N → M) (g : V → U) :
    ∀ {a : Node N V}, a.Kinds p → (a.map f g).Kinds p
  | .mk _ _ _ _, h => ⟨h.1, kindsInner_map f g h.2⟩

/-- Renaming keeps the kinds. -/
theorem kindsInner_map {p : Text → Prop} (f : N → M) (g : V → U) :
    ∀ {as : List (Node N V)}, KindsInner p as → KindsInner p (mapInner f g as)
  | [], _ => trivial
  | _ :: _, h => ⟨kinds_map f g h.1, kindsInner_map f g h.2⟩

end

end Map

/-! ## The tree of numbers -/

/-- The label of a numbered key. -/
def label : Key Nat Nat → Text
  | .name n => ascii "NAME" ++ ascii "_" ++ decimal n
  | .value n => ascii "VALUE" ++ ascii "_" ++ decimal n

mutual

/-- The text of a tree of numbers. -/
def print : Node Nat Nat → Text
  | .mk kind name value inner =>
    parenthesize (kind :: ((fieldKeys name value).map label ++ printInner inner))

def printInner : List (Node Nat Nat) → List Text
  | [] => []
  | child :: rest => print child :: printInner rest

end

section Numbers

variable {N V : Type} [DecidableEq N] [DecidableEq V]

/-- The number of a key. -/
def number (known : List (Key N V)) : Key N V → Key Nat Nat :=
  Key.map (fun n => known.idxOf (.name n)) fun v => known.idxOf (.value v)

/-- The tree with its names and values replaced by their numbers. -/
def numbered (known : List (Key N V)) (a : Node N V) : Node Nat Nat :=
  a.map (fun n => known.idxOf (.name n)) fun v => known.idxOf (.value v)

theorem label_number (known : List (Key N V)) (key : Key N V) :
    label (number known key) = upper key ++ ascii "_" ++ decimal (known.idxOf key) := by
  cases key <;> rfl

/-- A known key keeps its number, -/
theorem number_of_isPrefix {known known' : List (Key N V)} {key : Key N V} (h : known <+: known')
    (hkey : key ∈ known) : number known' key = number known key := by
  cases key with
  | name n =>
    show Key.name (known'.idxOf (.name n)) = Key.name (known.idxOf (.name n))
    rw [idxOf_of_isPrefix h hkey]
  | value v =>
    show Key.value (known'.idxOf (.value v)) = Key.value (known.idxOf (.value v))
    rw [idxOf_of_isPrefix h hkey]

/-- also when more are collected. -/
theorem number_collect {known keys : List (Key N V)} {key : Key N V} (hkey : key ∈ known) :
    number (collect known keys) key = number known key :=
  number_of_isPrefix (prefix_collect known keys) hkey

/-- The counter and the labels are those of the keys known so far. -/
structure Numbers (known : List (Key N V)) (s : Labels N V) : Prop where
  n    : s.n = known.length
  seen : ∀ key : Key N V,
    s.seen.lookup key = if key ∈ known then some (label (number known key)) else none

/-- A visit labels a key with its number, known or new. -/
theorem visit_spec {known : List (Key N V)} {s : Labels N V} (h : Numbers known s)
    (key : Key N V) :
    (visit key s).1 = label (number (extend known key) key) ∧
      Numbers (extend known key) (visit key s).2 := by
  unfold visit extend
  rw [h.seen key]
  by_cases hkey : key ∈ known
  · rw [if_pos hkey, if_pos hkey]
    exact ⟨rfl, h⟩
  · rw [if_neg hkey, if_neg hkey]
    -- the next number is the place of the new key
    have hlast : upper key ++ ascii "_" ++ decimal s.n = label (number (known ++ [key]) key) := by
      rw [label_number, List.idxOf_append_of_notMem hkey, h.n]
      simp
    refine ⟨hlast, ⟨by simp [h.n], fun key' => ?_⟩⟩
    rw [List.lookup_append, h.seen key', hlast]
    by_cases hkey' : key' ∈ known
    · rw [if_pos hkey', if_pos (List.mem_append_left _ hkey'),
        number_of_isPrefix (List.prefix_append known [key]) hkey']
      rfl
    · rw [if_neg hkey', Option.none_or]
      by_cases heq : key' = key
      · rw [heq, if_pos (by simp)]
        simp
      · rw [if_neg (by simp [hkey', heq])]
        rw [List.lookup_cons, beq_false_of_ne heq]
        rfl

/-- So do the visits of a node. -/
theorem visitAll_spec {known : List (Key N V)} {s : Labels N V} (h : Numbers known s)
    (keys : List (Key N V)) :
    (visitAll keys s).1 = (keys.map (number (collect known keys))).map label ∧
      Numbers (collect known keys) (visitAll keys s).2 := by
  induction keys generalizing known s with
  | nil => exact ⟨rfl, h⟩
  | cons key keys ih =>
    obtain ⟨hlabel, hnext⟩ := visit_spec h key
    obtain ⟨hlabels, hlast⟩ := ih hnext
    refine ⟨?_, hlast⟩
    rw [visitAll, collect_cons, List.map_cons, List.map_cons]
    show (visit key s).1 :: (visitAll keys (visit key s).2).1 = _
    rw [hlabel, hlabels, number_collect (mem_extend known key)]

/-- The keys of a numbered node. -/
theorem fieldKeys_number (known : List (Key N V)) (name : Option N) (value : Option V) :
    fieldKeys (name.map fun n => known.idxOf (.name n)) (value.map fun v => known.idxOf (.value v)) =
      (fieldKeys name value).map (number known) :=
  fieldKeys_map ..

mutual

/-- **The text is that of the tree of numbers**, whatever was seen before. -/
theorem canonicalize_spec {known : List (Key N V)} {s : Labels N V} (h : Numbers known s) :
    ∀ a : Node N V, (canonicalize a s).1 = print (numbered (collect known a.keys) a) ∧
      Numbers (collect known a.keys) (canonicalize a s).2
  | .mk kind name value inner => by
    obtain ⟨hlabels, hfields⟩ := visitAll_spec h (fieldKeys name value)
    obtain ⟨htexts, hlast⟩ := canonicalizeInner_spec hfields inner
    rw [Node.keys, collect_append]
    refine ⟨?_, hlast⟩
    -- the numbers of the fields are still those at the end
    have hstay : (fieldKeys name value).map (number (collect known (fieldKeys name value))) =
        (fieldKeys name value).map
          (number (collect (collect known (fieldKeys name value)) (keysInner inner))) :=
      List.map_congr_left fun key hkey => (number_collect (mem_collect hkey)).symm
    rw [numbered, Node.map, print, fieldKeys_number, ← hstay, ← hlabels, ← htexts]
    rfl

/-- And the children are canonicalized with what is known by then. -/
theorem canonicalizeInner_spec {known : List (Key N V)} {s : Labels N V} (h : Numbers known s) :
    ∀ as : List (Node N V),
      (canonicalizeInner as s).1 =
        printInner (mapInner (fun n => (collect known (keysInner as)).idxOf (.name n))
          (fun v => (collect known (keysInner as)).idxOf (.value v)) as) ∧
      Numbers (collect known (keysInner as)) (canonicalizeInner as s).2
  | [] => ⟨rfl, h⟩
  | child :: rest => by
    obtain ⟨htext, hnext⟩ := canonicalize_spec h child
    obtain ⟨htexts, hlast⟩ := canonicalizeInner_spec hnext rest
    rw [keysInner, collect_append]
    refine ⟨?_, hlast⟩
    have hstay : numbered (collect known child.keys) child =
        numbered (collect (collect known child.keys) (keysInner rest)) child :=
      map_congr fun key hkey => (number_collect (mem_collect hkey)).symm
    rw [mapInner, printInner, ← htexts]
    show (canonicalize child s).1 :: _ = print (numbered _ child) :: _
    rw [htext, hstay]

end

/-- **Refinement.** -/
theorem canonical_eq_print (a : Node N V) :
    canonical a = print (numbered (collect [] a.keys) a) :=
  (canonicalize_spec ⟨rfl, fun _ => rfl⟩ a).1

end Numbers

/-! ## Readability -/

def blank : Byte := asciiByte ' '
def closing : Byte := asciiByte ')'

/-- A kind that does not run into what follows it: neither blanks nor closing parentheses. Letters
are neither. -/
def Plain (kind : Text) : Prop := ∀ b ∈ kind, b ≠ blank ∧ b ≠ closing

/-- The parts behind the kind. -/
def spaced (parts : List Text) : Text := parts.flatMap (blank :: ·)

/-- The printed form, part by part. -/
theorem intercalate_cons (kind : Text) (parts : List Text) :
    List.intercalate (ascii " ") (kind :: parts) = kind ++ spaced parts := by
  induction parts generalizing kind with
  | nil => simp [List.intercalate, spaced]
  | cons part parts ih =>
    have hnext := ih part
    simp only [List.intercalate, List.intersperse_cons_cons, List.flatten_cons] at hnext ⊢
    rw [hnext]
    rfl

theorem parenthesize_cons (kind : Text) (parts : List Text) (rest : Text) :
    parenthesize (kind :: parts) ++ rest =
      asciiByte '(' :: (kind ++ (spaced parts ++ closing :: rest)) := by
  rw [parenthesize, intercalate_cons]
  simp only [List.append_assoc]
  rfl

/-- A text up to the first byte outside a class is determined by what it is the beginning of. -/
theorem append_inj_of_span {p : Byte → Bool} {u u' v v' : Text} (hu : ∀ b ∈ u, p b = true)
    (hu' : ∀ b ∈ u', p b = true) (hv : ∀ b, v.head? = some b → p b = false)
    (hv' : ∀ b, v'.head? = some b → p b = false) (h : u ++ v = u' ++ v') : u = u' ∧ v = v' := by
  have htake : ∀ {u v : Text}, (∀ b ∈ u, p b = true) → (∀ b, v.head? = some b → p b = false) →
      (u ++ v).takeWhile p = u := by
    intro u v hu hv
    rw [List.takeWhile_append_of_pos hu]
    cases v with
    | nil => simp
    | cons b v => rw [List.takeWhile_cons_of_neg (by simp [hv b rfl]), List.append_nil]
  have heq : u = u' := by rw [← htake hu hv, h, htake hu' hv']
  exact ⟨heq, List.append_cancel_left (heq ▸ h)⟩

/-- What follows the labels of a node: the parenthesis of its first child, or its own closing
one. -/
def Behind (t : Text) : Prop := ∃ r, t = closing :: r ∨ t = blank :: asciiByte '(' :: r

/-- What follows a part begins with a blank or a closing parenthesis. -/
theorem Behind.head {t : Text} (h : Behind t) (keys : List (Key Nat Nat)) {b : Byte}
    (hb : (spaced (keys.map label) ++ t).head? = some b) : b = blank ∨ b = closing := by
  obtain ⟨r, rfl | rfl⟩ := h
  · cases keys with
    | nil => exact Or.inr (Option.some.inj hb).symm
    | cons key keys => exact Or.inl (Option.some.inj hb).symm
  · cases keys with
    | nil => exact Or.inl (Option.some.inj hb).symm
    | cons key keys => exact Or.inl (Option.some.inj hb).symm

/-- A label stands behind a blank. -/
theorem spaced_label_cons (key : Key Nat Nat) (keys : List (Key Nat Nat)) (t : Text) :
    spaced ((key :: keys).map label) ++ t =
      blank :: (label key ++ (spaced (keys.map label) ++ t)) := by
  simp [spaced]

/-- A label in front of another part determines its key. -/
theorem label_append_inj {key key' : Key Nat Nat} {t t' : Text}
    (ht : ∀ b, t.head? = some b → isDigit b = false)
    (ht' : ∀ b, t'.head? = some b → isDigit b = false) (h : label key ++ t = label key' ++ t') :
    key = key' ∧ t = t' := by
  have hdigits : ∀ n : Nat, ∀ b ∈ decimal n, isDigit b = true := fun _ _ => isDigit_of_mem_decimal
  cases key with
  | name n =>
    cases key' with
    | name n' =>
      rw [label, label, List.append_assoc _ (decimal n), List.append_assoc _ (decimal n')] at h
      obtain ⟨hn, hrest⟩ := append_inj_of_span (hdigits n) (hdigits n') ht ht'
        (List.append_cancel_left h)
      exact ⟨congrArg Key.name (decimal_injective hn), hrest⟩
    | value n' =>
      -- `N` is not `V`
      exact absurd (List.cons.inj h).1 (by decide)
  | value n =>
    cases key' with
    | name n' => exact absurd (List.cons.inj h).1 (by decide)
    | value n' =>
      rw [label, label, List.append_assoc _ (decimal n), List.append_assoc _ (decimal n')] at h
      obtain ⟨hn, hrest⟩ := append_inj_of_span (hdigits n) (hdigits n') ht ht'
        (List.append_cancel_left h)
      exact ⟨congrArg Key.value (decimal_injective hn), hrest⟩

/-- A label is not the beginning of a child, nor the end of a node. -/
theorem ne_of_behind {key : Key Nat Nat} {t u : Text} (h : Behind t) :
    t ≠ blank :: (label key ++ u) := by
  obtain ⟨r, rfl | rfl⟩ := h
  · exact fun heq => absurd (List.cons.inj heq).1 (by decide)
  · intro heq
    have htail := (List.cons.inj heq).2
    cases key with
    | name n => exact absurd (List.cons.inj htail).1 (by decide)
    | value n => exact absurd (List.cons.inj htail).1 (by decide)

/-- The labels of a node are readable. -/
theorem labels_append_inj {keys keys' : List (Key Nat Nat)} {t t' : Text} (ht : Behind t)
    (ht' : Behind t')
    (h : spaced (keys.map label) ++ t = spaced (keys'.map label) ++ t') : keys = keys' ∧ t = t' := by
  have hdigit : ∀ {t : Text}, Behind t → ∀ (keys : List (Key Nat Nat)) (b : Byte),
      (spaced (keys.map label) ++ t).head? = some b → isDigit b = false := by
    intro t ht keys b hb
    rcases ht.head keys hb with rfl | rfl
    · rfl
    · rfl
  induction keys generalizing keys' with
  | nil =>
    cases keys' with
    | nil => exact ⟨rfl, h⟩
    | cons key' keys' =>
      rw [spaced_label_cons] at h
      exact absurd h (ne_of_behind ht)
  | cons key keys ih =>
    cases keys' with
    | nil =>
      rw [spaced_label_cons] at h
      exact absurd h.symm (ne_of_behind ht')
    | cons key' keys' =>
      rw [spaced_label_cons, spaced_label_cons] at h
      obtain ⟨rfl, hrest⟩ := label_append_inj (hdigit ht keys) (hdigit ht' keys')
        (List.cons.inj h).2
      obtain ⟨rfl, ht⟩ := ih hrest
      exact ⟨rfl, ht⟩

/-- Parts are spaced one after the other. -/
theorem spaced_append (parts parts' : List Text) :
    spaced (parts ++ parts') = spaced parts ++ spaced parts' := by
  simp [spaced]

/-- The text of a node, part by part. -/
theorem print_append (kind : Text) (name value : Option Nat) (inner : List (Node Nat Nat))
    (rest : Text) :
    print (.mk kind name value inner) ++ rest = asciiByte '(' :: (kind ++
      (spaced ((fieldKeys name value).map label) ++
        (spaced (printInner inner) ++ closing :: rest))) := by
  rw [print, parenthesize_cons, spaced_append, List.append_assoc]

/-- So does a printed child. -/
theorem spaced_printInner_cons (child : Node Nat Nat) (inner : List (Node Nat Nat)) (t : Text) :
    spaced (printInner (child :: inner)) ++ t =
      blank :: (print child ++ (spaced (printInner inner) ++ t)) := by
  simp [spaced, printInner]

/-- Behind the fields stands a child or the end. -/
theorem behind_inner (inner : List (Node Nat Nat)) (rest : Text) :
    Behind (spaced (printInner inner) ++ closing :: rest) := by
  cases inner with
  | nil => exact ⟨rest, Or.inl rfl⟩
  | cons child inner =>
    cases child with
    | mk kind name value children =>
      rw [spaced_printInner_cons, print_append]
      exact ⟨_, Or.inr rfl⟩

mutual

/-- **Unique readability**: a text that begins with a tree of numbers determines the tree and
the rest. -/
theorem print_append_inj : ∀ {a b : Node Nat Nat}, a.Kinds Plain → b.Kinds Plain →
    ∀ {rest rest' : Text}, print a ++ rest = print b ++ rest' → a = b ∧ rest = rest'
  | .mk kind name value inner, .mk kind' name' value' inner', ha, hb, rest, rest', h => by
    obtain ⟨hkind, hinner⟩ := ha
    obtain ⟨hkind', hinner'⟩ := hb
    rw [print_append, print_append] at h
    have hplain : ∀ {kind : Text}, Plain kind → ∀ b ∈ kind,
        (decide (b ≠ blank) && decide (b ≠ closing)) = true := by
      intro kind hkind b hb
      simpa using hkind b hb
    have hhead : ∀ (keys : List (Key Nat Nat)) (inner : List (Node Nat Nat)) (rest : Text)
        (b : Byte), (spaced (keys.map label) ++
          (spaced (printInner inner) ++ closing :: rest)).head? = some b →
        (decide (b ≠ blank) && decide (b ≠ closing)) = false := by
      intro keys inner rest b hb
      rcases (behind_inner inner rest).head keys hb with rfl | rfl
      · rfl
      · rfl
    obtain ⟨rfl, hlabels⟩ := append_inj_of_span (hplain hkind) (hplain hkind')
      (hhead _ inner rest) (hhead _ inner' rest') (List.cons.inj h).2
    obtain ⟨hkeys, hbehind⟩ := labels_append_inj (behind_inner inner rest)
      (behind_inner inner' rest') hlabels
    obtain ⟨rfl, rfl⟩ := fieldKeys_inj hkeys
    obtain ⟨rfl, rfl⟩ := printInner_append_inj hinner hinner' hbehind
    exact ⟨rfl, rfl⟩

/-- The children can be read back from what is printed. -/
theorem printInner_append_inj : ∀ {as bs : List (Node Nat Nat)}, KindsInner Plain as →
    KindsInner Plain bs → ∀ {rest rest' : Text},
      spaced (printInner as) ++ closing :: rest = spaced (printInner bs) ++ closing :: rest' →
      as = bs ∧ rest = rest'
  | [], [], _, _, rest, rest', h => ⟨rfl, (List.cons.inj h).2⟩
  | [], child :: inner, _, _, rest, rest', h => by
    rw [spaced_printInner_cons] at h
    exact absurd (List.cons.inj h).1 (by decide)
  | child :: inner, [], _, _, rest, rest', h => by
    rw [spaced_printInner_cons] at h
    exact absurd (List.cons.inj h).1 (by decide)
  | child :: inner, child' :: inner', ha, hb, rest, rest', h => by
    rw [spaced_printInner_cons, spaced_printInner_cons] at h
    obtain ⟨rfl, hinner⟩ := print_append_inj ha.1 hb.1 (List.cons.inj h).2
    obtain ⟨rfl, rfl⟩ := printInner_append_inj ha.2 hb.2 hinner
    exact ⟨rfl, rfl⟩

end

/-- A tree of numbers is readable from its text. -/
theorem print_injective {a b : Node Nat Nat} (ha : a.Kinds Plain) (hb : b.Kinds Plain)
    (h : print a = print b) : a = b := by
  have hrest : print a ++ [] = print b ++ [] := by rw [h]
  exact (print_append_inj ha hb hrest).1

/-! ## Equal texts -/

section Equal

variable {N V : Type}

/-- A renaming of names and values is one of keys. -/
theorem key_map_injective {σ : N → N} {τ : V → V} (hσ : Function.Injective σ)
    (hτ : Function.Injective τ) : Function.Injective (Key.map σ τ) := by
  intro key key' h
  cases key with
  | name n =>
    cases key' with
    | name n' => exact congrArg Key.name (hσ (Key.name.inj h))
    | value v' => exact absurd h (by simp [Key.map])
  | value v =>
    cases key' with
    | name n' => exact absurd h (by simp [Key.map])
    | value v' => exact congrArg Key.value (hτ (Key.value.inj h))

/-- Corresponding entries of lists with the same image. -/
theorem eq_of_mem_zip {α β γ : Type} {f : α → γ} {g : β → γ} {l : List α} {l' : List β}
    (h : l.map f = l'.map g) : ∀ p ∈ l.zip l', f p.1 = g p.2 := by
  induction l generalizing l' with
  | nil => simp
  | cons x l ih =>
    cases l' with
    | nil => simp
    | cons y l' =>
      rw [List.map_cons, List.map_cons, List.cons.injEq] at h
      intro p hp
      rcases List.mem_cons.mp hp with rfl | hp
      · exact h.1
      · exact ih h.2 p hp

/-- Every entry has one that corresponds to it. -/
theorem exists_mem_zip {α β : Type} {l : List α} {l' : List β} (h : l.length = l'.length) {x : α}
    (hx : x ∈ l) : ∃ y, (x, y) ∈ l.zip l' := by
  have hfst : x ∈ (l.zip l').map Prod.fst := by
    rw [List.map_fst_zip h.le]
    exact hx
  obtain ⟨⟨x', y⟩, hmem, rfl⟩ := List.mem_map.mp hfst
  exact ⟨y, hmem⟩

/-- The pairs of names, and of values, at corresponding places. -/
def namePairs (pairs : List (Key N V × Key N V)) : List (N × N) :=
  pairs.filterMap fun
    | (.name n, .name n') => some (n, n')
    | _ => none

def valuePairs (pairs : List (Key N V × Key N V)) : List (V × V) :=
  pairs.filterMap fun
    | (.value v, .value v') => some (v, v')
    | _ => none

/-- The pairs of names among the pairs of keys, -/
theorem mem_namePairs {pairs : List (Key N V × Key N V)} {n n' : N} :
    (n, n') ∈ namePairs pairs ↔ (Key.name n, Key.name n') ∈ pairs := by
  rw [namePairs, List.mem_filterMap]
  constructor
  · rintro ⟨⟨key, key'⟩, hmem, h⟩
    cases key <;> cases key' <;> simp_all
  · exact fun h => ⟨_, h, rfl⟩

/-- and those of values. -/
theorem mem_valuePairs {pairs : List (Key N V × Key N V)} {v v' : V} :
    (v, v') ∈ valuePairs pairs ↔ (Key.value v, Key.value v') ∈ pairs := by
  rw [valuePairs, List.mem_filterMap]
  constructor
  · rintro ⟨⟨key, key'⟩, hmem, h⟩
    cases key <;> cases key' <;> simp_all
  · exact fun h => ⟨_, h, rfl⟩

variable [DecidableEq N] [DecidableEq V]

/-- A number determines a known key. -/
theorem number_inj {known : List (Key N V)} {key key' : Key N V} (hkey : key ∈ known)
    (h : number known key = number known key') : key = key' := by
  cases key with
  | name n =>
    cases key' with
    | name n' => exact (List.idxOf_inj hkey).mp (Key.name.inj h)
    | value v' => exact absurd h (by simp [number, Key.map])
  | value v =>
    cases key' with
    | name n' => exact absurd h (by simp [number, Key.map])
    | value v' => exact (List.idxOf_inj hkey).mp (Key.value.inj h)

/-- **A renaming does not change the tree of numbers.** -/
theorem numbered_map (σ : Equiv.Perm N) (τ : Equiv.Perm V) (a : Node N V) :
    numbered (collect [] (a.map σ τ).keys) (a.map σ τ) = numbered (collect [] a.keys) a := by
  have hinj : Function.Injective (Key.map σ τ) := key_map_injective σ.injective τ.injective
  rw [numbered, map_map]
  refine map_congr fun key _ => ?_
  rw [keys_map]
  cases key with
  | name n => exact congrArg Key.name (idxOf_collect_map hinj a.keys (.name n))
  | value v => exact congrArg Key.value (idxOf_collect_map hinj a.keys (.value v))

/-- **The same tree of numbers comes from a renaming.** -/
theorem exists_map_of_numbered {a b : Node N V}
    (h : numbered (collect [] a.keys) a = numbered (collect [] b.keys) b) :
    ∃ (σ : Equiv.Perm N) (τ : Equiv.Perm V), a.map σ τ = b := by
  have hkeys : a.keys.map (number (collect [] a.keys)) = b.keys.map (number (collect [] b.keys)) := by
    have hmap := congrArg Node.keys h
    rw [numbered, numbered, keys_map, keys_map] at hmap
    exact hmap
  have hpairs := eq_of_mem_zip hkeys
  have hlength : a.keys.length = b.keys.length := by simpa using congrArg List.length hkeys
  -- names at corresponding nodes have the same number, and so have values
  have hnames : ∀ p ∈ namePairs (a.keys.zip b.keys), Key.name p.1 ∈ collect [] a.keys ∧
      Key.name p.2 ∈ collect [] b.keys ∧
      (collect [] a.keys).idxOf (Key.name p.1) = (collect [] b.keys).idxOf (Key.name p.2) := by
    rintro ⟨n, n'⟩ hp
    have hmem := mem_namePairs.mp hp
    obtain ⟨ha, hb⟩ := List.of_mem_zip hmem
    exact ⟨mem_collect ha, mem_collect hb, Key.name.inj (hpairs _ hmem)⟩
  have hvalues : ∀ p ∈ valuePairs (a.keys.zip b.keys), Key.value p.1 ∈ collect [] a.keys ∧
      Key.value p.2 ∈ collect [] b.keys ∧
      (collect [] a.keys).idxOf (Key.value p.1) = (collect [] b.keys).idxOf (Key.value p.2) := by
    rintro ⟨v, v'⟩ hp
    have hmem := mem_valuePairs.mp hp
    obtain ⟨ha, hb⟩ := List.of_mem_zip hmem
    exact ⟨mem_collect ha, mem_collect hb, Key.value.inj (hpairs _ hmem)⟩
  obtain ⟨σ, hσ⟩ := exists_perm_of_numbers (fun _ _ => Key.name.inj) hnames
  obtain ⟨τ, hτ⟩ := exists_perm_of_numbers (fun _ _ => Key.value.inj) hvalues
  have hrename : ∀ key ∈ a.keys,
      number (collect [] b.keys) (Key.map σ τ key) = number (collect [] a.keys) key := by
    intro key hkey
    obtain ⟨key', hmem⟩ := exists_mem_zip hlength hkey
    have hnumber := hpairs _ hmem
    rw [hnumber]
    cases key with
    | name n =>
      cases key' with
      | name n' => rw [Key.map, hσ _ (mem_namePairs.mpr hmem)]
      | value v' => exact absurd hnumber (by simp [number, Key.map])
    | value v =>
      cases key' with
      | name n' => exact absurd hnumber (by simp [number, Key.map])
      | value v' => rw [Key.map, hτ _ (mem_valuePairs.mpr hmem)]
  refine ⟨σ, τ, map_inj_on (fun key _ key' hkey' heq => ?_) ?_
    (f := fun n => (collect [] b.keys).idxOf (.name n))
    (g := fun v => (collect [] b.keys).idxOf (.value v))⟩
  · exact (number_inj (mem_collect hkey') heq.symm).symm
  · rw [map_map]
    refine Eq.trans (map_congr fun key hkey => ?_) h
    have hkey := hrename key hkey
    cases key with
    | name n => exact hkey
    | value v => exact hkey

end Equal

/-- **`canonicalize` characterises structure up to renaming.** Two trees whose kinds do not run
into what follows them have the same canonical text if and only if some bijection on names
together with some bijection on values takes the one, node by node, to the other. -/
theorem canonical_eq_iff {N V : Type} [DecidableEq N] [DecidableEq V] (a b : Node N V)
    (ha : a.Kinds Plain) (hb : b.Kinds Plain) :
    canonical a = canonical b ↔
      ∃ (σ : Equiv.Perm N) (τ : Equiv.Perm V), a.map σ τ = b := by
  rw [canonical_eq_print, canonical_eq_print]
  constructor
  · intro h
    exact exists_map_of_numbered (print_injective (kinds_map _ _ ha) (kinds_map _ _ hb) h)
  · rintro ⟨σ, τ, rfl⟩
    rw [numbered_map]

/-! ### A function that returns a literal -/

/-- `int name() { return value; }`, as far as its tree goes. -/
def functionOf (name value : String) : Node Text Text :=
  .mk (ascii "TranslationUnitDecl") none none
    [.mk (ascii "FunctionDecl") (some (ascii name)) none
      [.mk (ascii "IntegerLiteral") none (some (ascii value)) []]]

/-- The example's kinds are plain. -/
theorem plain_functionOf (name value : String) : (functionOf name value).Kinds Plain := by
  have hplain : ∀ {kind : Text}, blank ∉ kind ∧ closing ∉ kind → Plain kind := by
    intro kind h b hb
    exact ⟨fun heq => h.1 (heq ▸ hb), fun heq => h.2 (heq ▸ hb)⟩
  exact ⟨hplain (by decide), ⟨hplain (by decide), ⟨hplain (by decide), trivial⟩, trivial⟩, trivial⟩

/-- Two functions that differ in names and a constant. -/
theorem canonical_eq_iff_functionOf :
    ∃ (σ τ : Equiv.Perm Text),
      (functionOf "computeTotal" "42").map σ τ = functionOf "sumThings" "99" :=
  (canonical_eq_iff _ _ (plain_functionOf "computeTotal" "42")
    (plain_functionOf "sumThings" "99")).mp (by decide)

end Swayam.StructuralHash
