import Mathlib.Data.List.Induction
import Swayam.Lib.LexicalPath

/-!
# File trees with symbolic links

Directories, files and links by the places where they stand (`Tree`), and where a
path leads (`walk`): its components are followed one after the other, and a link on
the way is followed first, up to a number of links.

* `walk_real` — a place that is no link is where its own path leads;
* `walk_eq_found_iff` — the steps by which a walk finds a node;
* `walk_append` — a longer path goes on from where the shorter one leads;
* `walk_kept` — what a path leads to is still found when nodes are added.
-/

namespace FileTree

open LexicalPath

/-- What stands at a place. -/
inductive Node (ν α : Type*)
  | dir
  | file (content : α)
  | link (absolute : Bool) (target : List ν)
  deriving DecidableEq, Repr

/-- A tree, by the names that lead to its nodes. `meaning` tells what a component of a path does,
when it can be a component at all; only one that enters can be a name. -/
structure Tree {ν : Type*} (meaning : ν → Option Step) (α : Type*) where
  nodes  : List ν → Option (Node ν α)
  root   : nodes [] = some .dir
  parent : ∀ l c, nodes (l ++ [c]) ≠ none → nodes l = some .dir
  named  : ∀ l c, nodes (l ++ [c]) ≠ none → meaning c = some .enter

/-- Where one component leads. -/
inductive Next (ν : Type*)
  | on (place : List ν)
  | follow (place target : List ν)
  | absent
  | missing
  deriving DecidableEq, Repr

/-- Where a path leads: to a node, to a name that a directory does not have, nowhere, or through
too many links. -/
inductive Walk (ν : Type*)
  | found (place : List ν)
  | absent (place : List ν) (name : ν)
  | missing
  | loop
  deriving DecidableEq, Repr

namespace Tree

variable {ν α : Type*} {meaning : ν → Option Step}

/-- One component, from a place. -/
def next (t : Tree meaning α) (place : List ν) (c : ν) : Next ν :=
  match t.nodes place with
  | some .dir =>
    match meaning c with
    | some .stay => .on place
    | some .leave => .on place.dropLast
    | some .enter =>
      match t.nodes (place ++ [c]) with
      | none => .absent
      -- a link leads on from the root or from where it stands
      | some (.link absolute target) => .follow (if absolute then [] else place) target
      | some _ => .on (place ++ [c])
    | none => .missing
  | _ => .missing

/-- A path, with what is done about a link. -/
def walkWith (t : Tree meaning α) (follow : List ν → List ν → Walk ν) :
    List ν → List ν → Walk ν
  | place, [] => .found place
  | place, c :: cs =>
    match t.next place c with
    | .on place' => walkWith t follow place' cs
    | .follow place' target => follow place' (target ++ cs)
    | .absent => if cs.isEmpty then .absent place c else .missing
    | .missing => .missing

/-- A path, through `limit` links at most. -/
def walk (t : Tree meaning α) : Nat → List ν → List ν → Walk ν
  | 0 => t.walkWith fun _ _ => .loop
  | limit + 1 => t.walkWith (t.walk limit)

/-- A place with a directory or a file. -/
def Real (t : Tree meaning α) (place : List ν) : Prop :=
  t.nodes place = some .dir ∨ ∃ content, t.nodes place = some (.file content)

section Places

variable {t t' : Tree meaning α} {place place' cs ds : List ν} {c : ν}

/-- A real place is there. -/
theorem Real.ne_none (h : t.Real place) : t.nodes place ≠ none := by
  rcases h with hdir | ⟨content, hfile⟩
  · simp [hdir]
  · simp [hfile]

/-- All that leads to a node is a directory. -/
theorem dir_of_append (h : t.nodes (place ++ ds) ≠ none) (hds : ds ≠ []) :
    t.nodes place = some .dir := by
  -- upwards from the node
  induction ds using List.reverseRecOn with
  | nil => exact absurd rfl hds
  | append_singleton ds c ih =>
    rw [← List.append_assoc] at h
    have hdir := t.parent _ c h
    by_cases hnil : ds = []
    · rwa [hnil, List.append_nil] at hdir
    · exact ih (by simp [hdir]) hnil

/-- The names on the way to a node. -/
theorem named_of_mem (h : t.nodes place ≠ none) (hc : c ∈ place) : meaning c = some .enter := by
  induction place using List.reverseRecOn with
  | nil => exact absurd hc List.not_mem_nil
  | append_singleton place d ih =>
    rcases List.mem_append.mp hc with hmem | hlast
    · exact ih (by simp [t.parent place d h]) hmem
    · rw [List.mem_singleton.mp hlast]
      exact t.named place d h

/-- Above a directory is one. -/
theorem dir_dropLast (h : t.nodes place = some .dir) : t.nodes place.dropLast = some .dir := by
  cases place using List.reverseRecOn with
  | nil => exact h
  | append_singleton place c =>
    rw [List.dropLast_concat]
    exact t.parent place c (by simp [h])

/-- A name that is there, and no link, is entered. -/
theorem next_of_real (h : t.Real (place ++ [c])) : t.next place c = .on (place ++ [c]) := by
  have hdir := t.parent place c h.ne_none
  have hname := t.named place c h.ne_none
  unfold next
  rw [hdir, hname]
  dsimp only
  rcases h with hnode | ⟨content, hnode⟩
  · rw [hnode]
  · rw [hnode]

/-- **What one component can do.** -/
theorem next_cases (t : Tree meaning α) (place : List ν) (c : ν) :
    (∃ place', t.next place c = .on place' ∧ t.Real place') ∨
    (∃ place' target, t.next place c = .follow place' target ∧ t.nodes place' = some .dir) ∨
    (t.next place c = .absent ∧ t.nodes place = some .dir ∧ meaning c = some .enter ∧
      t.nodes (place ++ [c]) = none) ∨
    t.next place c = .missing := by
  unfold next
  split
  · rename_i hdir
    split
    · exact Or.inl ⟨_, rfl, Or.inl hdir⟩
    · exact Or.inl ⟨_, rfl, Or.inl (dir_dropLast hdir)⟩
    · rename_i hname
      split
      · rename_i hnone
        exact Or.inr (Or.inr (Or.inl ⟨rfl, hdir, hname, hnone⟩))
      · -- a link is followed from the root, or from the directory it is in
        rename_i absolute target hlink
        refine Or.inr (Or.inl ⟨_, _, rfl, ?_⟩)
        cases absolute with
        | true => exact t.root
        | false => exact hdir
      · rename_i node hlink hnode
        refine Or.inl ⟨_, rfl, ?_⟩
        cases node with
        | dir => exact Or.inl hnode
        | file content => exact Or.inr ⟨content, hnode⟩
        | link absolute target => exact absurd rfl (hlink absolute target)
    · exact Or.inr (Or.inr (Or.inr rfl))
  · exact Or.inr (Or.inr (Or.inr rfl))

/-- A step leads to a real place. -/
theorem real_of_next (h : t.next place c = .on place') : t.Real place' := by
  rcases t.next_cases place c with ⟨_, hnext, hreal⟩ | ⟨_, _, hnext, -⟩ | ⟨hnext, -⟩ | hnext
  · rw [h] at hnext
    exact Next.on.inj hnext ▸ hreal
  all_goals simp [h] at hnext

/-- A link is followed from a directory. -/
theorem dir_of_next {target : List ν} (h : t.next place c = .follow place' target) :
    t.nodes place' = some .dir := by
  rcases t.next_cases place c with ⟨_, hnext, -⟩ | ⟨_, _, hnext, hdir⟩ | ⟨hnext, -⟩ | hnext
  · simp [h] at hnext
  · rw [h] at hnext
    exact (Next.follow.inj hnext).1 ▸ hdir
  all_goals simp [h] at hnext

/-- A component that is not a link: it stays, leaves, or enters. -/
theorem on_cases (h : t.next place c = .on place') :
    place' = place ∨ (meaning c = some .leave ∧ place' = place.dropLast) ∨
      place' = place ++ [c] := by
  unfold next at h
  split at h
  · split at h
    · exact Or.inl (Next.on.inj h).symm
    · rename_i hleave
      exact Or.inr (Or.inl ⟨hleave, (Next.on.inj h).symm⟩)
    · split at h
      · simp at h
      · simp at h
      · exact Or.inr (Or.inr (Next.on.inj h).symm)
    · simp at h
  · simp at h

/-- It is the link that stands there. -/
theorem link_of_follow {target : List ν} (h : t.next place c = .follow place' target) :
    ∃ absolute, t.nodes (place ++ [c]) = some (.link absolute target) := by
  unfold next at h
  split at h
  · split at h
    · simp at h
    · simp at h
    · split at h
      · simp at h
      · rename_i absolute target' hlink
        obtain ⟨-, rfl⟩ := Next.follow.inj h
        exact ⟨absolute, hlink⟩
      · simp at h
    · simp at h
  · simp at h

/-! ### One step of a walk -/

variable {follow : List ν → List ν → Walk ν}

/-- A walk, step by step: on to a directory or a file, -/
theorem walkWith_on (h : t.next place c = .on place') :
    t.walkWith follow place (c :: cs) = t.walkWith follow place' cs := by
  rw [walkWith, h]

/-- along a link, -/
theorem walkWith_follow {target : List ν} (h : t.next place c = .follow place' target) :
    t.walkWith follow place (c :: cs) = follow place' (target ++ cs) := by
  rw [walkWith, h]

/-- to something absent, which only the last component may be, -/
theorem walkWith_absent (h : t.next place c = .absent) :
    t.walkWith follow place (c :: cs) = if cs.isEmpty then .absent place c else .missing := by
  rw [walkWith, h]

/-- or to nothing. -/
theorem walkWith_missing (h : t.next place c = .missing) :
    t.walkWith follow place (c :: cs) = .missing := by
  rw [walkWith, h]

/-- A walk at any limit is one step, and the rest of it. -/
theorem walk_eq (t : Tree meaning α) (limit : Nat) :
    ∃ follow, t.walk limit = t.walkWith follow := by
  cases limit with
  | zero => exact ⟨_, rfl⟩
  | succ limit => exact ⟨_, rfl⟩

/-! ### Whole walks -/

/-- The names that lead to a node are followed to it. -/
theorem walkWith_real (h : t.Real (place ++ ds)) :
    t.walkWith follow place (ds ++ cs) = t.walkWith follow (place ++ ds) cs := by
  induction ds generalizing place with
  | nil => rw [List.append_nil, List.nil_append]
  | cons d ds ih =>
    rw [List.append_cons] at h
    -- the first name leads to a directory on the way, or is the last one
    have hfirst : t.Real (place ++ [d]) := by
      by_cases hnil : ds = []
      · rwa [hnil, List.append_nil] at h
      · exact Or.inl (dir_of_append h.ne_none hnil)
    rw [List.cons_append, walkWith_on (next_of_real hfirst), ih h, ← List.append_cons]

/-- **A node is where its own path leads**, and a longer path goes on from there. -/
theorem walk_real (h : t.Real place) (limit : Nat) (cs : List ν) :
    t.walk limit [] (place ++ cs) = t.walk limit place cs := by
  obtain ⟨follow, heq⟩ := t.walk_eq limit
  have hreal : t.Real ([] ++ place) := h
  rw [heq, walkWith_real hreal, List.nil_append]

/-- The same for walks with a limit of links. -/
theorem walk_nil (t : Tree meaning α) (limit : Nat) (place : List ν) :
    t.walk limit place [] = .found place := by
  obtain ⟨follow, heq⟩ := t.walk_eq limit
  rw [heq, walkWith]

/-- What a property of walks has to be preserved by. -/
theorem walk_induct (t : Tree meaning α) {P : Nat → List ν → List ν → Walk ν → Prop}
    (nil : ∀ limit place, P limit place [] (.found place))
    (on : ∀ limit place place' c cs, t.next place c = .on place' →
      P limit place' cs (t.walk limit place' cs) →
      P limit place (c :: cs) (t.walk limit place' cs))
    (follow : ∀ limit place place' target c cs, t.next place c = .follow place' target →
      P limit place' (target ++ cs) (t.walk limit place' (target ++ cs)) →
      P (limit + 1) place (c :: cs) (t.walk limit place' (target ++ cs)))
    (loop : ∀ place place' target c cs, t.next place c = .follow place' target →
      P 0 place (c :: cs) .loop)
    (absent : ∀ limit place c, t.next place c = .absent → P limit place [c] (.absent place c))
    (missing : ∀ limit place c cs, P limit place (c :: cs) .missing)
    (limit : Nat) (place cs : List ν) : P limit place cs (t.walk limit place cs) := by
  -- the limit first, and for each limit the components
  induction limit generalizing place cs with
  | zero =>
    induction cs generalizing place with
    | nil => exact nil 0 place
    | cons c cs ih =>
      rw [walk]
      rcases t.next_cases place c with
        ⟨place', h, -⟩ | ⟨place', target, h, -⟩ | ⟨h, -⟩ | h
      · rw [walkWith_on h]
        exact on 0 place place' c cs h (ih place')
      · rw [walkWith_follow h]
        exact loop place place' target c cs h
      · rw [walkWith_absent h]
        cases cs with
        | nil => exact absent 0 place c h
        | cons d ds => exact missing 0 place c (d :: ds)
      · rw [walkWith_missing h]
        exact missing 0 place c cs
  | succ limit ihl =>
    induction cs generalizing place with
    | nil => exact nil (limit + 1) place
    | cons c cs ih =>
      rw [walk]
      rcases t.next_cases place c with
        ⟨place', h, -⟩ | ⟨place', target, h, -⟩ | ⟨h, -⟩ | h
      · rw [walkWith_on h]
        exact on (limit + 1) place place' c cs h (ih place')
      · rw [walkWith_follow h]
        exact follow limit place place' target c cs h (ihl place' (target ++ cs))
      · rw [walkWith_absent h]
        cases cs with
        | nil => exact absent (limit + 1) place c h
        | cons d ds => exact missing (limit + 1) place c (d :: ds)
      · rw [walkWith_missing h]
        exact missing (limit + 1) place c cs

theorem walk_on (h : t.next place c = .on place') (limit : Nat) (cs : List ν) :
    t.walk limit place (c :: cs) = t.walk limit place' cs := by
  obtain ⟨follow, heq⟩ := t.walk_eq limit
  rw [heq, walkWith_on h]

theorem walk_of_absent (h : t.next place c = .absent) (limit : Nat) :
    t.walk limit place [c] = .absent place c := by
  obtain ⟨follow, heq⟩ := t.walk_eq limit
  rw [heq, walkWith_absent h]
  rfl

theorem walk_of_missing (h : t.next place c = .missing) (limit : Nat) (cs : List ν) :
    t.walk limit place (c :: cs) = .missing := by
  obtain ⟨follow, heq⟩ := t.walk_eq limit
  rw [heq, walkWith_missing h]

theorem walk_follow {target : List ν} (h : t.next place c = .follow place' target) (limit : Nat)
    (cs : List ν) : t.walk (limit + 1) place (c :: cs) = t.walk limit place' (target ++ cs) := by
  rw [walk, walkWith_follow h]

/-- The steps of a walk to a node. -/
inductive Leads (t : Tree meaning α) (place' : List ν) : Nat → List ν → List ν → Prop
  | nil (limit : Nat) : Leads t place' limit place' []
  | on {limit : Nat} {place next cs : List ν} {c : ν} (hnext : t.next place c = .on next)
      (hrest : Leads t place' limit next cs) : Leads t place' limit place (c :: cs)
  | follow {limit : Nat} {place next target cs : List ν} {c : ν}
      (hnext : t.next place c = .follow next target)
      (hrest : Leads t place' limit next (target ++ cs)) :
      Leads t place' (limit + 1) place (c :: cs)

/-- **A walk finds a node** by such steps. -/
theorem walk_eq_found_iff {limit : Nat} :
    t.walk limit place cs = .found place' ↔ t.Leads place' limit place cs := by
  constructor
  · intro h
    refine t.walk_induct (P := fun limit place cs w => w = .found place' →
      t.Leads place' limit place cs) ?_ ?_ ?_ ?_ ?_ ?_ limit place cs h
    · intro limit place heq
      rw [← Walk.found.inj heq]
      exact .nil limit
    · intro _ _ _ _ _ hnext ih heq
      exact .on hnext (ih heq)
    · intro _ _ _ _ _ _ hnext ih heq
      exact .follow hnext (ih heq)
    · intro _ _ _ _ _ _ heq
      simp at heq
    · intro _ _ _ _ heq
      simp at heq
    · intro _ _ _ _ heq
      simp at heq
  · intro h
    induction h with
    | nil limit => exact walk_nil t limit place'
    | on hnext _ ih => rw [walk_on hnext, ih]
    | follow hnext _ ih => rw [walk_follow hnext, ih]

/-- What is found is a directory or a file. -/
theorem Leads.real {limit : Nat} (h : t.Leads place' limit place cs) (hreal : t.Real place) :
    t.Real place' := by
  induction h with
  | nil limit => exact hreal
  | on hnext _ ih => exact ih (real_of_next hnext)
  | follow hnext _ ih => exact ih (Or.inl (dir_of_next hnext))

theorem real_of_walk {limit : Nat} (hreal : t.Real place)
    (h : t.walk limit place cs = .found place') : t.Real place' :=
  (walk_eq_found_iff.mp h).real hreal

/-- **A longer path** goes on from where the shorter one leads, with some links left. -/
theorem walk_append {limit : Nat} (h : t.walk limit place cs = .found place') (ds : List ν) :
    ∃ left, t.walk limit place (cs ++ ds) = t.walk left place' ds := by
  rw [walk_eq_found_iff] at h
  induction h with
  | nil limit => exact ⟨limit, rfl⟩
  | on hnext _ ih =>
    rw [List.cons_append, walk_on hnext]
    exact ih
  | follow hnext _ ih =>
    -- what comes behind stays behind the components of the link
    rw [List.cons_append, walk_follow hnext, ← List.append_assoc]
    exact ih

/-- All nodes of one tree stand in another. -/
def Kept (t t' : Tree meaning α) : Prop := ∀ l node, t.nodes l = some node → t'.nodes l = some node

/-- Where the tree is kept, steps are. -/
theorem Kept.next (h : t.Kept t') (habsent : t.next place c ≠ .absent)
    (hmissing : t.next place c ≠ .missing) : t'.next place c = t.next place c := by
  -- whatever the step reads is a node of the smaller tree
  cases hplace : t.nodes place with
  | none => simp [Tree.next, hplace] at hmissing
  | some node =>
    cases node with
    | file content => simp [Tree.next, hplace] at hmissing
    | link absolute target => simp [Tree.next, hplace] at hmissing
    | dir =>
      cases hname : meaning c with
      | none => simp [Tree.next, hplace, hname] at hmissing
      | some step =>
        cases step with
        | stay => simp [Tree.next, hplace, h place _ hplace, hname]
        | leave => simp [Tree.next, hplace, h place _ hplace, hname]
        | enter =>
          cases hchild : t.nodes (place ++ [c]) with
          | none => simp [Tree.next, hplace, hname, hchild] at habsent
          | some child =>
            simp [Tree.next, hplace, h place _ hplace, hname, hchild, h _ _ hchild]

/-- And walks. -/
theorem Leads.kept {limit : Nat} (h : t.Leads place' limit place cs) (hkept : t.Kept t') :
    t'.Leads place' limit place cs := by
  induction h with
  | nil limit => exact .nil limit
  | on hnext _ ih => exact .on ((hkept.next (by simp [hnext]) (by simp [hnext])).trans hnext) ih
  | follow hnext _ ih =>
    exact .follow ((hkept.next (by simp [hnext]) (by simp [hnext])).trans hnext) ih

/-- **What a path leads to** is found in every larger tree. -/
theorem walk_kept {limit : Nat} (hkept : t.Kept t') (h : t.walk limit place cs = .found place') :
    t'.walk limit place cs = .found place' :=
  walk_eq_found_iff.mpr ((walk_eq_found_iff.mp h).kept hkept)

end Places

/-! ## Another node -/

/-- A place where a node can be put: in a directory, by a name, and not over a directory. -/
structure Settable (t : Tree meaning α) (place : List ν) : Prop where
  inDir  : t.nodes place.dropLast = some .dir
  named  : ∀ c ∈ place.getLast?, meaning c = some .enter
  notDir : t.nodes place ≠ some .dir

/-- A name that a directory does not have. -/
theorem settable_of_absent {t : Tree meaning α} {place : List ν} {c : ν}
    (hdir : t.nodes place = some .dir) (hname : meaning c = some .enter)
    (hnone : t.nodes (place ++ [c]) = none) :
    t.Settable (place ++ [c]) where
  inDir := by rwa [List.dropLast_concat]
  named := by
    intro d hd
    rw [List.getLast?_concat, Option.mem_some_iff] at hd
    rwa [← hd]
  notDir := by simp [hnone]

instance [DecidableEq ν] [DecidableEq α] (t : Tree meaning α) (place : List ν) :
    Decidable (t.Settable place) :=
  decidable_of_iff (t.nodes place.dropLast = some .dir ∧
      (∀ c ∈ place.getLast?, meaning c = some .enter) ∧ t.nodes place ≠ some .dir)
    ⟨fun ⟨hdir, hname, hnot⟩ => ⟨hdir, hname, hnot⟩, fun ⟨hdir, hname, hnot⟩ => ⟨hdir, hname, hnot⟩⟩

variable [DecidableEq ν] [DecidableEq α]

/-- The tree with a node put somewhere, when it can be. -/
def set (t : Tree meaning α) (place : List ν) (node : Node ν α) : Tree meaning α :=
  if h : t.Settable place then
    { nodes := fun l => if l = place then some node else t.nodes l
      root := by
        have hne : [] ≠ place := fun heq => h.notDir (heq ▸ t.root)
        rw [if_neg hne, t.root]
      parent := by
        intro l c hl
        have hdir : t.nodes l = some .dir := by
          split at hl
          · rename_i heq
            have hin := h.inDir
            rwa [← heq, List.dropLast_concat] at hin
          · exact t.parent l c hl
        have hne : l ≠ place := fun heq => h.notDir (heq ▸ hdir)
        rw [if_neg hne, hdir]
      named := by
        intro l c hl
        split at hl
        · rename_i heq
          exact h.named c (by rw [← heq, List.getLast?_concat]; rfl)
        · exact t.named l c hl }
  else t

/-- Only the root. -/
def empty (meaning : ν → Option Step) (α : Type*) : Tree meaning α where
  nodes l := if l = [] then some .dir else none
  root := if_pos rfl
  parent := by simp
  named := by simp

section Set

variable {t : Tree meaning α} {place l : List ν} {node : Node ν α}

theorem nodes_set (h : t.Settable place) (l : List ν) :
    (t.set place node).nodes l = if l = place then some node else t.nodes l := by
  rw [set, dif_pos h]

/-- Directories are not put over. -/
theorem dir_set (h : t.nodes l = some .dir) : (t.set place node).nodes l = some .dir := by
  by_cases hset : t.Settable place
  · have hne : l ≠ place := fun heq => hset.notDir (heq ▸ h)
    rw [nodes_set hset, if_neg hne, h]
  · rw [set, dif_neg hset, h]

/-- A new node keeps every node there was. -/
theorem kept_set (hset : t.Settable place) (hnone : t.nodes place = none) :
    t.Kept (t.set place node) := by
  intro l node' hl
  have hne : l ≠ place := by
    rintro rfl
    simp [hnone] at hl
  rw [nodes_set hset, if_neg hne, hl]

end Set

end Tree

end FileTree
