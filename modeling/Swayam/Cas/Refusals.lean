import Swayam.Cas.RateLimit
import Swayam.Lib.Delimited

/-!
# SWAYAM — what the transforms of `cas_commit.sh` refuse

`cas_commit.sh` does not retry an update that its transform rejects. Two transforms
do: the limiter, when the window is full, and the manifest, when it has the hash.
Both have only the file to go by, which other runs change behind their back.

* `refused_full` — the limiter only refuses behind as many updates as it allows in
  an hour;
* `registered_once` — the manifest never gets a hash twice, not even when answers
  get lost.
-/

namespace Swayam.Cas

open Interleaving Machine

/-! ## The limiter -/

namespace RateLimit

open FixedWindow

/-- **A refusal has its reason.** From an absent file, in any interleaving of any number of runs:
when the transform of a run rejects what the run has read, at least `max` updates took effect
in the 3600 seconds before. -/
theorem refused_full (jq : Text → Option (Int × Int)) (max : Int) (sha : Text → Text)
    (hjq : ∀ count windowStart, jq (limitText count windowStart) = some (count, windowStart))
    (hinj : Function.Injective sha) (hne : ∀ content, sha content ≠ []) (clock : Int)
    (as : List (Nat × Act)) (s : Sys)
    (hrun : exec (step jq max sha) (start none clock) as = some s) (r attempt : Nat)
    (requestSha oldContent : Text) (hproc : s.proc r = .transforming attempt requestSha oldContent)
    (hrefused : rateLimitTransform jq max s.shared.clock oldContent = none) :
    max ≤ countIn period (s.shared.clock - period) s.shared.accepted := by
  have hinv : Holds (Admitted max none) (RunOk max sha none) s :=
    exec_invariant (fun _ a _ h hs => (sound_limit hjq hinj hne).step a h hs)
      (holds_start none clock) hrun
  have hread := hinv.2 r
  rw [hproc] at hread
  -- it has read the window that some of the updates had led to
  obtain ⟨before, w, ⟨hbefore, hexec, -⟩, rfl⟩ := hread
  have hgrant := rateLimitTransform_encode hjq max s.shared.clock w
  rw [hrefused, Option.map_none, eq_comm, Option.map_eq_none_iff] at hgrant
  have hle := le_countIn_of_refused (hinv.1.sorted.sublist hbefore.sublist)
    (fun n hn => hinv.1.past n (hbefore.subset hn)) hexec hgrant
  have hmono : countIn period (s.shared.clock - period) before ≤
      countIn period (s.shared.clock - period) s.shared.accepted :=
    hbefore.sublist.countP_le
  omega

/-- The first two updates are allowed within the hour, the third is not. -/
def thirdInAnHour : List (Nat × Act) :=
  [(0, .tick 10), (0, .get), (0, .transform), (0, .put true 201), (1, .tick 20), (1, .get),
   (1, .transform), (1, .put true 200), (2, .tick 30), (2, .get)]

/-- The third request of an hour is refused. -/
theorem refused_full_thirdInAnHour : ∃ s,
    exec (step readLimit 2 tagged) (start none 0) thirdInAnHour = some s ∧
      (2 : Int) ≤ countIn period (s.shared.clock - period) s.shared.accepted := by
  have hview : (exec (step readLimit 2 tagged) (start none 0) thirdInAnHour).map (fun s =>
      (s.proc 2, s.shared.clock)) =
        some (.transforming 1 (tagged (limitText 2 10)) (limitText 2 10), 30) := by decide
  obtain ⟨s, hrun, hs⟩ := Option.map_eq_some_iff.mp hview
  obtain ⟨hproc, hclock⟩ := Prod.mk.inj hs
  refine ⟨s, hrun, refused_full readLimit 2 tagged readLimit_limitText
    (fun _ _ h => (List.cons.inj h).2) (fun content => List.cons_ne_nil sharp content) 0 thirdInAnHour
    s hrun 2 1 _ _ hproc ?_⟩
  rw [hclock]
  decide

end RateLimit

/-! ## The manifest -/

section Manifest

variable {api : Api} {entries : Text → List Text} {manifest : Text → Text → Option Text}
  {hashOf : Nat → Text} {sha : Text → Text}

/-- The transform adds the hash behind the entries, or rejects it when it is among them. -/
def Registers (entries : Text → List Text) (manifest : Text → Text → Option Text) : Prop :=
  ∀ hash old output, manifest hash old = some output →
    hash ∉ entries old ∧ entries (commandSubst output) = entries old ++ [hash]

/-- The entries of the file, as the next run reads it. -/
def registered (entries : Text → List Text) (file : Option Text) : List Text :=
  entries (commandSubst (file.getD []))

/-- The entries of the file are the first ones and those of its authors. -/
structure Recorded (entries : Text → List Text) (hashOf : Nat → Text) (first : List Text)
    (m : Remote) : Prop where
  inOrder : registered entries m.file = first ++ m.authors.map hashOf
  nodup   : (registered entries m.file).Nodup

/-- A run that is about to PUT has its hash behind the entries of the content whose sha it
has. -/
def RegistersNext (entries : Text → List Text) (hashOf : Nat → Text) (sha : Text → Text)
    (_ : Remote) (r : Nat) : Run → Prop
  | .putting _ requestSha newContent => ∃ old, requestSha = shaOf sha old ∧
      hashOf r ∉ registered entries old ∧
      registered entries (some newContent) = registered entries old ++ [hashOf r]
  | _ => True

/-- **Step lemma.** -/
theorem sound_manifest (hmanifest : Registers entries manifest)
    (hapi : ∀ accepted status, api accepted true status = true → accepted = true)
    (hinj : Function.Injective sha) (hne : ∀ content, sha content ≠ []) (first : List Text) :
    Sound (move api (fun r => manifest (hashOf r)) sha) (Recorded entries hashOf first)
      (RegistersNext entries hashOf sha) (fun _ _ _ => True) where
  stable {m m' p q run} _ _ _ h := by
    cases run with
    | putting attempt requestSha newContent => exact h
    | getting attempt => trivial
    | exited code => trivial
  own {m m' r run run' act} hm hrun h := by
    rcases move_cases h with ⟨attempt, rfl, rfl, hnext⟩ |
      ⟨attempt, requestSha, newContent, applied, status, rfl, -, haccepted, rfl, rfl⟩
    · refine ⟨hm, ?_, trivial⟩
      rcases hnext with rfl | ⟨output, houtput, rfl⟩
      · trivial
      · obtain ⟨hnew, hentries⟩ := hmanifest _ _ _ houtput
        refine ⟨m'.file, rfl, hnew, ?_⟩
        show entries (commandSubst (commandSubst output)) = _
        rw [commandSubst_idem, hentries]
        rfl
    · have hlast : ∀ m', RegistersNext entries hashOf sha m' r (afterPut attempt status) := by
        intro m'
        unfold afterPut afterStatus
        split
        · trivial
        · split <;> trivial
      refine ⟨?_, hlast _, trivial⟩
      cases applied with
      | false => exact hm
      | true =>
        obtain ⟨old, rfl, hnew, hentries⟩ := hrun
        -- what it replaces is what it has read
        obtain rfl := eq_of_accepts hinj hne (hapi _ _ haccepted)
        rw [if_pos rfl]
        constructor
        · show registered entries (some newContent) = _
          rw [hentries, hm.inOrder, authors_commit, List.map_append, List.append_assoc]
          rfl
        · show (registered entries (some newContent)).Nodup
          rw [hentries, List.nodup_append]
          refine ⟨hm.nodup, List.nodup_singleton _, fun a ha b hb hab => ?_⟩
          rw [List.mem_singleton.mp hb] at hab
          exact hnew (hab ▸ ha)

/-- A run that exits with 0 has changed the file. -/
def ChangedBeforeExit (m : Remote) (r : Nat) : Run → Prop
  | .exited code => code = 0 → r ∈ m.authors
  | _ => True

/-- With an honest server every exit is sound. -/
theorem sound_exit {transform : Nat → Text → Option Text}
    (hhonest : ∀ accepted applied status, api accepted applied status = true →
      success status = true → applied = true) :
    Sound (move api transform sha) (fun _ => True) ChangedBeforeExit
      (fun _ m m' => m.authors ⊆ m'.authors) where
  stable {m m' p q run} _ _ hsub h := by
    cases run with
    | exited code => exact fun hcode => hsub (h hcode)
    | getting attempt => trivial
    | putting attempt requestSha newContent => trivial
  own {m m' r run run' act} _ _ h := by
    rcases move_cases h with ⟨attempt, rfl, rfl, hnext⟩ |
      ⟨attempt, requestSha, newContent, applied, status, rfl, -, hapi, rfl, rfl⟩
    · refine ⟨trivial, ?_, List.Subset.refl _⟩
      -- the transform refused, or a PUT follows
      rcases hnext with rfl | ⟨output, -, rfl⟩
      · exact fun hcode => absurd hcode (by decide)
      · trivial
    · refine ⟨trivial, ?_, ?_⟩
      · by_cases hsuccess : success status = true
        · rw [afterPut, afterStatus, if_pos hsuccess, if_pos (hhonest _ _ _ hapi hsuccess)]
          intro _
          rw [authors_commit]
          exact List.mem_append_right _ (List.mem_singleton.mpr rfl)
        · rw [afterPut, afterStatus, if_neg hsuccess]
          by_cases hmore : attempt < maxAttempts
          · rw [if_pos hmore]
            trivial
          · rw [if_neg hmore]
            exact fun hcode => absurd hcode (by decide)
      · split
        · rw [authors_commit]
          exact List.subset_append_left _ _
        · exact List.Subset.refl _

end Manifest

/-- **No hash is registered twice.** With an API that applies a PUT only on the current sha, but
may answer anything: in any interleaving of any number of submissions, the entries of the
manifest are the first ones and behind them the hashes of the submissions that changed it, in
this order and without repetition. So no submission changes it twice either, not even when an
answer gets lost; and when an answer 200 or 201 means that the PUT took effect, no two
submissions of one hash exit with 0. -/
theorem registered_once (entries : Text → List Text) (manifest : Text → Text → Option Text)
    (hmanifest : Registers entries manifest) (hashOf : Nat → Text) (sha : Text → Text)
    (hinj : Function.Injective sha) (hne : ∀ content, sha content ≠ []) (api : Api)
    (hapi : ∀ accepted status, api accepted true status = true → accepted = true)
    (file : Option Text) (hfirst : (registered entries file).Nodup) (as : List (Nat × Act)) (s : Sys)
    (hrun : exec (step api (fun r => manifest (hashOf r)) sha) (start file) as = some s) :
    registered entries s.shared.file = registered entries file ++ s.shared.authors.map hashOf ∧
      (registered entries s.shared.file).Nodup ∧ s.shared.authors.Nodup ∧
      ((∀ accepted applied status, api accepted applied status = true →
          success status = true → applied = true) →
        ∀ r q, s.proc r = .exited 0 → s.proc q = .exited 0 → hashOf r = hashOf q → r = q) := by
  have hinv : Holds (Recorded entries hashOf (registered entries file))
      (RegistersNext entries hashOf sha) s := by
    have hstart : Holds (Recorded entries hashOf (registered entries file))
        (RegistersNext entries hashOf sha) (start file) :=
      ⟨⟨(List.append_nil _).symm, hfirst⟩, fun _ => trivial⟩
    exact exec_invariant
      (fun _ a _ h hs => (sound_manifest hmanifest hapi hinj hne _).step a h hs) hstart hrun
  obtain ⟨hentries, hnodup⟩ := hinv.1
  have hhashes : (s.shared.authors.map hashOf).Nodup := by
    rw [hentries] at hnodup
    exact (List.nodup_append.mp hnodup).2.1
  refine ⟨hentries, hnodup, List.Nodup.of_map hashOf hhashes, fun hhonest r q hr hq hsame => ?_⟩
  -- an exit 0 behind an honest server comes from an applied content
  have hexit : Holds (fun _ => True) ChangedBeforeExit s := by
    have hstart : Holds (fun _ => True) ChangedBeforeExit (start file) :=
      ⟨trivial, fun _ => trivial⟩
    exact exec_invariant (fun _ a _ h hs => (sound_exit hhonest).step a h hs) hstart hrun
  have hchanged : ∀ r, s.proc r = .exited 0 → r ∈ s.shared.authors := by
    intro r hr
    have hok := hexit.2 r
    rw [hr] at hok
    exact hok rfl
  exact List.inj_on_of_nodup_map hhashes (hchanged r hr) (hchanged q hq) hsame

/-! ### A manifest of words -/

/-- The hashes, each with a blank behind it. -/
def words (content : Text) : List Text := Delimited.lines (asciiByte ' ') content

/-- Adds a word, unless it is there already. -/
def addWord (hash old : Text) : Option Text :=
  let new := old ++ (hash ++ [asciiByte ' '])
  if Delimited.lastLine (asciiByte ' ') old = [] ∧ hash.all (· ≠ asciiByte ' ') ∧
      commandSubst new = new ∧ (words old).all (· ≠ hash) then some new else none

/-- Adding a word registers it. -/
theorem registers_addWord : Registers words addWord := by
  intro hash old output h
  simp only [addWord, Option.ite_none_right_eq_some, Option.some.injEq] at h
  obtain ⟨⟨hclosed, hall, hsubst, hnew⟩, rfl⟩ := h
  rw [List.all_eq_true] at hall hnew
  have hblank : asciiByte ' ' ∉ hash := fun hmem => absurd rfl (of_decide_eq_true (hall _ hmem))
  refine ⟨fun hmem => absurd rfl (of_decide_eq_true (hnew _ hmem)), ?_⟩
  rw [hsubst, words, Delimited.lines_append_of_closed hclosed, Delimited.lines_append_sep hblank]
  rfl

/-- The first answer of the first submission gets lost, so it tries again and is rejected; the
second one submits another hash. -/
def lostAnswer : List (Nat × Act) :=
  [(0, .get), (1, .get), (0, .put true 502), (1, .put false 409), (0, .get), (1, .get),
   (1, .put true 200)]

/-- Also where an answer is lost. -/
theorem registered_once_lostAnswer : ∃ s,
    exec (step unreliable (fun r => addWord (ascii (if r = 0 then "a" else "b"))) tagged)
        (start none) lostAnswer = some s ∧
      registered words s.shared.file =
        registered words none ++ s.shared.authors.map fun r => ascii (if r = 0 then "a" else "b") := by
  have hview : (exec (step unreliable (fun r => addWord (ascii (if r = 0 then "a" else "b"))) tagged)
      (start none) lostAnswer).isSome = true := by decide
  obtain ⟨s, hrun⟩ := Option.isSome_iff_exists.mp hview
  refine ⟨s, hrun, (registered_once words addWord registers_addWord
    (fun r => ascii (if r = 0 then "a" else "b")) tagged (fun _ _ h => (List.cons.inj h).2)
    (fun content => List.cons_ne_nil sharp content) unreliable ?_ none (by decide) lostAnswer s
    hrun).1⟩
  intro accepted status h
  simpa [unreliable] using h

end Swayam.Cas
