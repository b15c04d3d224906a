import Mathlib.Logic.Function.Basic
import Swayam.Text

/-!
# SWAYAM — `SecureArtifact`

`write_securely` writes a nameless file and links it under the name it is to
have. Where the link fails with `EXDEV` or `ENOENT`, it creates the name and
copies the file into it, chunk by chunk.

* `copyLoop_spec` — the copy loop ends, with the whole file copied exactly when no
  read and no write of it fails;
* `writeSecurely_content` — what the call reports as written is there, whole;
* `allOrNothing_writeSecurely_iff` — and a call that reports a failure has left the directory alone,
  unless it failed behind the creation of the copy's name;
* `writeSecurely_taken` — a name that such a copy leaves behind can never be written;
* `writeSecurely_directory` — the call as the runner sees it.
-/

namespace Swayam

/-! ## The system calls -/

/-- The files of the vault, by their names. -/
abbrev Directory := Text → Option Text

/-- What `errno` says of a failed `linkat`. -/
inductive Errno
  | exdev
  | enoent
  | eexist
  | other (n : Nat)
  deriving DecidableEq, Repr

/-- One pass of the copy loop: the bytes that `read` and `write` are willing to move, `none`
for an error. -/
structure CopyStep where
  read  : Option Nat
  write : Option Nat
  deriving DecidableEq, Repr

/-- The results of the system calls of one `write_securely`. -/
structure ArtifactIO where
  dirOpens  : Bool
  tmpOpens  : Bool               -- `O_TMPFILE`
  write     : Option Nat         -- the bytes that reach the nameless file
  fsync     : Bool
  link      : Option Errno       -- why `linkat` fails, if it does
  destOpens : Bool               -- `O_CREAT | O_EXCL` on a name that is free
  lseek     : Bool
  copy      : Nat → CopyStep
  destFsync : Bool

/-- `linkat`, which never replaces a file. -/
def linkat (link : Option Errno) (filename content : Text) (dir : Directory) :
    Except Errno Directory :=
  match link with
  | some errno => .error errno
  | none =>
    if (dir filename).isSome then .error .eexist
    else .ok (Function.update dir filename (some content))

/-- What a `read` delivers of the rest: at least one byte when there is one, and at most a
buffer. -/
def chunk (n : Nat) (rest : Text) : Text := rest.take (max 1 (min n 4096))

/-! ## `write_securely` -/

/-- The copy loop from its pass `i` on, with the rest to read and what `dest_fd` holds. -/
def copyLoop (steps : Nat → CopyStep) : Nat → Nat → Text → Text → Text × Bool
  | 0, _, _, dest => (dest, false)
  | fuel + 1, i, rest, dest =>
    match (steps i).read with
    | none => (dest, false)
    | some n =>
      let buffer := chunk n rest
      if buffer = [] then (dest, true)
      else match (steps i).write with
        | none => (dest, false)
        | some m =>
          -- `bytes_written != bytes_read`
          if m < buffer.length then (dest ++ buffer.take m, false)
          else copyLoop steps fuel (i + 1) (rest.drop buffer.length) (dest ++ buffer)

/-- The fallback: a new file under the name, filled by the copy loop. -/
def copyFallback (io : ArtifactIO) (filename content : Text) (dir : Directory) :
    Bool × Directory :=
  if io.destOpens = false ∨ (dir filename).isSome = true then (false, dir)
  else if io.lseek = false then (false, Function.update dir filename (some []))
  else
    let copied := copyLoop io.copy (content.length + 1) 0 content []
    (copied.2 && io.destFsync, Function.update dir filename (some copied.1))

/-- `SecureArtifact::write_securely`: its result, and the directory afterwards. -/
def writeSecurely (io : ArtifactIO) (filename content : Text) (dir : Directory) :
    Bool × Directory :=
  if io.dirOpens = false then (false, dir)
  else if io.tmpOpens = false then (false, dir)
  else if io.write ≠ some content.length then (false, dir)
  else if io.fsync = false then (false, dir)
  else match linkat io.link filename content dir with
    | .ok linked => (true, linked)
    | .error errno =>
      -- the fallback across devices, taken on ENOENT as well
      if errno = .exdev ∨ errno = .enoent then copyFallback io filename content dir
      else (false, dir)

/-! ## The copy loop -/

/-- No call of the loop fails, from its pass `i` on, until the rest is copied. -/
inductive Copies (steps : Nat → CopyStep) : Nat → Text → Prop
  | eof {i n : Nat} : (steps i).read = some n → Copies steps i []
  | pass {i n m : Nat} {rest : Text} : (steps i).read = some n → rest ≠ [] →
      (steps i).write = some m → (chunk n rest).length ≤ m →
      Copies steps (i + 1) (rest.drop (chunk n rest).length) → Copies steps i rest

/-- A chunk is empty at the end only. -/
theorem chunk_eq_nil_iff {n : Nat} {rest : Text} : chunk n rest = [] ↔ rest = [] := by
  rw [chunk, List.take_eq_nil_iff]
  constructor
  · rintro (hzero | hnil)
    · omega
    · exact hnil
  · exact Or.inr

/-- A chunk and what it leaves are the rest. -/
theorem chunk_append_drop (n : Nat) (rest : Text) :
    chunk n rest ++ rest.drop (chunk n rest).length = rest :=
  List.prefix_iff_eq_append.mp (List.take_prefix _ rest)

/-- Every pass but the last leaves less to copy. -/
theorem length_drop_chunk_lt {n : Nat} {rest : Text} (hne : rest ≠ []) :
    (rest.drop (chunk n rest).length).length < rest.length := by
  have hpos : 0 < (chunk n rest).length :=
    List.length_pos_iff.mpr fun hnil => hne (chunk_eq_nil_iff.mp hnil)
  have hrest : 0 < rest.length := List.length_pos_iff.mpr hne
  rw [List.length_drop]
  omega

/-- Nothing left to copy: one last read. -/
theorem copies_nil_iff {steps : Nat → CopyStep} {i : Nat} :
    Copies steps i [] ↔ ∃ n, (steps i).read = some n := by
  constructor
  · intro h
    cases h with
    | eof hread => exact ⟨_, hread⟩
    | pass hread hne hwrite hfull hrest => exact absurd rfl hne
  · rintro ⟨n, hread⟩
    exact .eof hread

/-- A pass copies its chunk in full, and the passes behind it the rest. -/
theorem copies_pass_iff {steps : Nat → CopyStep} {i n m : Nat} {rest : Text} (hne : rest ≠ [])
    (hread : (steps i).read = some n) (hwrite : (steps i).write = some m) :
    Copies steps i rest ↔ (chunk n rest).length ≤ m ∧
      Copies steps (i + 1) (rest.drop (chunk n rest).length) := by
  constructor
  · intro h
    cases h with
    | eof hread' => exact absurd rfl hne
    | pass hread' hne' hwrite' hfull hrest =>
      obtain rfl := Option.some.inj (hread.symm.trans hread')
      obtain rfl := Option.some.inj (hwrite.symm.trans hwrite')
      exact ⟨hfull, hrest⟩
  · rintro ⟨hfull, hrest⟩
    exact .pass hread hne hwrite hfull hrest

/-- A failing call ends the copy. -/
theorem not_copies_of_none {steps : Nat → CopyStep} {i : Nat} {rest : Text}
    (h : (steps i).read = none ∨ (rest ≠ [] ∧ (steps i).write = none)) :
    ¬ Copies steps i rest := by
  intro hcopies
  cases hcopies with
  | eof hread =>
    rcases h with hnone | ⟨hne, -⟩
    · exact absurd (hnone.symm.trans hread) (by simp)
    · exact hne rfl
  | pass hread hne hwrite hfull hrest =>
    rcases h with hnone | ⟨-, hnone⟩
    · exact absurd (hnone.symm.trans hread) (by simp)
    · exact absurd (hnone.symm.trans hwrite) (by simp)

/-- **The copy loop** ends with success exactly when none of its calls fails, and has then
copied the rest. -/
theorem copyLoop_spec (steps : Nat → CopyStep) (i : Nat) (dest : Text) {fuel : Nat} {rest : Text}
    (hfuel : rest.length < fuel) :
    ((copyLoop steps fuel i rest dest).2 = true ↔ Copies steps i rest) ∧
      ((copyLoop steps fuel i rest dest).2 = true →
        (copyLoop steps fuel i rest dest).1 = dest ++ rest) := by
  induction fuel generalizing i rest dest with
  | zero => omega
  | succ fuel ih =>
    rw [copyLoop]
    cases hread : (steps i).read with
    | none =>
      have hnot : ¬ Copies steps i rest := not_copies_of_none (Or.inl hread)
      exact ⟨iff_of_false (by simp) hnot, fun h => absurd h (by simp)⟩
    | some n =>
      dsimp only
      by_cases hnil : rest = []
      · -- the end of the file
        subst hnil
        rw [if_pos (chunk_eq_nil_iff.mpr rfl)]
        exact ⟨iff_of_true rfl (copies_nil_iff.mpr ⟨n, hread⟩), fun _ => (List.append_nil dest).symm⟩
      · rw [if_neg fun h => hnil (chunk_eq_nil_iff.mp h)]
        cases hwrite : (steps i).write with
        | none =>
          have hnot : ¬ Copies steps i rest := not_copies_of_none (Or.inr ⟨hnil, hwrite⟩)
          exact ⟨iff_of_false (by simp) hnot, fun h => absurd h (by simp)⟩
        | some m =>
          dsimp only
          rw [copies_pass_iff hnil hread hwrite]
          by_cases hshort : m < (chunk n rest).length
          · rw [if_pos hshort]
            exact ⟨iff_of_false (by simp) fun h => by omega, fun h => absurd h (by simp)⟩
          · rw [if_neg hshort]
            -- a pass of a full chunk: the rest of the loop has less to copy
            have hless : (rest.drop (chunk n rest).length).length < fuel := by
              have hlt : (rest.drop (chunk n rest).length).length < rest.length :=
                length_drop_chunk_lt hnil
              omega
            obtain ⟨hiff, hcopied⟩ := ih (i + 1) (dest ++ chunk n rest) hless
            constructor
            · rw [hiff]
              exact ⟨fun hrest => ⟨by omega, hrest⟩, And.right⟩
            · intro hdone
              rw [hcopied hdone, List.append_assoc, chunk_append_drop]

/-! ## What the call leaves -/

variable {io : ArtifactIO} {filename content : Text} {dir : Directory}

/-- The call creates the name for the copy. -/
structure ReachesCopy (io : ArtifactIO) (filename content : Text) (dir : Directory) : Prop where
  dirOpens : io.dirOpens = true
  tmpOpens : io.tmpOpens = true
  write    : io.write = some content.length
  fsync    : io.fsync = true
  link     : io.link = some .exdev ∨ io.link = some .enoent
  dest     : io.destOpens = true
  fresh    : dir filename = none

/-- No call behind the creation of the copy's name fails. -/
def CopySucceeds (io : ArtifactIO) (content : Text) : Prop :=
  io.lseek = true ∧ Copies io.copy 0 content ∧ io.destFsync = true

/-- The contract: success means that the file is there, whole, and failure that the directory is
what it was. -/
def ArtifactAllOrNothing (filename content : Text) (dir : Directory) (r : Bool × Directory) :
    Prop :=
  (r.1 = true → r.2 filename = some content) ∧ (r.1 = false → r.2 = dir)

/-- The temporary file is written. -/
def ArtifactIO.Written (io : ArtifactIO) (content : Text) : Prop :=
  io.dirOpens = true ∧ io.tmpOpens = true ∧ io.write = some content.length ∧ io.fsync = true

/-- The three ends of a call: the temporary file is not written whole, -/
theorem writeSecurely_of_not_written (h : ¬ io.Written content) :
    writeSecurely io filename content dir = (false, dir) := by
  unfold writeSecurely
  split
  · rfl
  · split
    · rfl
    · split
      · rfl
      · split
        · rfl
        · rename_i hdir htmp hwrite hfsync
          rw [Bool.not_eq_false] at hdir htmp hfsync
          rw [ne_eq, not_not] at hwrite
          exact absurd ⟨hdir, htmp, hwrite, hfsync⟩ h

/-- it is linked, -/
theorem writeSecurely_of_linked {linked : Directory} (h : io.Written content)
    (hlink : linkat io.link filename content dir = .ok linked) :
    writeSecurely io filename content dir = (true, linked) := by
  obtain ⟨hdir, htmp, hwrite, hfsync⟩ := h
  unfold writeSecurely
  rw [hdir, htmp, hwrite, hfsync, hlink]
  simp

/-- or the link is refused and the fallback is asked. -/
theorem writeSecurely_of_not_linked {errno : Errno} (h : io.Written content)
    (hlink : linkat io.link filename content dir = .error errno) :
    writeSecurely io filename content dir =
      if errno = .exdev ∨ errno = .enoent then copyFallback io filename content dir
      else (false, dir) := by
  obtain ⟨hdir, htmp, hwrite, hfsync⟩ := h
  unfold writeSecurely
  rw [hdir, htmp, hwrite, hfsync, hlink]
  simp

/-- The fallback does nothing to a name that it cannot create. -/
theorem copyFallback_of_not_created (h : ¬ (io.destOpens = true ∧ dir filename = none)) :
    copyFallback io filename content dir = (false, dir) := by
  rw [copyFallback, if_pos]
  rw [not_and_or, Bool.not_eq_true, ← ne_eq, Option.ne_none_iff_isSome] at h
  exact h

/-- The results of a call: nothing; the whole file; or what the fallback makes of a new name. -/
theorem writeSecurely_cases (io : ArtifactIO) (filename content : Text) (dir : Directory) :
    (¬ ReachesCopy io filename content dir ∧ writeSecurely io filename content dir = (false, dir)) ∨
    (¬ ReachesCopy io filename content dir ∧ dir filename = none ∧
      writeSecurely io filename content dir =
        (true, Function.update dir filename (some content))) ∨
    (ReachesCopy io filename content dir ∧
      writeSecurely io filename content dir = copyFallback io filename content dir) := by
  by_cases hwritten : io.Written content
  · -- the temporary file is there, and the link decides
    cases hlink : io.link with
    | none =>
      -- the link itself, on a free name or a taken one
      have hnot : ¬ ReachesCopy io filename content dir := by
        intro h
        rcases h.link with herr | herr
        · exact absurd (hlink.symm.trans herr) (by simp)
        · exact absurd (hlink.symm.trans herr) (by simp)
      cases hname : dir filename with
      | none =>
        refine Or.inr (Or.inl ⟨hnot, rfl, writeSecurely_of_linked hwritten ?_⟩)
        simp [linkat, hlink, hname]
      | some old =>
        have htaken : linkat io.link filename content dir = .error .eexist := by
          simp [linkat, hlink, hname]
        refine Or.inl ⟨hnot, ?_⟩
        rw [writeSecurely_of_not_linked hwritten htaken]
        rfl
    | some errno =>
      have herrno : linkat io.link filename content dir = .error errno := by
        rw [hlink]
        rfl
      rw [writeSecurely_of_not_linked hwritten herrno]
      by_cases hcross : errno = .exdev ∨ errno = .enoent
      · -- the fallback, which may fail to create the name
        rw [if_pos hcross]
        by_cases hdest : io.destOpens = true ∧ dir filename = none
        · obtain ⟨hdir, htmp, hwrite, hfsync⟩ := hwritten
          refine Or.inr (Or.inr ⟨⟨hdir, htmp, hwrite, hfsync, ?_, hdest.1, hdest.2⟩, rfl⟩)
          rcases hcross with rfl | rfl
          · exact Or.inl hlink
          · exact Or.inr hlink
        · exact Or.inl ⟨fun h => hdest ⟨h.dest, h.fresh⟩, copyFallback_of_not_created hdest⟩
      · rw [if_neg hcross]
        refine Or.inl ⟨fun h => hcross ?_, rfl⟩
        rcases h.link with herr | herr
        · exact Or.inl (Option.some.inj (hlink.symm.trans herr))
        · exact Or.inr (Option.some.inj (hlink.symm.trans herr))
  · refine Or.inl ⟨fun h => hwritten ?_, writeSecurely_of_not_written hwritten⟩
    exact ⟨h.dirOpens, h.tmpOpens, h.write, h.fsync⟩

/-- The fallback under a new name: the whole file, or a part of it and a failure. -/
theorem copyFallback_cases (h : ReachesCopy io filename content dir) :
    (CopySucceeds io content ∧ copyFallback io filename content dir =
      (true, Function.update dir filename (some content))) ∨
    (¬ CopySucceeds io content ∧ ∃ left, copyFallback io filename content dir =
      (false, Function.update dir filename (some left))) := by
  obtain ⟨hiff, hcopied⟩ := copyLoop_spec io.copy 0 [] (Nat.lt_succ_self content.length)
  have hcreated : ¬ (io.destOpens = false ∨ (dir filename).isSome = true) := by
    rw [h.dest, h.fresh]
    simp
  rw [copyFallback, if_neg hcreated]
  by_cases hseek : io.lseek = false
  · rw [if_pos hseek]
    exact Or.inr ⟨fun hok => absurd (hok.1.symm.trans hseek) (by simp), [], rfl⟩
  · rw [if_neg hseek]
    dsimp only
    by_cases hok : CopySucceeds io content
    · obtain ⟨-, hcopies, hsync⟩ := hok
      have hdone := hiff.mpr hcopies
      refine Or.inl ⟨⟨by simpa using hseek, hcopies, hsync⟩, ?_⟩
      rw [hdone, hsync, hcopied hdone]
      rfl
    · refine Or.inr ⟨hok, _, Prod.ext_iff.mpr ⟨?_, rfl⟩⟩
      -- one of the two results is a failure
      rw [Bool.and_eq_false_iff]
      by_contra hboth
      rw [not_or, Bool.not_eq_false, Bool.not_eq_false] at hboth
      exact hok ⟨by simpa using hseek, hiff.mp hboth.1, hboth.2⟩

/-- **What is reported as written is there, whole.** -/
theorem writeSecurely_content (hok : (writeSecurely io filename content dir).1 = true) :
    (writeSecurely io filename content dir).2 filename = some content := by
  rcases writeSecurely_cases io filename content dir with ⟨-, hr⟩ | ⟨-, -, hr⟩ | ⟨hreach, hr⟩
  · rw [hr] at hok
    exact absurd hok (by simp)
  · rw [hr]
    exact Function.update_self ..
  · rcases copyFallback_cases hreach with ⟨-, hcopy⟩ | ⟨-, left, hcopy⟩
    · rw [hr, hcopy]
      exact Function.update_self ..
    · rw [hr, hcopy] at hok
      exact absurd hok (by simp)

/-- No other name is touched. -/
theorem writeSecurely_of_ne {name : Text} (hne : name ≠ filename) :
    (writeSecurely io filename content dir).2 name = dir name := by
  rcases writeSecurely_cases io filename content dir with ⟨-, hr⟩ | ⟨-, -, hr⟩ | ⟨hreach, hr⟩
  · rw [hr]
  · rw [hr]
    exact Function.update_of_ne hne ..
  · rcases copyFallback_cases hreach with ⟨-, hcopy⟩ | ⟨-, left, hcopy⟩
    · rw [hr, hcopy]
      exact Function.update_of_ne hne ..
    · rw [hr, hcopy]
      exact Function.update_of_ne hne ..

/-- The directory after the call, in the terms of the runner: the source under its name when it
was written, and what the failed call left there when it was not. -/
theorem writeSecurely_directory (io : ArtifactIO) (filename content : Text) (dir : Directory) :
    (writeSecurely io filename content dir).2 = Function.update dir filename
      (if (writeSecurely io filename content dir).1 then some content
       else (writeSecurely io filename content dir).2 filename) := by
  funext name
  rcases eq_or_ne name filename with rfl | hne
  · rw [Function.update_self]
    split
    · rename_i hok
      exact writeSecurely_content hok
    · rfl
  · rw [Function.update_of_ne hne, writeSecurely_of_ne hne]

/-- **A taken name can never be written**, whatever the system calls do. -/
theorem writeSecurely_taken (htaken : (dir filename).isSome = true) :
    writeSecurely io filename content dir = (false, dir) := by
  rcases writeSecurely_cases io filename content dir with ⟨-, hr⟩ | ⟨-, hfresh, -⟩ | ⟨hreach, -⟩
  · exact hr
  · rw [hfresh] at htaken
    exact absurd htaken (by simp)
  · rw [hreach.fresh] at htaken
    exact absurd htaken (by simp)

/-- **All or nothing, unless the copy fails.** For every directory, name and content and all results
of the system calls: success means that the file is there, whole, and failure that the directory
is what it was, if and only if no call fails behind the creation of the copy's name. -/
theorem allOrNothing_writeSecurely_iff (io : ArtifactIO) (filename content : Text)
    (dir : Directory) :
    ArtifactAllOrNothing filename content dir (writeSecurely io filename content dir) ↔
      (ReachesCopy io filename content dir → CopySucceeds io content) := by
  constructor
  · intro hcontract hreach
    by_contra hfails
    obtain ⟨hok, -⟩ | ⟨-, left, hcopy⟩ := copyFallback_cases hreach
    · exact hfails hok
    · rcases writeSecurely_cases io filename content dir with ⟨hnot, -⟩ | ⟨hnot, -⟩ | ⟨-, hr⟩
      · exact hnot hreach
      · exact hnot hreach
      · -- the name is taken now, and was free before
        rw [hr, hcopy] at hcontract
        have hsame : Function.update dir filename (some left) = dir := hcontract.2 rfl
        have hname := congrFun hsame filename
        rw [Function.update_self, hreach.fresh] at hname
        exact absurd hname (by simp)
  · intro hcopies
    refine ⟨writeSecurely_content, fun hfailed => ?_⟩
    rcases writeSecurely_cases io filename content dir with ⟨-, hr⟩ | ⟨-, -, hr⟩ | ⟨hreach, hr⟩
    · rw [hr]
    · -- linked: not a failure
      rw [hr] at hfailed
      exact absurd hfailed (by simp)
    · rcases copyFallback_cases hreach with ⟨-, hcopy⟩ | ⟨hnot, -⟩
      · -- nor is a whole copy
        rw [hr, hcopy] at hfailed
        exact absurd hfailed (by simp)
      · exact absurd (hcopies hreach) hnot

/-- The link fails with `EXDEV`, and the disk takes one byte of the copy. -/
def shortCopy : ArtifactIO :=
  ⟨true, true, some 2, true, some .exdev, true, true, fun _ => ⟨some 4096, some 1⟩, true⟩

/-- **A copy that is cut short stays**: the call reports a failure, and the name is there, with
half of the content. -/
theorem allOrNothing_fails_on_short_copy :
    writeSecurely shortCopy (ascii "mut_1.cpp") (ascii "ab") (fun _ => none) =
      (false, Function.update (fun _ => none) (ascii "mut_1.cpp") (some (ascii "a"))) ∧
    ¬ ArtifactAllOrNothing (ascii "mut_1.cpp") (ascii "ab") (fun _ => none)
      (writeSecurely shortCopy (ascii "mut_1.cpp") (ascii "ab") (fun _ => none)) := by
  have hrun : writeSecurely shortCopy (ascii "mut_1.cpp") (ascii "ab") (fun _ => none) =
      (false, Function.update (fun _ => none) (ascii "mut_1.cpp") (some (ascii "a"))) := rfl
  refine ⟨hrun, ?_⟩
  rw [hrun]
  intro h
  have hname : Function.update (fun _ => none) (ascii "mut_1.cpp") (some (ascii "a"))
      (ascii "mut_1.cpp") = none := congrFun (h.2 rfl) (ascii "mut_1.cpp")
  rw [Function.update_self] at hname
  exact absurd hname (by simp)

end Swayam
