import Swayam.Lib.Observed
import Swayam.Pipeline.Branches

/-!
# SWAYAM — the token of a cycle

`orchestrate_evolution` takes `GITHUB_TOKEN` out of its environment before it compiles and
runs a mutation, and puts it back for git when the mutation has succeeded. Every process that
it starts gets the environment as it is then; nothing else in the cycle touches the environment,
and a child cannot reach that of the daemon.

* `guardedEvolution_refines` — the guard changes nothing else about a cycle;
* `launched_environ` — which environment each process of a cycle gets: the compiler and the
  mutation that of the daemon without the token, git the whole one.
-/

namespace Swayam.Pipeline

open Observed Stages

/-! ## The environment -/

/-- The environment variables. -/
abbrev Environ := Text → Option Text

/-- `GITHUB_TOKEN` -/
def githubToken : Text := ascii "GITHUB_TOKEN"

/-- A program that is started. -/
inductive Started
  | child (child : Child)
  | git (args : List Text)
  deriving DecidableEq, Repr

/-- A process, with the environment that it gets. -/
structure Launch where
  started : Started
  environ : Environ

/-- The environment of the daemon, and the processes that it has started. -/
structure Shell where
  environ  : Environ
  launches : List Launch

/-- The compilers and mutations that were forked on the way from one world to the other. -/
def forked (environ : Environ) (w w' : World) : List Launch :=
  (w'.forks.drop w.forks.length).map fun child => ⟨.child child, environ⟩

/-- The git commands that were run on the way. -/
def ranGit (environ : Environ) (w w' : World) : List Launch :=
  (w'.git.drop w.git.length).map fun args => ⟨.git args, environ⟩

/-- A process gets the environment of the daemon. -/
def launch (w w' : World) (shell : Shell) : Shell :=
  { shell with
    launches := shell.launches ++ (forked shell.environ w w' ++ ranGit shell.environ w w') }

/-- A part of the cycle, with what it launches. -/
def launching {α : Type} (x : M α) : EStateM Fault (World × Shell) α := lift launch x

/-! ## `SecureTokenGuard` -/

/-- The environment without the token. -/
def Environ.withheld (environ : Environ) : Environ := Function.update environ githubToken none

/-- The environment that `restore` leaves: an empty token is taken, but not put back. -/
def Environ.handedBack (setenv : Bool) (environ : Environ) : Environ :=
  if setenv = true ∧ environ githubToken ≠ some [] then environ else environ.withheld

/-- The constructor of `SecureTokenGuard`: `token_val`. -/
def takeToken (shell : Shell) : Text × Shell :=
  match shell.environ githubToken with
  | some token => (token, { shell with environ := shell.environ.withheld })
  | none => ([], shell)

/-- `SecureTokenGuard::restore`; `setenv` may fail, which is not looked at. -/
def restoreToken (setenv : Bool) (tokenVal : Text) (shell : Shell) : Unit × Shell :=
  if tokenVal ≠ [] ∧ setenv = true then
    ((), { shell with environ := Function.update shell.environ githubToken (some tokenVal) })
  else ((), shell)

/-- The cycle from the guard on. -/
def guardedRunner (stdHash : StdHash) (env : CycleEnv) (setenv : Bool) (evolvedCode : Text) :
    EStateM Fault (World × Shell) Unit := do
  let mutationId := mutationIdOf stdHash evolvedCode
  -- the guard's constructor
  let tokenVal ← onObserver takeToken
  if ← launching (evaluateAndExecute stdHash env.runner evolvedCode mutationId) then
    -- `restore`, before anything is pushed
    onObserver (restoreToken setenv tokenVal)
    launching (writeRationale env mutationId)
    if ← launching (publishEvolution env.git mutationId (targetFile mutationId)) then
      launching (assimilate stdHash env evolvedCode)
    else launching (env.writeStatus (ascii "quarantined") (ascii "git upload failed"))
  else launching (env.writeStatus (ascii "quarantined") (ascii "sandbox execution failed"))

/-- `Supervisor::orchestrate_evolution`, with its `SecureTokenGuard`. -/
def guardedEvolution (stdHash : StdHash) (env : CycleEnv) (setenv : Bool) :
    EStateM Fault (World × Shell) Unit := do
  let created ← call env.createVault
  if created = false then
    launching (env.writeStatus (ascii "quarantined") (ascii "vault creation failed"))
  else do
    let evolvedCode ← call env.forge
    call env.analyzer
    let analysis := evaluateMutation evolvedCode
    if analysis.isSafe = false then do
      call env.telemetry
      launching (env.writeStatus (ascii "quarantined") analysis.threatSignature)
    else do
      let opens ← call env.targetOpens
      if opens = false then
        launching (env.writeStatus (ascii "quarantined") (ascii "vault write failure"))
      else do
        launching (change fun w => { w with
          generated := Function.update w.generated (targetFile (mutationIdOf stdHash evolvedCode))
            (some (env.written evolvedCode)) })
        guardedRunner stdHash env setenv evolvedCode

/-! ## The cycle beneath -/

section Cycle

variable {stdHash : StdHash} {env : CycleEnv} {setenv : Bool}

/-- The guard changes nothing about the calls between which it stands. -/
theorem guardedRunner_refines (evolvedCode : Text) :
    Refines (guardedRunner stdHash env setenv evolvedCode) (do
      if ← evaluateAndExecute stdHash env.runner evolvedCode (mutationIdOf stdHash evolvedCode) then
        writeRationale env (mutationIdOf stdHash evolvedCode)
        if ← publishEvolution env.git (mutationIdOf stdHash evolvedCode)
            (targetFile (mutationIdOf stdHash evolvedCode)) then
          assimilate stdHash env evolvedCode
        else env.writeStatus (ascii "quarantined") (ascii "git upload failed")
      else env.writeStatus (ascii "quarantined") (ascii "sandbox execution failed")) := by
  refine refines_onObserver fun tokenVal => refines_bind (refines_lift _) fun success => ?_
  split
  · refine refines_onObserver fun _ => refines_bind (refines_lift _) fun _ => ?_
    refine refines_bind (refines_lift _) fun published => ?_
    split
    · exact refines_lift _
    · exact refines_lift _
  · exact refines_lift _

/-- **The guard changes nothing else**: without the environment, this is the cycle. -/
theorem guardedEvolution_refines (stdHash : StdHash) (env : CycleEnv) (setenv : Bool) :
    Refines (guardedEvolution stdHash env setenv) (orchestrateEvolution stdHash env) := by
  rw [orchestrateEvolution_eq]
  simp only [evaluateEvolution_eq]
  unfold guardedEvolution
  refine refines_call fun created => ?_
  split
  · exact refines_lift _
  · refine refines_call fun evolvedCode => refines_call fun _ => ?_
    dsimp only
    split
    · exact refines_call fun _ => refines_lift _
    · refine refines_call fun opens => ?_
      split
      · exact refines_lift _
      · exact refines_bind (refines_lift _) fun _ => guardedRunner_refines evolvedCode

end Cycle

/-! ## What is launched -/

/-- No child is forked, and git commands are only added. -/
def Gits (w w' : World) : Prop := w'.forks = w.forks ∧ w.git <+: w'.git

/-- What runs git only, run twice. -/
theorem gits_trans (a b c : World) (hab : Gits a b) (hbc : Gits b c) : Gits a c :=
  ⟨hbc.1.trans hab.1, List.IsPrefix.trans hab.2 hbc.2⟩

/-- To run nothing is to run git only. -/
theorem gits_of_sameGit {w w' : World} (hforks : w'.forks = w.forks) (hgit : SameGit w w') :
    Gits w w' := by
  refine ⟨hforks, ?_⟩
  rw [show w'.git = w.git from hgit]

/-- Nothing is forked on the way. -/
theorem forked_same {w w' : World} (h : w'.forks = w.forks) (environ : Environ) :
    forked environ w w' = [] := by
  rw [forked, h, List.drop_length, List.map_nil]

/-- And no git command is run. -/
theorem ranGit_same {w w' : World} (h : SameGit w w') (environ : Environ) :
    ranGit environ w w' = [] := by
  rw [ranGit, show w'.git = w.git from h, List.drop_length, List.map_nil]

/-- What is run first, and what is run then. -/
theorem ranGit_append {a b c : World} (hab : a.git <+: b.git) (hbc : b.git <+: c.git)
    (environ : Environ) : ranGit environ a c = ranGit environ a b ++ ranGit environ b c := by
  obtain ⟨first, hfirst⟩ := hab
  obtain ⟨second, hsecond⟩ := hbc
  unfold ranGit
  rw [← hsecond, ← hfirst]
  simp [List.append_assoc]

/-- A part of the cycle that launches git only, with the environment as it is. -/
def Logs {α : Type} (x : EStateM Fault (World × Shell) α) : Prop :=
  ∀ s, Gits s.1 (endState (x s)).1 ∧ (endState (x s)).2 =
    { s.2 with launches := s.2.launches ++ ranGit s.2.environ s.1 (endState (x s)).1 }

/-- What is started is put on record once, behind what was there. -/
theorem logs_launching {α : Type} {y : M α} (h : Within Gits y) : Logs (launching y) := by
  intro s
  have hgits := h s.1
  rw [launching, endState_lift]
  refine ⟨hgits, ?_⟩
  rw [launch, forked_same hgits.1, List.nil_append]

/-- And so for one part behind the other. -/
theorem logs_bind {α β : Type} {x : EStateM Fault (World × Shell) α}
    {k : α → EStateM Fault (World × Shell) β} (hx : Logs x) (hk : ∀ a, Logs (k a)) :
    Logs (x >>= k) := by
  intro s
  obtain ⟨hgits, hshell⟩ := hx s
  rw [bind_run]
  cases hrun : x s with
  | error e s₁ =>
    rw [hrun] at hgits hshell
    exact ⟨hgits, hshell⟩
  | ok a s₁ =>
    rw [hrun] at hgits hshell
    obtain ⟨hgits', hshell'⟩ := hk a s₁
    refine ⟨gits_trans _ _ _ hgits hgits', ?_⟩
    -- the second part goes on with what the first has launched
    have hlater : s₁.2 = { s.2 with
        launches := s.2.launches ++ ranGit s.2.environ s.1 s₁.1 } := hshell
    rw [hshell', hlater, ranGit_append hgits.2 hgits'.2, List.append_assoc]
    rfl

section Launches

variable {stdHash : StdHash} {env : CycleEnv} {setenv : Bool} {environ : Environ}
  {evolvedCode : Text}

theorem gits_writeStatus (outcome reason : Text) : Within Gits (env.writeStatus outcome reason) := by
  intro w
  refine gits_of_sameGit ?_ (sameGit_writeStatus env outcome reason w)
  rw [CycleEnv.writeStatus, endState_writeStatusFile]
  cases env.status.write <;> rfl

theorem gits_writeRationale (mutationId : Text) : Within Gits (writeRationale env mutationId) := by
  have hrefl : ∀ w, Gits w w := fun w => gits_of_sameGit rfl rfl
  refine within_call hrefl fun opens _ => ?_
  split
  · exact within_change fun w => gits_of_sameGit rfl rfl
  · exact within_pure hrefl ()

/-- A publication starts git only, -/
theorem gits_publishEvolution (mutationId filePath : Text) :
    Within Gits (publishEvolution env.git mutationId filePath) := by
  intro w
  obtain ⟨hend, -, -⟩ := publishEvolution_scripted env.git mutationId filePath w
  rw [hend]
  exact ⟨rfl, List.prefix_append _ _⟩

/-- and so does what comes behind it. -/
theorem gits_assimilate : Within Gits (assimilate stdHash env evolvedCode) := by
  have hrecord : IgnoresRecord NoFork := ⟨fun _ _ _ _ _ hforks => hforks, noFork_trans⟩
  intro w
  refine ⟨within_assimilate hrecord stdHash env evolvedCode w, ?_⟩
  rw [assimilate_git]
  exact List.prefix_append _ _

/-- From the publication on. -/
theorem logs_publishing : Logs (do
    launching (writeRationale env (mutationIdOf stdHash evolvedCode))
    if ← launching (publishEvolution env.git (mutationIdOf stdHash evolvedCode)
        (targetFile (mutationIdOf stdHash evolvedCode))) then
      launching (assimilate stdHash env evolvedCode)
    else launching (env.writeStatus (ascii "quarantined") (ascii "git upload failed"))) := by
  refine logs_bind (logs_launching (gits_writeRationale _)) fun _ => ?_
  refine logs_bind (logs_launching (gits_publishEvolution _ _)) fun published => ?_
  split
  · exact logs_launching gits_assimilate
  · exact logs_launching (gits_writeStatus _ _)

/-- Without a token there is nothing to take. -/
theorem withheld_eq_self (htoken : environ githubToken = none) : environ.withheld = environ := by
  rw [Environ.withheld, ← htoken, Function.update_eq_self]

/-- The guard takes the token out of the environment. -/
theorem takeToken_eq (environ : Environ) (launches : List Launch) :
    takeToken ⟨environ, launches⟩ =
      ((environ githubToken).getD [], ⟨environ.withheld, launches⟩) := by
  unfold takeToken
  dsimp only
  cases htoken : environ githubToken with
  | some token => rfl
  | none =>
    rw [withheld_eq_self htoken]
    rfl

/-- What the guard has taken, it puts back, unless it is empty. -/
theorem restoreToken_eq (setenv : Bool) (environ : Environ) (launches : List Launch) :
    restoreToken setenv ((environ githubToken).getD []) ⟨environ.withheld, launches⟩ =
      ((), ⟨environ.handedBack setenv, launches⟩) := by
  unfold restoreToken Environ.handedBack
  cases htoken : environ githubToken with
  | none =>
    rw [withheld_eq_self htoken]
    simp
  | some token =>
    by_cases hback : token ≠ [] ∧ setenv = true
    · have hput : Function.update environ.withheld githubToken (some token) = environ := by
        rw [Environ.withheld, Function.update_idem, ← htoken, Function.update_eq_self]
      rw [Option.getD_some, if_pos hback, if_pos ⟨hback.2, by simpa using hback.1⟩]
      dsimp only
      rw [hput]
    · rw [Option.getD_some, if_neg hback, if_neg]
      rintro ⟨hsetenv, htaken⟩
      exact hback ⟨by simpa using htaken, hsetenv⟩

/-- The children of a cycle got the environment without the token, and its git commands the one
that the guard has restored. -/
def Handed (setenv : Bool) (environ : Environ) (w : World) (s : World × Shell) : Prop :=
  s.2.launches = forked environ.withheld w s.1 ++ ranGit (environ.handedBack setenv) w s.1

/-- A part in which nothing is started. -/
theorem handed_of_still {α : Type} {y : M α} {w : World} (hforks : (endState (y w)).forks = w.forks)
    (hgit : SameGit w (endState (y w))) :
    Handed setenv environ w (endState (launching y (w, ⟨environ, []⟩))) := by
  rw [Handed, launching, endState_lift]
  show [] ++ (forked environ w _ ++ ranGit environ w _) = _
  rw [forked_same hforks, ranGit_same hgit, forked_same hforks, ranGit_same hgit]
  rfl

/-- An effect in which nothing is started. -/
theorem launching_change {f : World → World} {w : World} (hforks : (f w).forks = w.forks)
    (hgit : SameGit w (f w)) (shell : Shell) :
    launching (change f) (w, shell) = .ok () (f w, shell) := by
  show EStateM.Result.ok () (f w, launch w (f w) shell) = _
  rw [launch, forked_same hforks, ranGit_same hgit, List.append_nil, List.append_nil]

/-- Behind the runner only git is started, with the environment as it is then. -/
theorem launches_of_logs {x : EStateM Fault (World × Shell) Unit} (hx : Logs x)
    {w w₁ : World} (hgit : SameGit w w₁) (left : Environ) :
    (endState (x (w₁, ⟨left, forked environ w w₁⟩))).2.launches =
      forked environ w (endState (x (w₁, ⟨left, forked environ w w₁⟩))).1 ++
        ranGit left w (endState (x (w₁, ⟨left, forked environ w w₁⟩))).1 := by
  obtain ⟨⟨hforks, -⟩, hshell⟩ := hx (w₁, ⟨left, forked environ w w₁⟩)
  generalize endState (x (w₁, ⟨left, forked environ w w₁⟩)) = s at hforks hshell ⊢
  have hforks' : s.1.forks = w₁.forks := hforks
  rw [hshell]
  show forked environ w w₁ ++ ranGit left w₁ s.1 = _
  rw [forked, forked, ranGit, ranGit, hforks', show w₁.git = w.git from hgit]

/-- **From the guard on**: the runner, then git with the restored environment. -/
theorem guardedRunner_handed (w : World) :
    Handed setenv environ w
      (endState (guardedRunner stdHash env setenv evolvedCode (w, ⟨environ, []⟩))) := by
  have htaken : onObserver takeToken (w, ⟨environ, []⟩) = (EStateM.Result.ok
      ((environ githubToken).getD []) (w, ⟨environ.withheld, []⟩) :
        EStateM.Result Fault (World × Shell) Text) := by
    rw [onObserver, takeToken_eq]
  have hsame : Within SameGit (evaluateAndExecute stdHash env.runner evolvedCode
      (mutationIdOf stdHash evolvedCode)) := sameGit_evaluateAndExecute _ _ _
  have hgit := hsame w
  unfold guardedRunner
  rw [bind_run_ok htaken, bind_run, launching, lift]
  cases hrun : evaluateAndExecute stdHash env.runner evolvedCode
      (mutationIdOf stdHash evolvedCode) w with
  | error f w₁ =>
    rw [hrun] at hgit
    have hnone : ∀ e, ranGit e w w₁ = [] := ranGit_same hgit
    -- the children of the runner, and no command
    show [] ++ (forked environ.withheld w w₁ ++ ranGit _ w w₁) = forked _ w w₁ ++ ranGit _ w w₁
    rw [hnone, hnone, List.nil_append]
  | ok success w₁ =>
    rw [hrun] at hgit
    replace hgit : SameGit w w₁ := hgit
    have hnone : ∀ e, ranGit e w w₁ = [] := ranGit_same hgit
    have hlaunch : launch w w₁ ⟨environ.withheld, []⟩ =
        ⟨environ.withheld, forked environ.withheld w w₁⟩ := by
      rw [launch, hnone, List.append_nil, List.nil_append]
    dsimp only
    rw [hlaunch]
    cases success with
    | true =>
      have hrestored : onObserver (restoreToken setenv ((environ githubToken).getD []))
          (w₁, ⟨environ.withheld, forked environ.withheld w w₁⟩) = (EStateM.Result.ok ()
            (w₁, ⟨environ.handedBack setenv, forked environ.withheld w w₁⟩) :
              EStateM.Result Fault (World × Shell) Unit) := by
        rw [onObserver, restoreToken_eq]
      rw [if_pos rfl, bind_run_ok hrestored]
      exact launches_of_logs logs_publishing hgit (environ.handedBack setenv)
    | false =>
      rw [if_neg (by simp)]
      have hstatus : Within Gits (env.writeStatus (ascii "quarantined")
          (ascii "sandbox execution failed")) := gits_writeStatus _ _
      have hkept : SameGit w (endState (env.writeStatus (ascii "quarantined")
          (ascii "sandbox execution failed") w₁)) :=
        sameGit_trans _ _ _ hgit (sameGit_writeStatus env _ _ w₁)
      -- the token stays where it is, and no command gets to see that
      rw [Handed, launches_of_logs (logs_launching hstatus) hgit, launching, endState_lift]
      show _ ++ ranGit _ w _ = _ ++ ranGit _ w _
      rw [ranGit_same hkept, ranGit_same hkept]

/-- **Which environment each process of a cycle gets**: the compiler and the mutation that of the
daemon without the token, and git, behind a mutation that has succeeded, the whole one, unless the
token is empty or `setenv` fails. -/
theorem launched_environ (stdHash : StdHash) (env : CycleEnv) (setenv : Bool) (environ : Environ)
    (w : World) :
    (endState (guardedEvolution stdHash env setenv (w, ⟨environ, []⟩))).2.launches =
      forked environ.withheld w (endState (orchestrateEvolution stdHash env w)) ++
        ranGit (environ.handedBack setenv) w (endState (orchestrateEvolution stdHash env w)) := by
  have hhanded : Handed setenv environ w
      (endState (guardedEvolution stdHash env setenv (w, ⟨environ, []⟩))) := by
    -- a guard that fails before anything is launched
    have hnothing : Handed setenv environ w (w, ⟨environ, []⟩) := by
      rw [Handed, forked_same rfl, ranGit_same rfl]
      rfl
    -- and one whose refusal is only recorded
    have hstatus : ∀ reason, Handed setenv environ w (endState
        (launching (env.writeStatus (ascii "quarantined") reason) (w, ⟨environ, []⟩))) :=
      fun reason => handed_of_still (gits_writeStatus _ _ w).1 (sameGit_writeStatus env _ _ w)
    unfold guardedEvolution
    cases env.createVault with
    | error f => exact hnothing
    | ok created =>
      cases created with
      | false => exact hstatus _
      | true =>
        cases env.forge with
        | error f => exact hnothing
        | ok evolvedCode =>
          cases env.analyzer with
          | error f => exact hnothing
          | ok u =>
            show Handed setenv environ w (endState
              ((if (evaluateMutation evolvedCode).isSafe = false then _ else _ :
                EStateM Fault (World × Shell) Unit) (w, ⟨environ, []⟩)))
            by_cases hsafe : (evaluateMutation evolvedCode).isSafe = false
            · rw [if_pos hsafe]
              cases env.telemetry with
              | error f => exact hnothing
              | ok u => exact hstatus _
            · rw [if_neg hsafe]
              cases env.targetOpens with
              | error f => exact hnothing
              | ok opens =>
                cases opens with
                | false => exact hstatus _
                | true =>
                  -- the candidate is written, then the runner decides
                  have hwritten : launching (change (candidateWritten stdHash env evolvedCode))
                      (w, ⟨environ, []⟩) = .ok ()
                        (candidateWritten stdHash env evolvedCode w, ⟨environ, []⟩) :=
                    launching_change (f := candidateWritten stdHash env evolvedCode) rfl rfl _
                  have hrunner : Handed setenv environ w (endState
                      ((launching (change (candidateWritten stdHash env evolvedCode)) >>= fun _ =>
                        guardedRunner stdHash env setenv evolvedCode) (w, ⟨environ, []⟩))) := by
                    rw [bind_run_ok hwritten]
                    exact guardedRunner_handed (candidateWritten stdHash env evolvedCode w)
                  exact hrunner
  rw [hhanded, (guardedEvolution_refines stdHash env setenv).endState_fst]

end Launches

end Swayam.Pipeline
