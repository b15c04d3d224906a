import Mathlib.Data.List.AList
import Swayam.Lib.Base64
import Swayam.Lib.Interleaving
import Swayam.Cas.Definitions
import Swayam.Core.Peers
import Swayam.HashLoops

/-!
# SWAYAM — the hive

Nodes that never talk to each other: every node has a quarantine log, exports it
to `/tmp`, and `hive_sync.sh` moves the exports through a directory of a GitHub
repository. One run of the script downloads the exports of all nodes, puts them
into `/tmp` as `peer_*.csv`, where `merge_all_peer_files` finds them, and uploads
the export of its own node.

A node does all this in any order, and the requests of different nodes interleave.
What a node does between two requests no other node can see, so one action is one
request, one file copied, or one call on the log.

Taken as given: the registry answers a GET with the file or a version of it that a
cache still has, and a PUT takes effect only with the current sha; a download may be
cut short, and whether a PUT takes effect is up to the environment. On a node, one
process works at a time.
-/

namespace Swayam.Hive

/-! ## Files -/

/-- A directory: its files by name, and what they hold. -/
abbrev Dir := AList fun _ : Text => Text

/-- The registry directory of the repository: the versions of each file, the newest first;
there are none of a file that does not exist. -/
abbrev Registry := Text → List Text

/-- The name that a node exports its log to: `/tmp/node_export_<node_id>.csv`. -/
def exportName (nodeId : Text) : Text := ascii "node_export_" ++ nodeId ++ ascii ".csv"

/-- `/tmp/peer_$base_name` -/
def peerName (baseName : Text) : Text := ascii "peer_" ++ baseName

/-- `.endswith(".csv")` -/
def endsInCsv (name : Text) : Bool := (ascii ".csv").isSuffixOf name

/-- `*.csv`, which names no hidden file. -/
def matchesCsv (name : Text) : Bool := endsInCsv name && !decide (name.head? = some (asciiByte '.'))

/-- `node_export_node-*.csv` -/
def matchesExport (name : Text) : Bool :=
  (ascii "node_export_node-").isPrefixOf name &&
    endsInCsv (name.drop (ascii "node_export_node-").length)

/-! ## Base64 -/

/-- The alphabet of `base64`. -/
def standard : Base64.Alphabet where
  digits := ascii "ABCDEFGHIJKLMNOPQRSTUVWXYZabcdefghijklmnopqrstuvwxyz0123456789+/"
  length := rfl
  nodup := by decide
  noPad := by decide

/-! ## Nodes -/

/-- Where a run of `hive_sync.sh` stands. -/
inductive SyncPc
  | idle
  | fetching (names : List Text)                       -- the items that are left
  | copying (names : List Text)                        -- the `*.csv` that are left
  | pushing                                            -- the peers are in `/tmp`
  | encoded (name contentB64 : Text)                   -- `CONTENT_B64`
  | putting (name contentB64 requestSha : Text)        -- `SHA`
  deriving DecidableEq, Repr

structure Node where
  files : LogFiles       -- the quarantine log
  tmp   : Dir            -- `/tmp`
  peers : Dir            -- `/tmp/swayam_hive/peers`
  sync  : SyncPc

/-- The text of the log. -/
def Node.log (n : Node) : Text := n.files.log.getD []

/-- How a download goes: the file as it is, a version that a cache still has, a file cut
short, for which `urlretrieve` raises, or none at all. -/
inductive Fetch
  | whole
  | stale (version : Nat)
  | short (version cut : Nat)
  | fails
  deriving DecidableEq, Repr

/-- What a node does next, with what the environment makes of it. -/
inductive Act
  | append (io : AppendIO) (hash : UInt64) (signalNum now : Int) (sourceLabel : Text)
  | merge (policy : PeerImportPolicy) (entries : List PeerFile)
  | exportLog (outOpens : Bool)
  | list (names : Option (List Text))     -- the files of the answer; `none` without any record
  | fetch (name : Text) (outcome : Fetch)
  | copy (name : Text) (target : Option TmpWrite)
  | encode (name : Text)                  -- `LOCAL_EXPORT_MATCH`
  | noExport
  | getSha (answered : Bool)
  | put (applied : Bool)

/-- The `cp` loop, from the files that are left on. -/
def copyingOf (names : List Text) : SyncPc := if names = [] then .pushing else .copying names

/-- The download loop, from the items that are left on. -/
def fetchingOf (names : List Text) (peers : Dir) : SyncPc :=
  if names = [] then copyingOf (peers.keys.filter matchesCsv) else .fetching names

/-- The entries of a scan are files of `/tmp`, each once; one that does not open has no
content. -/
def scans (tmp : Dir) (entries : List PeerFile) : Bool :=
  decide (entries.map PeerFile.name).Nodup &&
    entries.all fun e => e.name ∈ tmp && (e.content = none || e.content = tmp.lookup e.name)

/-- `export_node_signatures` to the export of the node. -/
def exportTo (name : Text) (outOpens : Bool) (log : Option Text) (tmp : Dir) : Dir :=
  match exportNodeSignatures outOpens log (tmp.lookup name) with
  | some content => tmp.insert name content
  | none => tmp

/-- `urlretrieve`, and the loop behind it: an exception ends it. -/
def Node.fetched (n : Node) (versions : List Text) (name : Text) (rest : List Text) :
    Fetch → Option Node
  | .whole => versions.head?.map fun c =>
    let peers := n.peers.insert name c
    { n with peers := peers, sync := fetchingOf rest peers }
  | .stale v => versions[v]?.map fun c =>
    let peers := n.peers.insert name c
    { n with peers := peers, sync := fetchingOf rest peers }
  | .short v cut => versions[v]?.map fun c =>
    let peers := n.peers.insert name (c.take cut)
    { n with peers := peers, sync := fetchingOf [] peers }
  | .fails => some { n with sync := fetchingOf [] n.peers }

/-- `cp "$f" "/tmp/peer_$base_name"`, when the target opens -/
def copied (name content : Text) (target : Option TmpWrite) (tmp : Dir) : Dir :=
  match target with
  | some write => tmp.insert (peerName name) (write.bytes content)
  | none => tmp

/-- A PUT that takes effect: the content of the request is the new version. -/
def uploaded (registry : Registry) (name contentB64 : Text) : Registry :=
  match Base64.decode standard contentB64 with
  | some content => Function.update registry name (content :: registry name)
  | none => registry

variable {ι : Type}

/-- One step of a node. The ids are those that the nodes derive. -/
def move (nodeId : ι → Text) (sha : Text → Text) (registry : Registry) (i : ι) (n : Node) :
    Act → Option (Registry × Node)
  | .append io hash signalNum now sourceLabel =>
    some (registry,
      { n with files := atomicQuarantineAppend io hash signalNum now sourceLabel n.files })
  | .merge policy entries =>
    if scans n.tmp entries then
      some (registry, { n with files := (mergeAllPeerFiles policy n.files entries).files })
    else none
  | .exportLog outOpens =>
    some (registry,
      { n with tmp := exportTo (exportName (nodeId i)) outOpens n.files.log n.tmp })
  | .list names =>
    if n.sync = .idle then
      match names with
      | none => some (registry, { n with sync := .pushing })
      | some names =>
        if names.all fun name => endsInCsv name && !(registry name).isEmpty then
          some (registry, { n with sync := fetchingOf names n.peers })
        else none
    else none
  | .fetch name outcome =>
    match n.sync with
    | .fetching (next :: rest) =>
      if name = next then
        (n.fetched (registry name) name rest outcome).map fun n => (registry, n)
      else none
    | _ => none
  | .copy name target =>
    match n.sync with
    | .copying (next :: rest) =>
      if name = next then
        -- the files of the glob are there
        (n.peers.lookup name).map fun content =>
          (registry, { n with tmp := copied name content target n.tmp, sync := copyingOf rest })
      else none
    | _ => none
  | .encode name =>
    if n.sync = .pushing && matchesExport name then
      (n.tmp.lookup name).map fun content =>
        (registry, { n with sync := .encoded name (Base64.encode standard content) })
    else none
  | .noExport =>
    if n.sync = .pushing && !n.tmp.keys.any matchesExport then
      some (registry, { n with sync := .idle })
    else none
  | .getSha answered =>
    match n.sync with
    | .encoded name contentB64 =>
      let current := if answered then (registry name).head? else none
      some (registry, { n with sync := .putting name contentB64 (Cas.shaOf sha current) })
    | _ => none
  | .put applied =>
    match n.sync with
    | .putting name contentB64 requestSha =>
      -- the answer is not looked at
      if applied then
        if Cas.accepts sha (registry name).head? requestSha then
          some (uploaded registry name contentB64, { n with sync := .idle })
        else none
      else some (registry, { n with sync := .idle })
    | _ => none

abbrev Sys (ι : Type) := Interleaving.Config Registry ι Node

def step [DecidableEq ι] (nodeId : ι → Text) (sha : Text → Text) :
    Sys ι → ι × Act → Option (Sys ι) :=
  Interleaving.step (move nodeId sha)

/-- A node on which nothing has happened yet. -/
def Node.fresh : Node := ⟨{ log := none }, ∅, ∅, .idle⟩

/-- Fresh nodes, and what the registry holds already. -/
def start (registry : Registry) : Sys ι := ⟨registry, fun _ => .fresh⟩

end Swayam.Hive
