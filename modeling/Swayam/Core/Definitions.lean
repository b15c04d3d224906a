import Swayam.Text

/-!
# SWAYAM — the quarantine log

Translation of the log functions of `core.hpp` and of the peer import of
`NodeRegistry.hpp`, as functions on the bytes of the files they touch. The
log is a text file:

    #SWAYAM-QUARANTINE-V2
    hash,signal,timestamp,source_label

Every call that touches the outside world takes the outcome of its system
calls as an argument (`AppendIO`, `MigrateIO`, `MergeCall`); `clean` is the
outcome in which nothing fails. The same functions, cut into their steps,
make up the concurrent system of `Core/LogSystem.lean`.

Taken as given:

* a `rename` that succeeds replaces the name at once, and one that fails leaves both
  files as they were;
* a stream that fails while it reads or writes has moved a front part of the text,
  and says nothing, as its state is not looked at;
* numbers are printed and read back in decimal, as `std::to_string` does.
-/

namespace Swayam

open Delimited

/-! ## Hashing -/

/-- `FNV_OFFSET_BASIS` -/
def fnvOffsetBasis : UInt64 := 14695981039346656037

/-- `FNV_PRIME` -/
def fnvPrime : UInt64 := 1099511628211

/-- `structural_hash`: FNV-1a over the bytes of the content. -/
def structuralHash (content : Text) : UInt64 :=
  content.foldl (fun h c => (h ^^^ c.toUInt64) * fnvPrime) fnvOffsetBasis

/-- `std::to_string(hash)` -/
def hashText (hash : UInt64) : Text := decimal hash.toNat

/-! ## The log format -/

/-- `QUARANTINE_VERSION_HEADER` -/
def quarantineVersionHeader : Text := ascii "#SWAYAM-QUARANTINE-V2"

/-- The header as a line of the log. -/
def headerLine : Text := quarantineVersionHeader ++ [newline]

/-- The record that `atomic_quarantine_append` builds. -/
def quarantineEntry (hash : UInt64) (signalNum now : Int) (sourceLabel : Text) : Text :=
  hashText hash ++ comma :: (decimalInt signalNum ++ comma :: (decimalInt now ++
    comma :: (sourceLabel ++ [newline])))

/-- The hash field of a line, for the loops that skip empty lines, comments and
lines without a comma: `line.substr(0, line.find(','))`. -/
def hashField (line : Text) : Option Text :=
  if line = [] ∨ line.head? = some sharp then none
  else if comma ∈ line then some (line.takeWhile (· ≠ comma))
  else none

/-- The loop of `is_quarantined` over the lines of the log. -/
def findHash (hashStr : Text) : List Text → Bool
  | [] => false
  | line :: rest =>
    match hashField line with
    | none => findHash hashStr rest
    | some field => if field = hashStr then true else findHash hashStr rest

/-- What the loop of `is_quarantined` finds in the text of a log. -/
def isRecorded (log : Text) (hash : UInt64) : Bool :=
  findHash (hashText hash) (lines newline log)

/-- `is_quarantined` for a source with this content; an absent log has no line. -/
def isQuarantined (content : Text) (log : Option Text) : Bool :=
  isRecorded (log.getD []) (structuralHash content)

/-- The hash fields that `merge_peer_signatures_guarded` loads as `existing`. -/
def hashFields (log : Text) : List Text := keys newline hashField log

/-! ## `atomic_quarantine_append` -/

/-- `existing`, with the version header in front unless it begins with it. -/
def withHeader (existing : Text) : Text :=
  if existing = [] ∨
      existing.take quarantineVersionHeader.length ≠ quarantineVersionHeader then
    headerLine ++ existing
  else existing

/-- How reading the existing log goes: the stream does not open, delivers only
a part before the read fails, or delivers the whole file. -/
inductive LogRead
  | cannotOpen
  | part (n : Nat)
  | whole
  deriving DecidableEq, Repr

/-- How writing the temp file goes: cut short after `n` bytes, or complete. -/
inductive TmpWrite
  | cut (n : Nat)
  | complete
  deriving DecidableEq, Repr

/-- Outcomes of the system calls of one `atomic_quarantine_append`. -/
structure AppendIO where
  lock   : Bool      -- `CrossProcessGuard` opens and locks the lock file
  read   : LogRead
  tmp    : Bool      -- the temp file opens
  write  : TmpWrite
  fsync  : Bool      -- the temp file reopens and `fsync` succeeds
  rename : Bool
  deriving DecidableEq, Repr

def AppendIO.clean : AppendIO := ⟨true, .whole, true, .complete, true, true⟩

/-- The log, the temp file of the calling process and the legacy backup. -/
structure LogFiles where
  log    : Option Text
  tmp    : Option Text := none
  backup : Option Text := none
  deriving DecidableEq, Repr

/-- `existing`: what the stream delivers of the log. -/
def readExisting (read : LogRead) (log : Option Text) : Text :=
  match log, read with
  | some c, .whole => c
  | some c, .part n => c.take n
  | _, _ => []

/-- The bytes that reach the temp file. -/
def TmpWrite.bytes (write : TmpWrite) (t : Text) : Text :=
  match write with
  | .complete => t
  | .cut n => t.take n

/-- `atomic_quarantine_append`. Neither the state of the output stream after
`tmp << existing << entry` nor the result of `fsync` is looked at. -/
def atomicQuarantineAppend (io : AppendIO) (hash : UInt64) (signalNum now : Int)
    (sourceLabel : Text) (fs : LogFiles) : LogFiles :=
  if io.lock = false then
    -- the guard throws: `catch` unlinks the temp file
    { fs with tmp := none }
  else
    let existing := withHeader (readExisting io.read fs.log)
    let entry := quarantineEntry hash signalNum now sourceLabel
    if io.tmp = false then fs
    else
      let tmp := io.write.bytes (existing ++ entry)
      if io.rename then { fs with log := some tmp, tmp := none }
      else { fs with tmp := none }

/-- `quarantine`: the label is the path of the source. -/
def quarantine (io : AppendIO) (mutationSourcePath content : Text) (signalNum now : Int)
    (fs : LogFiles) : LogFiles :=
  atomicQuarantineAppend io (structuralHash content) signalNum now mutationSourcePath fs

/-- `quarantine_by_content` -/
def quarantineByContent (io : AppendIO) (content sourceLabel : Text) (signalNum now : Int)
    (fs : LogFiles) : LogFiles :=
  atomicQuarantineAppend io (structuralHash content) signalNum now
    (ascii "pre-quarantine:" ++ sourceLabel) fs

/-! ## `migrate_quarantine_if_needed` -/

/-- Outcomes of the system calls of one `migrate_quarantine_if_needed`. -/
structure MigrateIO where
  read   : Bool      -- an existing log opens for reading
  rename : Bool
  fresh  : Bool      -- the truncating stream opens
  deriving DecidableEq, Repr

def MigrateIO.clean : MigrateIO := ⟨true, true, true⟩

/-- What `std::getline` reads first: nothing of an empty file. -/
def firstLine (c : Text) : Text := (lines newline c).headD []

/-- A truncating stream that writes the header, when it opens. -/
def freshLog (opens : Bool) (fs : LogFiles) : LogFiles :=
  if opens then { fs with log := some headerLine } else fs

/-- `migrate_quarantine_if_needed` -/
def migrateQuarantineIfNeeded (io : MigrateIO) (fs : LogFiles) : LogFiles :=
  match fs.log, io.read with
  | some c, true =>
    if firstLine c = quarantineVersionHeader then fs
    else
      let moved := if io.rename then { fs with log := none, backup := some c } else fs
      freshLog io.fresh moved
  | _, _ => freshLog io.fresh fs

/-! ## `merge_peer_signatures_guarded` -/

/-- `PeerImportPolicy` -/
structure PeerImportPolicy where
  maxHashesPerFile     : Nat := 500
  maxImportsPerSession : Nat := 2000
  maxImportsPerPeer    : Nat := 300
  deriving DecidableEq, Repr

/-- The arguments of one call, the content of the peer file (`none` when it does
not open), whether the log opens for appending, and the clock. -/
structure MergeCall where
  peerCsvPath     : Text
  peerFile        : Option Text
  sessionImported : Nat
  policy          : PeerImportPolicy := {}
  outOpens        : Bool := true
  now             : Int
  deriving DecidableEq, Repr

/-- The lines to parse, when the session budget and the pre-count let the file
through. -/
def MergeCall.admitted (c : MergeCall) : Option (List Text) :=
  if c.policy.maxImportsPerSession ≤ c.sessionImported then none
  else match c.peerFile with
    | none => none
    | some content =>
      let ls := lines newline content
      if c.policy.maxHashesPerFile < ls.length then none else some ls

/-- The import loop: the hashes it writes, in order. `peer` and `session` are the
running counters; `[]` after a budget test is the `break`. -/
def importLoop (policy : PeerImportPolicy) (existing : List Text) (peer session : Nat) :
    List Text → List Text
  | [] => []
  | line :: rest =>
    match hashField line with
    | none => importLoop policy existing peer session rest
    | some hash =>
      -- `continue`: no hash, a hash that is too long, not digits, or known
      if hash = [] ∨ 20 < hash.length then importLoop policy existing peer session rest
      else if hash.all isDigit = false then importLoop policy existing peer session rest
      else if hash ∈ existing then importLoop policy existing peer session rest
      -- `break`: the budgets
      else if policy.maxImportsPerPeer ≤ peer then []
      else if policy.maxImportsPerSession ≤ session then []
      else hash :: importLoop policy (existing ++ [hash]) (peer + 1) (session + 1) rest

/-- The record that an imported hash is written as. -/
def peerEntry (now : Int) (peerCsvPath hash : Text) : Text :=
  hash ++ ascii ",0," ++ decimalInt now ++ ascii ",peer:" ++ peerCsvPath ++ [newline]

/-- The hashes that a call imports, given the text of the log it loads and the
lines it parses. -/
def MergeCall.imports (c : MergeCall) (log : Text) (ls : List Text) : List Text :=
  importLoop c.policy (hashFields log) 0 c.sessionImported ls

/-- The text that the imported hashes are written as. -/
def MergeCall.output (c : MergeCall) (hashes : List Text) : Text :=
  hashes.flatMap (peerEntry c.now c.peerCsvPath)

/-- `merge_peer_signatures_guarded`: the hashes imported (their number is the
return value) and the files afterwards. Opening for append creates the log. -/
def mergePeerSignaturesGuarded (c : MergeCall) (fs : LogFiles) : List Text × LogFiles :=
  match c.admitted with
  | none => ([], fs)
  | some ls =>
    let log := fs.log.getD []
    let hashes := c.imports log ls
    if c.outOpens = false then ([], fs)
    else (hashes, { fs with log := some (log ++ c.output hashes) })

end Swayam
