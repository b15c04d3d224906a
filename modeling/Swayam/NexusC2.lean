import Mathlib.Data.List.TakeWhile
import Swayam.Analyzer.Threats
import Swayam.Lib.Transfer
import Swayam.Pipeline.Supervisor

/-!
# SWAYAM — `NexusC2`

The telemetry of a cycle is one line: its mutation and what became of it. It goes
out on a connection of its own, behind a key of one byte that it is encrypted with,
in as many parts as the socket takes; nothing is repeated on another connection.
What the socket has taken is taken to arrive, in its order.

* `decryptPayload_encryptPayload` — the key in front decrypts what follows it;
* `readPing_of_ne` — a connection that breaks off early delivers no ping;
* `cycle_ping` — so what is read from the connection of a cycle is its mutation and its
  status, or nothing, and the former exactly when the socket has taken everything.
-/

namespace Swayam.NexusC2

open Transfer

/-! ## `encrypt_payload` -/

/-- The key that the bytes of the mutation's name are folded into. -/
def dynamicKey (mutationId : Text) : Byte :=
  let dynamicKey := mutationId.foldl (fun key c => key ^^^ (c + 7)) 0
  if dynamicKey = 0 ∨ dynamicKey = newline then 0x5A else dynamicKey

def encryptPayload (data mutationId : Text) : Text :=
  dynamicKey mutationId :: data.map (· ^^^ dynamicKey mutationId)

/-- What the other side does: it extracts the key, and decrypts. -/
def decryptPayload : Text → Text
  | [] => []
  | dynamicKey :: body => body.map (· ^^^ dynamicKey)

theorem xor_cancel (b key : Byte) : b ^^^ key ^^^ key = b := by
  rw [UInt8.xor_assoc, UInt8.xor_self, UInt8.xor_zero]

/-- **The key in front decrypts what follows it.** -/
theorem decryptPayload_encryptPayload (data mutationId : Text) :
    decryptPayload (encryptPayload data mutationId) = data := by
  rw [encryptPayload, decryptPayload, List.map_map]
  have hcancel : ((· ^^^ dynamicKey mutationId) ∘ (· ^^^ dynamicKey mutationId)) = id := by
    funext b
    exact xor_cancel b _
  rw [hcancel, List.map_id]

/-- What arrives of an encrypted text decrypts to the front of it. -/
theorem decryptPayload_front {bytes data mutationId : Text}
    (h : bytes <+: encryptPayload data mutationId) : decryptPayload bytes <+: data := by
  rcases List.prefix_cons_iff.mp h with rfl | ⟨body, rfl, hbody⟩
  · exact List.nil_prefix
  · have hmap := hbody.map (· ^^^ dynamicKey mutationId)
    rw [show (data.map (· ^^^ dynamicKey mutationId)).map (· ^^^ dynamicKey mutationId) = data from
      decryptPayload_encryptPayload data mutationId] at hmap
    exact hmap

/-- And to all of it only if everything arrives. -/
theorem eq_of_decryptPayload {bytes data mutationId : Text} (hdata : data ≠ [])
    (h : bytes <+: encryptPayload data mutationId) (heq : decryptPayload bytes = data) :
    bytes = encryptPayload data mutationId := by
  rcases List.prefix_cons_iff.mp h with rfl | ⟨body, rfl, hbody⟩
  · exact absurd heq.symm hdata
  · have hlength : body.length = data.length := by
      rw [← heq, decryptPayload, List.length_map]
    rw [encryptPayload, hbody.eq_of_length (by rw [hlength, List.length_map])]

/-! ## `transmit_telemetry` -/

/-- The system calls of a transmission: whether each of those in front of the loop goes well,
and what the `send`s of the loop answer. -/
structure SocketEnv where
  socket      : Bool
  nonBlocking : Bool           -- both `fcntl`s
  connects    : Bool           -- or is in progress
  writable    : Bool           -- before `select` times out
  noError     : Bool           -- `SO_ERROR`
  answers     : List Answer

def SocketEnv.connected (env : SocketEnv) : Bool :=
  env.socket && env.nonBlocking && env.connects && env.writable && env.noError

def rawPayload (mutationId status : Text) : Text :=
  ascii "[AGI-PING] ID: " ++ mutationId ++ ascii " | STATUS: " ++ status ++ [newline]

def maxRetries : Nat := 5

/-- `NexusC2::transmit_telemetry` -/
def transmitTelemetry (env : SocketEnv) (mutationId status : Text) : Outcome Byte :=
  if env.connected = false then ⟨[], 0, true⟩
  else transfer (encryptPayload (rawPayload mutationId status) mutationId) maxRetries env.answers

/-- What the server takes is a front part of the payload, -/
theorem transmitTelemetry_front (env : SocketEnv) (mutationId status : Text) :
    (transmitTelemetry env mutationId status).taken <+:
      encryptPayload (rawPayload mutationId status) mutationId := by
  unfold transmitTelemetry
  split
  · exact List.nil_prefix
  · exact taken_prefix _ _ _

/-- Everything goes out. -/
def SocketEnv.Delivers (env : SocketEnv) (mutationId status : Text) : Prop :=
  env.connected = true ∧
    TakesAll ((rawPayload mutationId status).length + 1) maxRetries env.answers

/-- and all of it exactly if the socket delivers. -/
theorem transmitTelemetry_eq_iff (env : SocketEnv) (mutationId status : Text) :
    (transmitTelemetry env mutationId status).taken =
        encryptPayload (rawPayload mutationId status) mutationId ↔
      env.Delivers mutationId status := by
  have hlength : (encryptPayload (rawPayload mutationId status) mutationId).length =
      (rawPayload mutationId status).length + 1 := by
    rw [encryptPayload, List.length_cons, List.length_map]
  unfold transmitTelemetry SocketEnv.Delivers
  split
  · rename_i hconnected
    rw [hconnected]
    exact iff_of_false (List.cons_ne_nil _ _).symm (by simp)
  · rename_i hconnected
    rw [taken_eq_iff (by decide), hlength, Bool.not_eq_false] at *
    rw [hconnected]
    simp

/-! ## What is read -/

/-- The reading of one connection: a whole line of this form, or nothing. -/
def readPing (bytes : Text) : Option (Text × Text) :=
  (afterLiteral "[AGI-PING] ID: " (decryptPayload bytes)).bind fun line =>
    let mutationId := line.takeWhile (· ≠ asciiByte ' ')
    (afterLiteral " | STATUS: " (line.drop mutationId.length)).bind fun rest =>
      if rest.contains newline then some (mutationId, rest.takeWhile (· ≠ newline)) else none

section Read

variable {mutationId status bytes : Text}

/-- A whole line is read back. -/
theorem readPing_encryptPayload (hid : asciiByte ' ' ∉ mutationId) (hstatus : newline ∉ status) :
    readPing (encryptPayload (rawPayload mutationId status) mutationId) =
      some (mutationId, status) := by
  have hline : afterLiteral "[AGI-PING] ID: " (rawPayload mutationId status) =
      some (mutationId ++ (ascii " | STATUS: " ++ (status ++ [newline]))) := by
    rw [afterLiteral_eq_some, rawPayload]
    simp only [List.append_assoc]
  -- the blank behind the mutation ends it
  have htake : (mutationId ++ (ascii " | STATUS: " ++ (status ++ [newline]))).takeWhile
      (· ≠ asciiByte ' ') = mutationId := by
    rw [List.takeWhile_append_of_pos]
    · exact List.append_nil _
    · intro b hb
      exact decide_eq_true fun heq => hid (heq ▸ hb)
  have hrest : afterLiteral " | STATUS: " (ascii " | STATUS: " ++ (status ++ [newline])) =
      some (status ++ [newline]) := afterLiteral_eq_some.mpr rfl
  have hstop : (status ++ [newline]).takeWhile (· ≠ newline) = status := by
    rw [List.takeWhile_append_of_pos]
    · exact List.append_nil _
    · intro b hb
      exact decide_eq_true fun heq => hstatus (heq ▸ hb)
  rw [readPing, decryptPayload_encryptPayload, hline, Option.bind_some]
  dsimp only
  rw [htake, List.drop_left, hrest, Option.bind_some, hstop]
  simp

/-- Without a newline nothing is read. -/
theorem readPing_eq_none (h : newline ∉ decryptPayload bytes) : readPing bytes = none := by
  rw [readPing, Option.bind_eq_none_iff]
  intro line hline
  rw [afterLiteral_eq_some] at hline
  dsimp only
  rw [Option.bind_eq_none_iff]
  intro rest hrest
  rw [afterLiteral_eq_some] at hrest
  have hmem : newline ∉ rest := by
    intro hmem
    have hdrop : newline ∈ line.drop (line.takeWhile (· ≠ asciiByte ' ')).length := by
      rw [hrest]
      exact List.mem_append_right _ hmem
    rw [hline] at h
    exact h (List.mem_append_right _ (List.mem_of_mem_drop hdrop))
  rw [if_neg (by simpa using hmem)]

/-- **A broken line is not read**, as its newline is missing. -/
theorem readPing_of_ne (hid : newline ∉ mutationId) (hstatus : newline ∉ status)
    (h : bytes <+: encryptPayload (rawPayload mutationId status) mutationId)
    (hne : bytes ≠ encryptPayload (rawPayload mutationId status) mutationId) :
    readPing bytes = none := by
  have hfront := decryptPayload_front h
  have hbroken : decryptPayload bytes ≠ rawPayload mutationId status := fun heq =>
    hne (eq_of_decryptPayload (by simp [rawPayload]) h heq)
  -- what is missing at least is the last byte
  have hline : decryptPayload bytes <+:
      ascii "[AGI-PING] ID: " ++ mutationId ++ ascii " | STATUS: " ++ status :=
    (List.prefix_concat_iff.mp hfront).resolve_left hbroken
  refine readPing_eq_none fun hmem => ?_
  have hmem' := hline.subset hmem
  simp only [List.mem_append] at hmem'
  rcases hmem' with ((hlit | hmutation) | hlit) | hstat
  · exact absurd hlit (by decide)
  · exact hid hmutation
  · exact absurd hlit (by decide)
  · exact hstatus hstat

end Read

/-! ## The telemetry of a cycle -/

/-- The status that `orchestrate_evolution` transmits, when it transmits one: of a rejection, or
behind the publication. -/
def statusOf (evolvedCode : Text) : Text :=
  if (evaluateMutation evolvedCode).isSafe then ascii "ASSIMILATED"
  else ascii "QUARANTINED_" ++ (evaluateMutation evolvedCode).threatSignature

/-- A threat's name is one line, -/
theorem newline_notMem_threatSignature (evolvedCode : Text) :
    newline ∉ (evaluateMutation evolvedCode).threatSignature := by
  unfold evaluateMutation
  split
  · decide
  · dsimp only
    split
    · decide
    · split
      · decide
      · split
        · rename_i threat hthreat
          have hmem := List.mem_of_find?_eq_some hthreat
          simp only [getThreatSignatures, List.mem_cons, List.not_mem_nil, or_false] at hmem
          rcases hmem with rfl | rfl | rfl | rfl <;> decide
        · split <;> decide

/-- so is a status, -/
theorem newline_notMem_statusOf (evolvedCode : Text) : newline ∉ statusOf evolvedCode := by
  unfold statusOf
  split
  · decide
  · rw [List.mem_append, not_or]
    exact ⟨by decide, newline_notMem_threatSignature evolvedCode⟩

/-- and an id is letters of its front and digits. -/
theorem notMem_mutationIdOf (stdHash : StdHash) (evolvedCode : Text) {b : Byte}
    (hletter : b ∉ ascii "EVO_") (hb : isDigit b = false) :
    b ∉ Pipeline.mutationIdOf stdHash evolvedCode := by
  rw [Pipeline.mutationIdOf, List.mem_append, not_or]
  exact ⟨hletter, notMem_decimal hb _⟩

/-- **What is read of a cycle.** Whatever becomes of the connection that a cycle opens, and in
whatever parts its line goes out: the bytes that arrive decrypt to the front of the line; what
is read of them is the mutation and its status, or nothing, and the former exactly when the
connection stands, no `send` fails and fewer than five would block before the last byte is taken;
and the loop is over after as many `send`s as there are bytes and retries. -/
theorem cycle_ping (stdHash : StdHash) (evolvedCode : Text) (env : SocketEnv) :
    let mutationId := Pipeline.mutationIdOf stdHash evolvedCode
    let sent := transmitTelemetry env mutationId (statusOf evolvedCode)
    decryptPayload sent.taken <+: rawPayload mutationId (statusOf evolvedCode) ∧
      (env.Delivers mutationId (statusOf evolvedCode) →
        readPing sent.taken = some (mutationId, statusOf evolvedCode)) ∧
      (¬ env.Delivers mutationId (statusOf evolvedCode) → readPing sent.taken = none) ∧
      sent.asked ≤ (rawPayload mutationId (statusOf evolvedCode)).length + 1 + maxRetries := by
  intro mutationId sent
  have hblank : asciiByte ' ' ∉ mutationId :=
    notMem_mutationIdOf stdHash evolvedCode (by decide) (by decide)
  have hid : newline ∉ mutationId :=
    notMem_mutationIdOf stdHash evolvedCode (by decide) (by decide)
  have hstatus := newline_notMem_statusOf evolvedCode
  have hfront := transmitTelemetry_front env mutationId (statusOf evolvedCode)
  have hwhole := transmitTelemetry_eq_iff env mutationId (statusOf evolvedCode)
  refine ⟨decryptPayload_front hfront, fun hdelivers => ?_, fun hbreaks => ?_, ?_⟩
  · rw [show sent.taken = _ from hwhole.mpr hdelivers]
    exact readPing_encryptPayload hblank hstatus
  · exact readPing_of_ne hid hstatus hfront fun heq => hbreaks (hwhole.mp heq)
  · show (transmitTelemetry env mutationId (statusOf evolvedCode)).asked ≤ _
    unfold transmitTelemetry
    split
    · exact Nat.zero_le _
    · refine (asked_le _ _ _).trans ?_
      rw [encryptPayload, List.length_cons, List.length_map]

end Swayam.NexusC2
