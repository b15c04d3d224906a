import Swayam.Hive.Definitions
import Swayam.Lib.Json
import Swayam.Pipeline.StatusFile

/-!
# SWAYAM — `generate_app_jwt.sh`

The token with which the emergency halt revokes the publisher: three texts in the
digits of `base64url`, with dots between them. `jq` writes the claims and `openssl`
signs; both are parameters.

* `b64_eq` — what the pipe of `b64` prints is the unpadded encoding over the other
  alphabet;
* `readJwt_appJwt` — so a token is read back, part by part;
* `appJwt_accepted` — it is accepted from a minute before it is made to nine minutes
  after, and no two tokens are the same that differ in their time or their app.
-/

namespace Swayam.AppJwt

open Hive Json Utf8

/-! ## `b64` -/

/-- The alphabet of `base64url`. -/
def urlSafe : Base64.Alphabet where
  digits := ascii "ABCDEFGHIJKLMNOPQRSTUVWXYZabcdefghijklmnopqrstuvwxyz0123456789-_"
  length := rfl
  nodup := by decide
  noPad := by decide

/-- `tr '+/' '-_'` -/
def tr (b : Byte) : Byte :=
  if b = asciiByte '+' then asciiByte '-' else if b = asciiByte '/' then asciiByte '_' else b

/-- `openssl base64 -A | tr '+/' '-_' | tr -d '='` -/
def b64 (t : Text) : Text := ((Base64.encode standard t).map tr).filter (· ≠ asciiByte '=')

/-- **The pipe encodes without pads**, over the other alphabet. -/
theorem b64_eq (t : Text) : b64 t = Base64.encodeUnpadded urlSafe t := by
  have hdigits : (Base64.encodeUnpadded standard t).map tr = Base64.encodeUnpadded urlSafe t :=
    Base64.map_encodeUnpadded standard (by decide) t
  have hpads : ((Base64.padding t.length).map tr).filter (· ≠ asciiByte '=') = [] := by
    rw [Base64.padding, List.map_replicate, List.filter_replicate_of_neg (by decide)]
  have hnone : (Base64.encodeUnpadded urlSafe t).filter (· ≠ asciiByte '=') =
      Base64.encodeUnpadded urlSafe t := by
    rw [List.filter_eq_self]
    intro b hb
    refine decide_eq_true fun heq => ?_
    have hpad : b = Base64.pad := heq
    exact Base64.notMem_encodeUnpadded urlSafe urlSafe.noPad t (hpad ▸ hb)
  rw [b64, Base64.encode, List.map_append, List.filter_append, hpads, List.append_nil, hdigits, hnone]

/-! ## The token -/

def dot : Byte := asciiByte '.'

def header : Text := ascii "\x7b\"alg\":\"RS256\",\"typ\":\"JWT\"\x7d"

/-- What the script calls: `jq` with `iat`, `exp` and `iss`, and `openssl` with the key. -/
structure Tools where
  jq   : Int → Int → Text → Text
  sign : Text → Text

def payload (tools : Tools) (now : Int) (appId : Text) : Text :=
  tools.jq (now - 60) (now + 540) appId

def signingInput (tools : Tools) (now : Int) (appId : Text) : Text :=
  b64 header ++ dot :: b64 (payload tools now appId)

/-- What `generate_app_jwt.sh` prints. -/
def appJwt (tools : Tools) (now : Int) (appId : Text) : Text :=
  signingInput tools now appId ++ dot :: b64 (tools.sign (signingInput tools now appId))

/-! ## The other side -/

/-- The parts of a token, and what is signed of it. -/
structure Jwt where
  header    : Text
  payload   : Text
  signature : Text
  signed    : Text
  deriving DecidableEq, Repr

/-- A token is read at its two dots. -/
def readJwt (token : Text) : Option Jwt :=
  match token.splitOn dot with
  | [first, second, third] => do
    let header ← Base64.decodeUnpadded urlSafe first
    let payload ← Base64.decodeUnpadded urlSafe second
    let signature ← Base64.decodeUnpadded urlSafe third
    return ⟨header, payload, signature, first ++ dot :: second⟩
  | _ => none

/-- An encoded part holds no dot, -/
theorem dot_notMem_b64 (t : Text) : dot ∉ b64 t := by
  rw [b64_eq]
  exact Base64.notMem_encodeUnpadded urlSafe (by decide) t

/-- and is decoded again. -/
theorem decode_b64 (t : Text) : Base64.decodeUnpadded urlSafe (b64 t) = some t := by
  rw [b64_eq, Base64.decodeUnpadded_encodeUnpadded]

/-- **A token is read back.** -/
theorem readJwt_appJwt (tools : Tools) (now : Int) (appId : Text) :
    readJwt (appJwt tools now appId) =
      some ⟨header, payload tools now appId, tools.sign (signingInput tools now appId),
        signingInput tools now appId⟩ := by
  have hsplit : (List.intercalate [dot] [b64 header, b64 (payload tools now appId),
      b64 (tools.sign (signingInput tools now appId))]).splitOn dot =
        [b64 header, b64 (payload tools now appId),
          b64 (tools.sign (signingInput tools now appId))] := by
    refine List.splitOn_intercalate dot (fun part hpart => ?_) (by simp)
    simp only [List.mem_cons, List.not_mem_nil, or_false] at hpart
    rcases hpart with rfl | rfl | rfl <;> exact dot_notMem_b64 _
  have hjoined : appJwt tools now appId = List.intercalate [dot] [b64 header,
      b64 (payload tools now appId), b64 (tools.sign (signingInput tools now appId))] := by
    simp [appJwt, signingInput, List.intercalate]
  rw [← hjoined] at hsplit
  rw [readJwt, hsplit]
  dsimp only
  rw [decode_b64, decode_b64, decode_b64]
  rfl

/-! ## What it is accepted for -/

def iatKey : Text := ascii "iat"
def expKey : Text := ascii "exp"
def issKey : Text := ascii "iss"

/-- `{iat: $iat, exp: $exp, iss: $iss}` -/
def claims (iat exp : Int) (iss : Text) : Members :=
  .cons iatKey (.num (decimalInt iat)) <| .cons expKey (.num (decimalInt exp)) <|
    .cons issKey (.str iss) .nil

/-- For this time and this app `jq` writes the object, and the signature verifies. -/
structure Works (tools : Tools) (verify : Text → Text → Bool) (now : Int) (appId : Text) :
    Prop where
  jq     : Writes (payload tools now appId) (.obj (claims (now - 60) (now + 540) appId))
  verify : verify (signingInput tools now appId) (tools.sign (signingInput tools now appId)) = true

/-- The other side accepts a token of the app, by its clock: it is signed, and in time, and does
not live for more than ten minutes. -/
def Accepted (verify : Text → Text → Bool) (appId : Text) (clock : Int) (token : Text) : Prop :=
  ∃ jwt, readJwt token = some jwt ∧ verify jwt.signed jwt.signature = true ∧
    ∃ members iat exp, Writes jwt.payload (.obj members) ∧
      members.get iatKey = some (.num (decimalInt iat)) ∧
      members.get expKey = some (.num (decimalInt exp)) ∧
      members.get issKey = some (.str appId) ∧
      iat ≤ clock ∧ clock < exp ∧ exp - iat ≤ 600

/-- The claims tell their time and issuer. -/
theorem claims_injective {iat iat' exp exp' : Int} {iss iss' : Text}
    (h : (Value.obj (claims iat exp iss)).tokens = (Value.obj (claims iat' exp' iss')).tokens) :
    iat = iat' ∧ iss = iss' := by
  simp only [claims, Value.tokens, Members.tokens, List.cons.injEq, List.nil_append,
    List.cons_append, Token.num.injEq, Token.str.injEq, true_and, and_true] at h
  refine ⟨?_, h.2.2⟩
  rw [← ofDecimalInt_decimalInt iat, h.1, ofDecimalInt_decimalInt]

/-- **The token of a halt.** A token is accepted for its app by every clock from a minute before
the script's to nine minutes after it, and tokens that differ in their time or in their app are
different. -/
theorem appJwt_accepted (tools : Tools) (verify : Text → Text → Bool) (now : Int) (appId : Text)
    (hworks : Works tools verify now appId) :
    (∀ clock, now - 60 ≤ clock → clock < now + 540 →
        Accepted verify appId clock (appJwt tools now appId)) ∧
      ∀ now' appId', Works tools verify now' appId' →
        appJwt tools now' appId' = appJwt tools now appId → now' = now ∧ appId' = appId := by
  have hread := readJwt_appJwt tools now appId
  refine ⟨fun clock hlow hhigh => ?_, fun now' appId' hworks' heq => ?_⟩
  · refine ⟨_, hread, hworks.verify, claims (now - 60) (now + 540) appId, now - 60, now + 540,
      hworks.jq, ?_, ?_, ?_, hlow, hhigh, by omega⟩
    · rfl
    · rfl
    · rfl
  · -- the same token has the same claims
    rw [← heq, readJwt_appJwt] at hread
    have hpayload : payload tools now' appId' = payload tools now appId :=
      congrArg Jwt.payload (Option.some.inj hread)
    have htokens := hworks.jq.tokens
    rw [← hpayload, hworks'.jq.tokens] at htokens
    obtain ⟨htime, happ⟩ := claims_injective (Option.some.inj htokens)
    exact ⟨by omega, happ⟩

/-- The claims of app 7 at the time 1000, as `jq` prints them. -/
def claimsText : Text :=
  ascii "\x7b\n  \"iat\": 940,\n  \"exp\": 1540,\n  \"iss\": \"7\"\n\x7d"

def oneKey : Tools := ⟨fun _ _ _ => claimsText, fun _ => ascii "signature"⟩

/-- A key that works, -/
theorem works_oneKey :
    Works oneKey (fun _ signature => signature = ascii "signature") 1000 (ascii "7") := by
  refine ⟨⟨isUtf8_of_ascii ?_, ?_⟩, rfl⟩
  · decide
  · decide +kernel

/-- and its token accepted. -/
theorem appJwt_accepted_oneKey :
    Accepted (fun _ signature => signature = ascii "signature") (ascii "7") 1000
      (appJwt oneKey 1000 (ascii "7")) :=
  (appJwt_accepted oneKey _ 1000 (ascii "7") works_oneKey).1 1000 (by decide) (by decide)

end Swayam.AppJwt
