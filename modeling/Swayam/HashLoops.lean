import Swayam.Lib.SignedHash
import Swayam.Moltbook.Corruption

/-!
# SWAYAM — the three hash loops

`structural_hash`, the checksum of `Moltbook` and the node id of `NodeRegistry.hpp`
are FNV-1a, written three times with the same basis and prime. The loops of
`structural_hash` and `derive_node_id` take the bytes as `unsigned char`; the
checksum takes them as `char`, which is signed here, so that a byte from 128 on is
sign-extended before the exclusive or.

* `nodeIdHash_eq` — two of the loops are one function;
* `hashLoopsAgree_small_odd` — the third agrees with them on every text below 128,
  and on none with an odd number of bytes from 128 on;
* `hashLoopsAgree_pair_iff` — between the two, the least even number: two neighbours
  from 128 on cancel exactly when the low byte of the hash between them is 128.

The target is the one the sources are built for: `char` is signed and `size_t` has 64 bits.
Longer even runs cancel when a sum of products is zero modulo 2^64, one product for each byte
between two flips (`SignedHash.drift`), and no shorter account of that sum is given here.
-/

namespace Swayam

/-! ## `derive_node_id` -/

/-- What a node finds: its host name, the seed file when it opens, and the clock. -/
structure NodeHost where
  hostname : Text
  seedFile : Option Text
  now      : Int
  deriving DecidableEq, Repr

/-- `seed`: the first line of the seed file, or the clock on the first run. -/
def NodeHost.seed (host : NodeHost) : Text :=
  match host.seedFile with
  | some content => firstLine content
  | none => decimalInt host.now

/-- The loop of `derive_node_id`. -/
def nodeIdHash (t : Text) : UInt64 :=
  t.foldl (fun h c => (h ^^^ c.toUInt64) * 1099511628211) 14695981039346656037

/-- `derive_node_id` -/
def deriveNodeId (host : NodeHost) : Text :=
  ascii "node-" ++ decimal (nodeIdHash (host.hostname ++ host.seed)).toNat

/-! ## The loops as one -/

/-- The node's hash is the structural one. -/
theorem nodeIdHash_eq (t : Text) : nodeIdHash t = structuralHash t := rfl

/-- The structural hash is the unsigned loop, -/
theorem structuralHash_eq (t : Text) :
    structuralHash t = t.foldl (SignedHash.step fnvPrime) fnvOffsetBasis := rfl

/-- the checksum the signed one, -/
theorem calculateChecksum_eq (t : Text) :
    Moltbook.calculateChecksum t = t.foldl (SignedHash.signedStep fnvPrime) fnvOffsetBasis := rfl

/-- The three loops give the same value for a text. -/
structure HashLoopsAgree (t : Text) : Prop where
  checksum : Moltbook.calculateChecksum t = structuralHash t
  nodeId   : nodeIdHash t = structuralHash t

/-- How far the signed loop is off, from the low bytes of the states. -/
def drift (t : Text) : SignedHash.Drift := SignedHash.drift fnvPrime fnvOffsetBasis t

/-- with the same odd factor. -/
theorem fnvPrime_odd : ∃ j : UInt64, fnvPrime = 2 * j + 1 := ⟨549755814105, by decide +kernel⟩

/-- The prime has an inverse modulo 2^64. -/
theorem fnvPrime_inverse : fnvPrime * Moltbook.primeInverse = 1 := by decide +kernel

/-- **The checksum agrees** when the sign extensions are even in number and leave no
difference. -/
theorem checksum_eq_iff (t : Text) :
    Moltbook.calculateChecksum t = structuralHash t ↔
      (drift t).odd = false ∧ (drift t).diff = 0 := by
  rw [calculateChecksum_eq, structuralHash_eq]
  exact SignedHash.foldl_eq_iff fnvPrime_odd fnvOffsetBasis t

/-- Without a byte from 128 on there is nothing to cancel. -/
theorem hashLoopsAgree_of_small {t : Text} (h : ∀ c ∈ t, ¬ 128 ≤ c) : HashLoopsAgree t := by
  refine ⟨?_, nodeIdHash_eq t⟩
  rw [calculateChecksum_eq, structuralHash_eq]
  exact SignedHash.foldl_eq_of_small fnvPrime fnvOffsetBasis h

/-- An odd number of them never cancels. -/
theorem not_hashLoopsAgree_of_odd {t : Text} (h : t.countP (128 ≤ ·) % 2 = 1) :
    ¬ HashLoopsAgree t := by
  intro hagree
  -- each large byte turns the upper bits over once
  have hodd := ((checksum_eq_iff t).mp hagree.checksum).1
  rw [drift, SignedHash.drift, SignedHash.odd_foldl] at hodd
  simp [SignedHash.Drift.start, h] at hodd

/-- The only low byte that carries nothing is 128. -/
theorem carry_eq_zero_iff (mixed : Byte) : SignedHash.carry fnvPrime mixed = 0 ↔ mixed = 128 := by
  have hall : ∀ n < 256, SignedHash.carry fnvPrime (UInt8.ofNat n) = 0 ↔ UInt8.ofNat n = 128 := by
    decide +kernel
  have hmixed := hall mixed.toNat mixed.toNat_lt
  rwa [UInt8.ofNat_toNat] at hmixed

/-- **Two neighbours from 128 on**, as an accented letter has in UTF-8, cancel exactly when the
first makes the low byte of the hash 128. -/
theorem hashLoopsAgree_pair_iff {a b : Text} (ha : ∀ c ∈ a, ¬ 128 ≤ c) (hb : ∀ c ∈ b, ¬ 128 ≤ c)
    {c d : Byte} (hc : 128 ≤ c) (hd : 128 ≤ d) :
    HashLoopsAgree (a ++ c :: d :: b) ↔ (drift a).low ^^^ c = 128 := by
  obtain ⟨hodd, hdiff⟩ := SignedHash.pair_diff_eq_zero_iff fnvPrime_inverse fnvOffsetBasis
    ha hb hc hd
  rw [carry_eq_zero_iff] at hdiff
  constructor
  · intro hagree
    exact hdiff.mp ((checksum_eq_iff _).mp hagree.checksum).2
  · intro hlow
    exact ⟨(checksum_eq_iff _).mpr ⟨hodd, hdiff.mpr hlow⟩, nodeIdHash_eq _⟩

/-- Two that cancel at the start of a text. -/
example : HashLoopsAgree [0xA5, 0x80] :=
  (hashLoopsAgree_pair_iff (a := []) (b := []) (by simp) (by simp) (by decide) (by decide)).mpr
    (by decide +kernel)

/-- **The loops agree on every text below 128, and on none with an odd number of bytes from 128
on.** -/
theorem hashLoopsAgree_small_odd (t : Text) :
    ((∀ c ∈ t, ¬ 128 ≤ c) → HashLoopsAgree t) ∧
      (t.countP (128 ≤ ·) % 2 = 1 → ¬ HashLoopsAgree t) :=
  ⟨hashLoopsAgree_of_small, not_hashLoopsAgree_of_odd⟩

/-- A letter, and the first byte of an accented one. -/
theorem hashLoopsAgree_small_odd_letter : HashLoopsAgree [0x61] ∧ ¬ HashLoopsAgree [0xC3] := by
  refine ⟨(hashLoopsAgree_small_odd _).1 fun c hc => ?_, (hashLoopsAgree_small_odd _).2 rfl⟩
  rw [List.mem_singleton.mp hc]
  decide

/-- An accent in a text, two bytes in UTF-8, is enough to set them apart. -/
theorem hashLoops_differ : ¬ HashLoopsAgree [0xC3, 0xA9] := by
  intro h
  exact absurd h.checksum (by decide +kernel)

end Swayam
