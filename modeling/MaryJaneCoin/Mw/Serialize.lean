import MaryJaneCoin.Mw.State

/-!
# Serialization of `serialize.h`, as far as the state database uses it

Integers are written least significant byte first, byte arrays as they are,
vectors behind a compact size.  Reading a compact size refuses anything above
`MAX_SIZE`, writing does not: a vector that is too long can be saved but not
loaded.
-/

namespace MaryJaneCoin

open Codec Option List

abbrev uint256 := BitVec 256

instance uint256TransOrd : Std.TransOrd uint256 := BitVec.instTransOrd

instance uint256LawfulEqOrd : Std.LawfulEqOrd uint256 := BitVec.instLawfulEqOrd

/-- `MAX_SIZE` of `serialize.h`. -/
def MAX_SIZE : Nat := 0x02000000

/-- `WriteCompactSize`. -/
def putCompactSize (nSize : Nat) : Bytes :=
  if nSize < 253 then [UInt8.ofNat nSize]
  else if nSize ≤ 0xFFFF then 253 :: putLE 2 nSize
  else if nSize ≤ 0xFFFFFFFF then 254 :: putLE 4 nSize
  else 255 :: putLE 8 nSize

/-- A size behind a marker byte; smaller ones are not canonical. -/
def getSizeFrom (width least : Nat) : Get Nat := fun bytes =>
  (getLE width bytes).bind fun read => if read.1 < least then none else some read

/-- `ReadCompactSize`. -/
def getCompactSize : Get Nat
  | [] => none
  | chSize :: bytes =>
    (if chSize.toNat < 253 then some (chSize.toNat, bytes)
      else if chSize.toNat = 253 then getSizeFrom 2 253 bytes
      else if chSize.toNat = 254 then getSizeFrom 4 0x10000 bytes
      else getSizeFrom 8 0x100000000 bytes).bind fun read =>
    if read.1 > MAX_SIZE then none else some read

theorem getSizeFrom_putLE {width least n : Nat} (rest : Bytes) (hlt : n < 256 ^ width)
    (hle : least ≤ n) : getSizeFrom width least (putLE width n ++ rest) = some (n, rest) := by
  rw [getSizeFrom, reads_LE width n rest hlt, bind_some, if_neg (not_lt.mpr hle)]

/-- A written size is read back, unless it is above the limit. -/
theorem getCompactSize_put {n : Nat} (rest : Bytes) (hlt : n < 2 ^ 64) :
    getCompactSize (putCompactSize n ++ rest) = if n > MAX_SIZE then none else some (n, rest) := by
  have hlt' : n < 256 ^ 8 := hlt
  by_cases h1 : n < 253
  · have hbyte : (UInt8.ofNat n).toNat = n := by
      rw [UInt8.toNat_ofNat']
      omega
    simp only [putCompactSize, if_pos h1, cons_append, nil_append, getCompactSize, hbyte, bind_some]
  · by_cases h2 : n ≤ 0xFFFF
    · simp only [putCompactSize, if_neg h1, if_pos h2, cons_append, getCompactSize]
      rw [if_neg (by decide), if_pos (by decide), getSizeFrom_putLE rest (by omega) (by omega), bind_some]
    · by_cases h3 : n ≤ 0xFFFFFFFF
      · simp only [putCompactSize, if_neg h1, if_neg h2, if_pos h3, cons_append, getCompactSize]
        rw [if_neg (by decide), if_neg (by decide), if_pos (by decide),
          getSizeFrom_putLE rest (by omega) (by omega), bind_some]
      · simp only [putCompactSize, if_neg h1, if_neg h2, if_neg h3, cons_append, getCompactSize]
        rw [if_neg (by decide), if_neg (by decide), if_neg (by decide),
          getSizeFrom_putLE rest hlt' (by omega), bind_some]

section Vec

variable {α : Type} {put : α → Bytes} {get : Get α} {valid : α → Prop}

/-- `Serialize` of a `std::vector`. -/
def putVec (put : α → Bytes) (v : List α) : Bytes :=
  putCompactSize v.length ++ v.flatMap put

/-- `Unserialize` of a `std::vector`. -/
def getVec (get : Get α) : Get (List α) := fun bytes =>
  (getCompactSize bytes).bind fun size => getMany get size.1 size.2

theorem reads_vec (hreads : Reads put get valid) :
    Reads (putVec put) (getVec get) (fun v => v.length ≤ MAX_SIZE ∧ ∀ a ∈ v, valid a) := by
  intro v rest hv
  have hsize : v.length < 2 ^ 64 := lt_of_le_of_lt hv.1 (by decide)
  rw [getVec, putVec, append_assoc, getCompactSize_put _ hsize, if_neg (not_lt.mpr hv.1),
    bind_some, reads_many hreads v rest hv.2]

/-- A vector above the limit cannot be read back. -/
theorem getVec_too_long (v : List α) (rest : Bytes) (hlong : MAX_SIZE < v.length)
    (hsize : v.length < 2 ^ 64) : getVec get (putVec put v ++ rest) = none := by
  rw [getVec, putVec, append_assoc, getCompactSize_put _ hsize, if_pos hlong, bind_none]

end Vec

/-- A hash, as its 32 bytes in memory. -/
def putHash (h : uint256) : Bytes := putLE 32 h.toNat

def getHash : Get uint256 := fun bytes =>
  (getLE 32 bytes).map fun read => (BitVec.ofNat 256 read.1, read.2)

theorem reads_hash : Reads putHash getHash (fun _ => True) := by
  intro h rest _
  have hlt : h.toNat < 256 ^ 32 := h.isLt
  rw [getHash, putHash, reads_LE 32 _ rest hlt, map_some, BitVec.ofNat_toNat, BitVec.setWidth_eq]

/-- An `int32_t`. -/
def putInt32 (n : Int32) : Bytes := putLE 4 n.toUInt32.toNat

def getInt32 : Get Int32 := fun bytes =>
  (getLE 4 bytes).map fun read => ((UInt32.ofNat read.1).toInt32, read.2)

theorem reads_int32 : Reads putInt32 getInt32 (fun _ => True) := by
  intro n rest _
  have hlt : n.toUInt32.toNat < 256 ^ 4 := n.toUInt32.toNat_lt
  rw [getInt32, putInt32, reads_LE 4 _ rest hlt, map_some, UInt32.ofNat_toNat, Int32.toInt32_toUInt32]

/-- An `int64_t`. -/
def putInt64 (n : Int64) : Bytes := putLE 8 n.toUInt64.toNat

def getInt64 : Get Int64 := fun bytes =>
  (getLE 8 bytes).map fun read => ((UInt64.ofNat read.1).toInt64, read.2)

theorem reads_int64 : Reads putInt64 getInt64 (fun _ => True) := by
  intro n rest _
  have hlt : n.toUInt64.toNat < 256 ^ 8 := n.toUInt64.toNat_lt
  rw [getInt64, putInt64, reads_LE 8 _ rest hlt, map_some, UInt64.ofNat_toNat, Int64.toInt64_toUInt64]

/-- A `uint64_t`. -/
def putUInt64 (n : UInt64) : Bytes := putLE 8 n.toNat

def getUInt64 : Get UInt64 := fun bytes =>
  (getLE 8 bytes).map fun read => (UInt64.ofNat read.1, read.2)

theorem reads_uint64 : Reads putUInt64 getUInt64 (fun _ => True) := by
  intro n rest _
  have hlt : n.toNat < 256 ^ 8 := n.toNat_lt
  rw [getUInt64, putUInt64, reads_LE 8 _ rest hlt, map_some, UInt64.ofNat_toNat]

/-- A single byte. -/
def putByte (b : UInt8) : Bytes := [b]

def getByte : Get UInt8
  | [] => none
  | b :: rest => some (b, rest)

theorem reads_byte : Reads putByte getByte (fun _ => True) := fun _ _ _ => rfl

/-- `CMWOutput`. -/
def putCMWOutput (output : CMWOutput) : Bytes :=
  output.commitment.toList ++ (output.senderPubKey.toList ++ (output.receiverPubKey.toList ++
    (putVec putByte output.rangeProof ++ putByte output.nFeatures)))

def getCMWOutput : Get CMWOutput := fun bytes =>
  (getVector 33 bytes).bind fun commitment =>
  (getVector 33 commitment.2).bind fun senderPubKey =>
  (getVector 33 senderPubKey.2).bind fun receiverPubKey =>
  (getVec getByte receiverPubKey.2).bind fun rangeProof =>
  (getByte rangeProof.2).map fun nFeatures =>
    (⟨commitment.1, senderPubKey.1, receiverPubKey.1, rangeProof.1, nFeatures.1⟩, nFeatures.2)

theorem reads_output :
    Reads putCMWOutput getCMWOutput (fun output => output.rangeProof.length ≤ MAX_SIZE) := by
  intro output rest hproof
  have hvec := reads_vec reads_byte output.rangeProof (putByte output.nFeatures ++ rest)
    ⟨hproof, fun _ _ => trivial⟩
  simp only [putCMWOutput, getCMWOutput, append_assoc, reads_vector 33 _ _ trivial,
    bind_some, hvec, reads_byte _ _ trivial, map_some]

theorem getCMWOutput_too_long (output : CMWOutput) (rest : Bytes)
    (hlong : MAX_SIZE < output.rangeProof.length) (hsize : output.rangeProof.length < 2 ^ 64) :
    getCMWOutput (putCMWOutput output ++ rest) = none := by
  simp only [putCMWOutput, getCMWOutput, append_assoc, reads_vector 33 _ _ trivial,
    bind_some, getVec_too_long _ _ hlong hsize, bind_none]

/-- `CMMR`. -/
def putCMMR (mmr : CMMR uint256) : Bytes :=
  putVec putHash mmr.vNodes ++ putLE 8 mmr.nLeaves

def getCMMR : Get (CMMR uint256) := fun bytes =>
  (getVec getHash bytes).bind fun vNodes =>
  (getLE 8 vNodes.2).map fun nLeaves => (⟨vNodes.1, nLeaves.1⟩, nLeaves.2)

theorem reads_mmr :
    Reads putCMMR getCMMR (fun mmr => mmr.vNodes.length ≤ MAX_SIZE ∧ mmr.nLeaves < 2 ^ 64) := by
  intro mmr rest hmmr
  have hlt : mmr.nLeaves < 256 ^ 8 := hmmr.2
  have hvec := reads_vec reads_hash mmr.vNodes (putLE 8 mmr.nLeaves ++ rest)
    ⟨hmmr.1, fun _ _ => trivial⟩
  rw [getCMMR, putCMMR, append_assoc, hvec, bind_some, reads_LE 8 _ rest hlt, map_some]

/-- A range with more nodes than the limit cannot be read back. -/
theorem getCMMR_too_long (mmr : CMMR uint256) (rest : Bytes)
    (hlong : MAX_SIZE < mmr.vNodes.length) (hsize : mmr.vNodes.length < 2 ^ 64) :
    getCMMR (putCMMR mmr ++ rest) = none := by
  rw [getCMMR, putCMMR, append_assoc, getVec_too_long _ _ hlong hsize, bind_none]

end MaryJaneCoin
