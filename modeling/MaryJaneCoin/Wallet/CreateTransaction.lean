import MaryJaneCoin.Chain.Supply
import MaryJaneCoin.Mw.Pedersen
import MaryJaneCoin.Wallet.CWallet

/-!
# `CWallet::CreateTransaction`

The wallet makes the outputs of a payment, equal ones where ring mixing asks for
them, selects coins, adds change and signs, and starts over with a higher fee
until the fee suffices.  Which coins are selected is left open: any distinct
coins that are available.
-/

namespace MaryJaneCoin

open Std WrappedSum List Int

def COINJOIN_DENOMINATIONS : List Int64 := [100000000000, 10000000000, 1000000000, 100000000]
def COINJOIN_MAX_OUTPUTS : Int32 := 20

/-- A new `CWalletTx`. -/
def CTransaction.new {H : Type} (nTime : UInt32) : CTransaction H where
  nVersion := 1
  nTime := nTime
  vin := []
  vout := []
  nLockTime := 0
  mwTx := ⟨⟨[], [], []⟩, nullBlind⟩

/-- A transaction without the scripts of its inputs. -/
def CTransaction.unsigned {H : Type} (tx : CTransaction H) : CTransaction H :=
  { tx with vin := tx.vin.map fun txin => { txin with scriptSig := [] } }

namespace CTransaction

variable {H : Type} {tx tx' : CTransaction H}

theorem nVersion_of_unsigned (h : tx'.unsigned = tx.unsigned) : tx'.nVersion = tx.nVersion := by
  have hversion := congrArg CTransaction.nVersion h
  exact hversion

theorem length_vin_of_unsigned (h : tx'.unsigned = tx.unsigned) : tx'.vin.length = tx.vin.length := by
  have hlength := congrArg (fun tx => tx.vin.length) h
  simpa only [unsigned, length_map] using hlength

theorem unsigned_set {i : Nat} {txin : CTxIn H} (hget : tx.vin[i]? = some txin) (scriptSig : CScript) :
    unsigned { tx with vin := tx.vin.set i { txin with scriptSig } } = tx.unsigned := by
  obtain ⟨hlt, rfl⟩ := List.getElem?_eq_some_iff.mp hget
  have hvin : (tx.vin.set i { tx.vin[i] with scriptSig }).map
      (fun txin => { txin with scriptSig := [] }) =
        tx.vin.map fun txin => { txin with scriptSig := [] } := by
    rw [map_set]
    exact (congrArg _ (getElem_map _).symm).trans (set_getElem_self (by simpa using hlt))
  rw [unsigned, hvin]
  rfl

end CTransaction

/-- The settings that `CreateTransaction` reads. -/
structure WalletSettings where
  nTransactionFee : Int64
  fSplitBlock : Bool
  nBestHeight : Int

/-- A payment of `vecSend`. -/
abbrev Recipient := CScript × Int64

/-- An output that carries data, or nothing. -/
def Recipient.isMarker (s : Recipient) : Bool := s.2 == 0 || s.1.head? == some OP_RETURN

/-- The number of equal outputs of one payment. -/
def ringMixCount (nSendValue nBestDenom : Int64) : Int32 :=
  let nOutputCount := (nSendValue / nBestDenom).toInt32
  if nOutputCount > COINJOIN_MAX_OUTPUTS then COINJOIN_MAX_OUTPUTS else nOutputCount

/-- The equal outputs of one payment under ring mixing, and what is left over
for the change. -/
def ringMixOutputs (s : Recipient) : List CTxOut × Int64 :=
  if s.isMarker then ([⟨s.2, s.1⟩], 0)
  else
    match COINJOIN_DENOMINATIONS.find? fun nBestDenom =>
      s.2 ≥ nBestDenom * Int64.ofNat RING_MIXING_MIN_EQUAL_OUTPUTS with
    | some nBestDenom =>
      let nOutputCount := ringMixCount s.2 nBestDenom
      let nRemainder := s.2 - nBestDenom * nOutputCount.toInt64
      let equal := List.replicate nOutputCount.toInt.toNat ⟨nBestDenom, s.1⟩
      if nRemainder > 0 then
        if nRemainder ≥ CENT then (equal ++ [⟨nRemainder, s.1⟩], 0) else (equal, nRemainder)
      else (equal, 0)
    | none =>
      let nEqualPart := s.2 / Int64.ofNat RING_MIXING_MIN_EQUAL_OUTPUTS
      (List.replicate RING_MIXING_MIN_EQUAL_OUTPUTS ⟨nEqualPart, s.1⟩,
        s.2 - nEqualPart * Int64.ofNat RING_MIXING_MIN_EQUAL_OUTPUTS)

/-- The parts of one payment when blocks are split. -/
def splitOutputs (nSplitBlock : Nat) (s : Recipient) : List CTxOut :=
  (List.range nSplitBlock).map fun nCount =>
    if nCount + 1 = nSplitBlock then
      ⟨s.2 / Int64.ofNat nSplitBlock + s.2 % Int64.ofNat nSplitBlock, s.1⟩
    else ⟨s.2 / Int64.ofNat nSplitBlock, s.1⟩

/-- The outputs of the payments, and what is left over for the change; `none`
where an amount is too small for ring mixing. -/
def sendOutputs (settings : WalletSettings) (nSplitBlock : Nat) (vecSend : List Recipient) :
    Option (List CTxOut × Int64) :=
  if settings.nBestHeight ≥ RING_MIXING_MANDATORY_HEIGHT && !settings.fSplitBlock then
    if vecSend.any fun s => !s.isMarker && s.2 < Int64.ofNat RING_MIXING_MIN_EQUAL_OUTPUTS then none
    else
      some (vecSend.flatMap fun s => (ringMixOutputs s).1,
        wrapped (fun s => (ringMixOutputs s).2) vecSend)
  else if !settings.fSplitBlock then some (vecSend.map fun s => ⟨s.2, s.1⟩, 0)
  else some (vecSend.flatMap (splitOutputs (max nSplitBlock 1)), 0)

/-- Coins that `SelectCoins` can return, with the value that it reports. -/
structure CoinSelection {H : Type} [Ord H] [TransOrd H] [DecidableEq H] (sha : Sha256 H)
    (wallet : CWallet H) where
  coins : List (COutput H)
  nValueRet : Int64
  available : ∀ coin ∈ coins, coin ∈ wallet.availableCoins sha true
  nodup : coins.Nodup

/-- One round of the fee loop: it fails, starts over with a higher fee, or has a
transaction. -/
inductive CreateStep (H : Type) where
  | failed (nFeeRet : Int64)
  | again (nFeeRet : Int64)
  | created (tx : CTransaction H) (nFeeRet : Int64)

theorem sumValues_eq_exact (vout : List CTxOut) : sumValues vout = exact CTxOut.nValue vout := rfl

/-- The outputs pay this script, and no more than the payment. -/
def Pays (s : Recipient) (vout : List CTxOut) : Prop :=
  (∀ txout ∈ vout, txout.scriptPubKey = s.1) ∧ sumValues vout ≤ s.2.toInt

theorem pays_singleton (s : Recipient) : Pays s [⟨s.2, s.1⟩] := by
  constructor
  · intro txout htxout
    rw [mem_singleton.mp htxout]
  · rw [sumValues_eq_exact, exact_cons, exact_nil, Int.add_zero]

theorem sumValues_replicate (n : Nat) (txout : CTxOut) :
    sumValues (List.replicate n txout) = n * txout.nValue.toInt := by
  rw [sumValues, map_replicate, sum_replicate, nsmul_eq_mul]

/-- A division of amounts. -/
theorem toInt_div_of_pos {a b : Int64} (ha : 0 ≤ a.toInt) (hb : 0 < b.toInt) :
    (a / b).toInt = a.toInt / b.toInt := by
  have hne : b ≠ -1 := by
    rintro rfl
    revert hb
    decide
  rw [Int64.toInt_div_of_ne_right a b hne, tdiv_eq_ediv_of_nonneg ha]

/-- The rest of a division of amounts. -/
theorem toInt_mod_of_pos {a b : Int64} (ha : 0 ≤ a.toInt) : (a % b).toInt = a.toInt % b.toInt := by
  rw [Int64.toInt_mod, tmod_eq_emod_of_nonneg ha]

/-- A sum of amounts that does not exceed an amount. -/
theorem toInt_add_of_le {a b c : Int64} (hpos : 0 ≤ a.toInt + b.toInt)
    (hle : a.toInt + b.toInt ≤ c.toInt) : (a + b).toInt = a.toInt + b.toInt := by
  have hlt := c.toInt_lt
  rw [Int64.toInt_add]
  exact bmod_eq_of_le (by omega) (by omega)

/-- A product that does not exceed an amount. -/
theorem toInt_mul_of_le {a b c : Int64} (hpos : 0 ≤ a.toInt * b.toInt)
    (hle : a.toInt * b.toInt ≤ c.toInt) : (a * b).toInt = a.toInt * b.toInt := by
  have hlt := c.toInt_lt
  rw [Int64.toInt_mul]
  exact bmod_eq_of_le (by omega) (by omega)

/-- What is left of an amount. -/
theorem toInt_sub_of_le {a b : Int64} (hpos : 0 ≤ b.toInt) (hle : b.toInt ≤ a.toInt) :
    (a - b).toInt = a.toInt - b.toInt := by
  have hlt := a.toInt_lt
  rw [Int64.toInt_sub]
  exact bmod_eq_of_le (by omega) (by omega)

/-- A denomination that is found fits into the amount at least three times, and less
than `2 ^ 31` times. -/
theorem find_denomination {nValue nDenom : Int64} (hfind : COINJOIN_DENOMINATIONS.find? (fun nBestDenom =>
      nValue ≥ nBestDenom * Int64.ofNat RING_MIXING_MIN_EQUAL_OUTPUTS) = some nDenom) :
    0 < nDenom.toInt ∧ nDenom.toInt * 3 ≤ nValue.toInt ∧ nValue.toInt / nDenom.toInt < 2 ^ 31 := by
  have hlt := nValue.toInt_lt
  have hvalues : Int64.toInt 100000000000 = 100000000000 ∧ Int64.toInt 10000000000 = 10000000000 ∧
      Int64.toInt 1000000000 = 1000000000 ∧ Int64.toInt 100000000 = 100000000 := by decide
  have hthree : (100000000000 * Int64.ofNat RING_MIXING_MIN_EQUAL_OUTPUTS).toInt = 300000000000 ∧
      (10000000000 * Int64.ofNat RING_MIXING_MIN_EQUAL_OUTPUTS).toInt = 30000000000 ∧
      (1000000000 * Int64.ofNat RING_MIXING_MIN_EQUAL_OUTPUTS).toInt = 3000000000 ∧
      (100000000 * Int64.ofNat RING_MIXING_MIN_EQUAL_OUTPUTS).toInt = 300000000 := by decide
  simp only [COINJOIN_DENOMINATIONS, find?_cons, find?_nil, ge_iff_le, Int64.le_iff_toInt_le, hthree] at hfind
  repeat' split at hfind
  all_goals
    cases hfind
  all_goals
    simp only [decide_eq_true_iff, decide_eq_false_iff_not, hvalues] at *
    omega

section RingMixing

variable {nValue nDenom : Int64} (hdenom : 0 < nDenom.toInt)
  (hle : nDenom.toInt * 3 ≤ nValue.toInt) (hlt : nValue.toInt / nDenom.toInt < 2 ^ 31)
include hdenom hle hlt

/-- There are as many equal outputs as fit into the amount, and at most twenty. -/
theorem toInt_ringMixCount_eq :
    (ringMixCount nValue nDenom).toInt = min (nValue.toInt / nDenom.toInt) 20 := by
  have hnonneg : 0 ≤ nValue.toInt / nDenom.toInt := ediv_nonneg (by omega) (by omega)
  have hquotient : (nValue / nDenom).toInt32.toInt = nValue.toInt / nDenom.toInt := by
    rw [Int64.toInt_toInt32, toInt_div_of_pos (by omega) hdenom]
    exact bmod_eq_of_le (by omega) (by omega)
  have hmax : COINJOIN_MAX_OUTPUTS.toInt = 20 := by decide
  unfold ringMixCount
  simp only
  split
  · rename_i htoo
    rw [gt_iff_lt, Int32.lt_iff_toInt_lt, hquotient] at htoo
    omega
  · rename_i hfew
    rw [gt_iff_lt, Int32.lt_iff_toInt_lt, hquotient] at hfew
    omega

/-- There are at least three equal outputs, and at most as many as fit into the
amount. -/
theorem toInt_ringMixCount :
    3 ≤ (ringMixCount nValue nDenom).toInt ∧
      nDenom.toInt * (ringMixCount nValue nDenom).toInt ≤ nValue.toInt := by
  have hmany : 3 ≤ nValue.toInt / nDenom.toInt := by
    rw [Int.le_ediv_iff_mul_le hdenom, Int.mul_comm]
    exact hle
  rw [toInt_ringMixCount_eq hdenom hle hlt]
  refine ⟨by omega, ?_⟩
  calc nDenom.toInt * min (nValue.toInt / nDenom.toInt) 20
      ≤ nDenom.toInt * (nValue.toInt / nDenom.toInt) :=
        Int.mul_le_mul_of_nonneg_left (by omega) (by omega)
    _ ≤ nValue.toInt := mul_ediv_self_le (by omega)

theorem toInt_mul_ringMixCount : (nDenom * (ringMixCount nValue nDenom).toInt64).toInt =
    nDenom.toInt * (ringMixCount nValue nDenom).toInt := by
  obtain ⟨hcount, hproduct⟩ := toInt_ringMixCount hdenom hle hlt
  have hnonneg := Int.mul_nonneg hdenom.le (Int.le_trans (by decide) hcount)
  have hmul := toInt_mul_of_le (a := nDenom) (b := (ringMixCount nValue nDenom).toInt64)
    (c := nValue) (by rwa [Int32.toInt_toInt64]) (by rwa [Int32.toInt_toInt64])
  rwa [Int32.toInt_toInt64] at hmul

end RingMixing

/-- Three equal parts of an amount. -/
theorem toInt_ringMixThirds {nValue : Int64} (hpos : 0 ≤ nValue.toInt) :
    (nValue / Int64.ofNat RING_MIXING_MIN_EQUAL_OUTPUTS).toInt = nValue.toInt / 3 ∧
      (nValue / Int64.ofNat RING_MIXING_MIN_EQUAL_OUTPUTS *
        Int64.ofNat RING_MIXING_MIN_EQUAL_OUTPUTS).toInt = nValue.toInt / 3 * 3 := by
  have hthree : (Int64.ofNat RING_MIXING_MIN_EQUAL_OUTPUTS).toInt = 3 := by decide
  have hpart : (nValue / Int64.ofNat RING_MIXING_MIN_EQUAL_OUTPUTS).toInt = nValue.toInt / 3 := by
    rw [toInt_div_of_pos hpos (by rw [hthree]; decide), hthree]
  refine ⟨hpart, ?_⟩
  rw [toInt_mul_of_le (c := nValue) (by rw [hpart, hthree]; omega) (by rw [hpart, hthree]; omega),
    hpart, hthree]

variable {s : Recipient}

theorem ringMixOutputs_script : ∀ txout ∈ (ringMixOutputs s).1, txout.scriptPubKey = s.1 := by
  intro txout hmem
  unfold ringMixOutputs at hmem
  split at hmem
  · rw [mem_singleton.mp hmem]
  · split at hmem
    · simp only at hmem
      split at hmem
      · split at hmem
        · rcases mem_append.mp hmem with hmem | hmem
          · rw [eq_of_mem_replicate hmem]
          · rw [mem_singleton.mp hmem]
        · rw [eq_of_mem_replicate hmem]
      · rw [eq_of_mem_replicate hmem]
    · rw [eq_of_mem_replicate hmem]

/-- How one payment is split: outputs that are not negative, and a rest; together
they are the payment. -/
structure SplitsValue (s : Recipient) (outputs : List CTxOut × Int64) : Prop where
  total : sumValues outputs.1 + outputs.2.toInt = s.2.toInt
  rest : 0 ≤ outputs.2.toInt
  nonneg : ∀ txout ∈ outputs.1, 0 ≤ txout.nValue.toInt

theorem splitsValue_singleton (hpos : 0 ≤ s.2.toInt) : SplitsValue s ([⟨s.2, s.1⟩], 0) := by
  refine ⟨?_, Int.le_refl 0, fun txout htxout => ?_⟩
  · rw [sumValues_eq_exact, exact_cons, exact_nil]
    exact (Int.add_zero _).trans (Int.add_zero _)
  · rw [mem_singleton.mp htxout]
    exact hpos

/-- Equal outputs and what they leave of the payment. -/
theorem splitsValue_replicate {n : Nat} {nDenom nRest : Int64}
    (hdenom : 0 ≤ nDenom.toInt) (hrest : 0 ≤ nRest.toInt)
    (htotal : n * nDenom.toInt + nRest.toInt = s.2.toInt) :
    SplitsValue s (List.replicate n ⟨nDenom, s.1⟩, nRest) := by
  refine ⟨?_, hrest, fun txout htxout => ?_⟩
  · rw [sumValues_replicate]
    exact htotal
  · rw [eq_of_mem_replicate htxout]
    exact hdenom

/-- What is left over can be one more output. -/
theorem SplitsValue.concat {vout : List CTxOut} {nRest : Int64}
    (h : SplitsValue s (vout, nRest)) : SplitsValue s (vout ++ [⟨nRest, s.1⟩], 0) := by
  obtain ⟨htotal, hrest, hnonneg⟩ := h
  refine ⟨?_, Int.le_refl 0, fun txout htxout => ?_⟩
  · rw [sumValues_eq_exact, exact_append, exact_cons, exact_nil, ← sumValues_eq_exact]
    exact (Int.add_zero _).trans ((congrArg _ (Int.add_zero _)).trans htotal)
  · rcases mem_append.mp htxout with htxout | htxout
    · exact hnonneg txout htxout
    · rw [mem_singleton.mp htxout]
      exact hrest

/-- **The outputs of a payment under ring mixing** and what is left over for the
change are the payment. -/
theorem splitsValue_ringMixOutputs (hpos : 0 ≤ s.2.toInt) : SplitsValue s (ringMixOutputs s) := by
  unfold ringMixOutputs
  split
  · exact splitsValue_singleton hpos
  · split
    · rename_i nDenom hfind
      obtain ⟨hdenom, hle, hlt⟩ := find_denomination hfind
      obtain ⟨hcount, hproduct⟩ := toInt_ringMixCount hdenom hle hlt
      have hnonneg := Int.mul_nonneg hdenom.le (Int.le_trans (by decide) hcount)
      have hproductValue := toInt_mul_ringMixCount hdenom hle hlt
      have hremainder : (s.2 - nDenom * (ringMixCount s.2 nDenom).toInt64).toInt =
          s.2.toInt - nDenom.toInt * (ringMixCount s.2 nDenom).toInt := by
        rw [toInt_sub_of_le (by omega) (by omega), hproductValue]
      have hequal : SplitsValue s (List.replicate (ringMixCount s.2 nDenom).toInt.toNat
          ⟨nDenom, s.1⟩, s.2 - nDenom * (ringMixCount s.2 nDenom).toInt64) := by
        refine splitsValue_replicate hdenom.le (by omega) ?_
        rw [toNat_of_nonneg (Int.le_trans (by decide) hcount), hremainder, Int.mul_comm]
        omega
      simp only
      split
      · split
        · exact hequal.concat
        · exact hequal
      · rename_i hnone
        have hzero : s.2 - nDenom * (ringMixCount s.2 nDenom).toInt64 = 0 := by
          have hle := Int64.not_lt.mp hnone
          rw [Int64.le_iff_toInt_le] at hle
          exact Int64.toInt_inj.mp (Int.le_antisymm hle hequal.rest)
        rw [hzero] at hequal
        exact hequal
    · obtain ⟨hpart, hproduct⟩ := toInt_ringMixThirds hpos
      have hthirds : s.2.toInt / 3 * 3 ≤ s.2.toInt := Int.ediv_mul_le _ (by decide)
      have hlow : 0 ≤ s.2.toInt / 3 := ediv_nonneg hpos (by decide)
      have hrest := toInt_sub_of_le (a := s.2) (b := s.2 / Int64.ofNat RING_MIXING_MIN_EQUAL_OUTPUTS *
        Int64.ofNat RING_MIXING_MIN_EQUAL_OUTPUTS) (by omega) (by omega)
      refine splitsValue_replicate (by omega) (by omega) ?_
      rw [hpart, hrest, hproduct]
      show ((3 : Nat) : Int) * _ + _ = _
      omega

/-- **The outputs of a payment under ring mixing** pay no more than the payment. -/
theorem pays_ringMixOutputs (hpos : 0 < s.2.toInt) : Pays s (ringMixOutputs s).1 := by
  have hsplits := splitsValue_ringMixOutputs hpos.le
  refine ⟨ringMixOutputs_script, ?_⟩
  have htotal := hsplits.total
  have hrest := hsplits.rest
  omega

namespace CWallet

variable {H : Type} [Ord H] [TransOrd H] [DecidableEq H] (sha : Sha256 H) (wallet : CWallet H)
  (settings : WalletSettings)

/-- The sum of the payments; `none` where it is negative. -/
def sendTotal (vecSend : List Recipient) : Option Int64 :=
  (vecSend.foldlM (fun nValue s => if nValue < 0 then none else some (nValue + s.2)) 0).filter
    fun nValue => !(vecSend.isEmpty || nValue < 0)

omit [TransOrd H] [DecidableEq H] in
/-- The signing loop of `CreateTransaction`. -/
def signCoins (coins : List (COutput H)) (tx : CTransaction H) : Option (CTransaction H) :=
  coins.zipIdx.foldlM (fun tx (coin, nIn) =>
    (wallet.signSignature coin.txout.scriptPubKey tx nIn).bind fun scriptSig =>
      tx.vin[nIn]?.map fun txin => { tx with vin := tx.vin.set nIn { txin with scriptSig } }) tx

/-- The change of `CreateTransaction`, and the fee with what is moved to it. -/
def changeAndFee (nValueIn nValue nRingMixRemainder nFeeRet : Int64) : Int64 × Int64 :=
  let nChange := nValueIn - nValue - nFeeRet + nRingMixRemainder
  if nFeeRet < MIN_TX_FEE && nChange > 0 && nChange < CENT then
    let nMoveToFee := min nChange (MIN_TX_FEE - nFeeRet)
    (nChange - nMoveToFee, nFeeRet + nMoveToFee)
  else (nChange, nFeeRet)

omit [TransOrd H] [DecidableEq H] in
/-- The outputs with the change at a random place; `none` where the reserved key
is not valid. -/
def withChange (draw : Nat) (nChange : Int64) (vout : List CTxOut) : Option (List CTxOut) :=
  if nChange > 0 then
    wallet.reservedKey.map fun keyID =>
      vout.insertIdx (getRandInt draw vout.length) ⟨nChange, CScript.setDestination (.keyID keyID)⟩
  else some vout

/-- Where the change goes: for the selected coins, the fee so far, the change and
the outputs. -/
abbrev PlaceChange (sha : Sha256 H) (wallet : CWallet H) :=
  CoinSelection sha wallet → Int64 → Int64 → List CTxOut → Option (List CTxOut)

/-- One round of the fee loop.  `wtxNew` is the new transaction before it has
inputs and outputs. -/
def createRoundWith (place : PlaceChange sha wallet)
    (selectCoins : Int64 → Option (CoinSelection sha wallet)) (wtxNew : CTransaction H)
    (vecSend : List Recipient) (nSplitBlock : Nat) (nValue nFeeRet : Int64) : CreateStep H :=
  match sendOutputs settings nSplitBlock vecSend with
  | none => .failed nFeeRet
  | some (vout, nRingMixRemainder) =>
    match selectCoins (nValue + nFeeRet) with
    | none => .failed nFeeRet
    | some selection =>
      let (nChange, nFee) := changeAndFee selection.nValueRet nValue nRingMixRemainder nFeeRet
      match place selection nFeeRet nChange vout with
      | none => .failed nFee
      | some vout =>
        let vin := selection.coins.map fun coin => coin.prevout.newInput
        match wallet.signCoins selection.coins { wtxNew with vin, vout } with
        | none => .failed nFee
        | some tx =>
          let nBytes := tx.serializeSize
          let nPayFee := settings.nTransactionFee * (1 + Int64.ofNat nBytes / 1000)
          let nMinFee := tx.getMinFee 1 .GMF_SEND nBytes
          if nBytes ≥ MAX_BLOCK_SIZE_GEN / 5 then .failed nFee
          else if nFee < max nPayFee nMinFee then .again (max nPayFee nMinFee)
          else .created tx nFee

/-- The fee loop; `none` where the fuel runs out.  Next to the transaction it
returns the fee, also where it fails. -/
def createLoop (round : Int64 → CreateStep H) : Nat → Int64 → Option (Option (CTransaction H) × Int64)
  | 0, _ => none
  | fuel + 1, nFeeRet =>
    match round nFeeRet with
    | .failed nFeeRet => some (none, nFeeRet)
    | .again nFeeRet => createLoop round fuel nFeeRet
    | .created tx nFeeRet => some (some tx, nFeeRet)

/-- `CreateTransaction`, for what it does with the change.  Zero stands for an `nFeeRet` that an
early failure leaves unset. -/
def createTransactionWith (place : PlaceChange sha wallet)
    (selectCoins : Int64 → Option (CoinSelection sha wallet)) (wtxNew : CTransaction H)
    (vecSend : List Recipient) (nSplitBlock : Nat) (fuel : Nat) :
    Option (Option (CTransaction H) × Int64) :=
  match sendTotal vecSend with
  | none => some (none, 0)
  | some nValue =>
    if vecSend.countP (fun s => s.1.head? == some OP_RETURN) > 1 then some (none, 0)
    else createLoop (createRoundWith sha wallet settings place selectCoins wtxNew vecSend nSplitBlock nValue)
      fuel (if settings.fSplitBlock then COIN else settings.nTransactionFee)

/-- `CreateTransaction` without coin control: the change goes to a reserved key. -/
def createTransaction (selectCoins : Int64 → Option (CoinSelection sha wallet))
    (draw : Int64 → Nat) (wtxNew : CTransaction H) (vecSend : List Recipient) (nSplitBlock : Nat)
    (fuel : Nat) : Option (Option (CTransaction H) × Int64) :=
  createTransactionWith sha wallet settings
    (fun _ nFeeRet => wallet.withChange (draw nFeeRet)) selectCoins wtxNew vecSend nSplitBlock fuel

variable {sha wallet settings} {place : PlaceChange sha wallet}
  {selectCoins : Int64 → Option (CoinSelection sha wallet)} {draw : Int64 → Nat}
  {wtxNew tx tx' : CTransaction H} {vecSend : List Recipient} {nSplitBlock : Nat}

omit [DecidableEq H] [TransOrd H] in
/-- **The outputs of a single payment** pay no more than the payment. -/
theorem pays_sendOutputs {s : Recipient} {vout : List CTxOut} {nRemainder : Int64}
    (hpos : 0 < s.2.toInt) (h : sendOutputs settings 1 [s] = some (vout, nRemainder)) : Pays s vout := by
  unfold sendOutputs at h
  split at h
  · split at h
    · cases h
    · cases h
      rw [flatMap_singleton]
      exact pays_ringMixOutputs hpos
  · split at h
    · cases h
      exact pays_singleton s
    · cases h
      have hwhole : s.2 / Int64.ofNat 1 + s.2 % Int64.ofNat 1 = s.2 := by
        simp
      rw [flatMap_singleton, splitOutputs]
      simp only [Nat.max_self, range_one, map_cons, map_nil, Nat.zero_add, if_true, hwhole]
      exact pays_singleton s

section

omit [TransOrd H] [DecidableEq H]

variable {coins : List (COutput H)}

/-- **The signing loop** from some input on: every coin of its list gets a script,
made for a transaction that differs in the scripts of its inputs only. -/
theorem signFrom_signed {nIn : Nat} (h : (coins.zipIdx nIn).foldlM (fun tx (coin, nIn) =>
      (wallet.signSignature coin.txout.scriptPubKey tx nIn).bind fun scriptSig =>
        tx.vin[nIn]?.map fun txin => { tx with vin := tx.vin.set nIn { txin with scriptSig } }) tx =
      some tx') :
    tx'.unsigned = tx.unsigned ∧ (∀ i < nIn, tx'.vin[i]? = tx.vin[i]?) ∧
      ∀ j coin, coins[j]? = some coin → ∃ mid txin, mid.unsigned = tx.unsigned ∧
        tx'.vin[nIn + j]? = some txin ∧
        wallet.signSignature coin.txout.scriptPubKey mid (nIn + j) = some txin.scriptSig := by
  induction coins generalizing nIn tx with
  | nil =>
    cases h
    exact ⟨rfl, fun _ _ => rfl, fun j coin hcoin => by cases hcoin⟩
  | cons first coins ih =>
    rw [zipIdx_cons, List.foldlM_cons] at h
    obtain ⟨mid, hstep, hrest⟩ := Option.bind_eq_some_iff.mp h
    obtain ⟨scriptSig, hsign, hset⟩ := Option.bind_eq_some_iff.mp hstep
    obtain ⟨txin, hget, rfl⟩ := Option.map_eq_some_iff.mp hset
    obtain ⟨hunsigned, hsame, hsigned⟩ := ih hrest
    have hset := CTransaction.unsigned_set hget scriptSig
    have hlt := (List.getElem?_eq_some_iff.mp hget).1
    refine ⟨hunsigned.trans hset, fun i hi => ?_, fun j coin hcoin => ?_⟩
    · rw [hsame i (Nat.lt_succ_of_lt hi), getElem?_set_ne (Nat.ne_of_gt hi)]
    · cases j with
      | zero =>
        cases hcoin
        refine ⟨tx, { txin with scriptSig }, rfl, ?_, hsign⟩
        rw [Nat.add_zero, hsame nIn (Nat.lt_succ_self nIn), getElem?_set_self hlt]
      | succ j =>
        obtain ⟨signing, txin', hsigning, hin, hscript⟩ := hsigned j coin hcoin
        rw [Nat.add_right_comm, Nat.add_assoc] at hin hscript
        exact ⟨signing, txin', hsigning.trans hset, hin, hscript⟩

/-- **All inputs are signed**, for a transaction that differs in the scripts only. -/
theorem signCoins_signed (h : wallet.signCoins coins tx = some tx') :
    tx'.unsigned = tx.unsigned ∧ ∀ nIn coin, coins[nIn]? = some coin → ∃ mid txin,
      mid.unsigned = tx.unsigned ∧ tx'.vin[nIn]? = some txin ∧
      wallet.signSignature coin.txout.scriptPubKey mid nIn = some txin.scriptSig := by
  obtain ⟨hunsigned, -, hsigned⟩ := signFrom_signed h
  refine ⟨hunsigned, fun nIn coin hcoin => ?_⟩
  have hin := hsigned nIn coin hcoin
  rwa [Nat.zero_add] at hin

theorem signCoins_some (h : wallet.signCoins coins tx = some tx') :
    SameCoins tx tx' := by
  unfold signCoins at h
  generalize coins.zipIdx = indexed at h
  induction indexed generalizing tx with
  | nil =>
    cases h
    exact ⟨rfl, rfl⟩
  | cons coin indexed ih =>
    rw [List.foldlM_cons] at h
    obtain ⟨mid, hstep, hrest⟩ := Option.bind_eq_some_iff.mp h
    obtain ⟨scriptSig, _, hset⟩ := Option.bind_eq_some_iff.mp hstep
    obtain ⟨txin, hget, rfl⟩ := Option.map_eq_some_iff.mp hset
    exact (SameCoins.setScript hget scriptSig).trans (ih hrest)

end

/-- The parts of a round that ends the loop. -/
structure RoundParts (sha : Sha256 H) (wallet : CWallet H) (settings : WalletSettings)
    (place : PlaceChange sha wallet) (selectCoins : Int64 → Option (CoinSelection sha wallet))
    (wtxNew : CTransaction H) (vecSend : List Recipient) (nSplitBlock : Nat)
    (nValue nFeeRet : Int64) (tx : CTransaction H) (nFee : Int64) where
  vout : List CTxOut
  nRemainder : Int64
  selection : CoinSelection sha wallet
  nChange : Int64
  changed : List CTxOut
  send : sendOutputs settings nSplitBlock vecSend = some (vout, nRemainder)
  select : selectCoins (nValue + nFeeRet) = some selection
  change : changeAndFee selection.nValueRet nValue nRemainder nFeeRet = (nChange, nFee)
  placed : place selection nFeeRet nChange vout = some changed
  sign : wallet.signCoins selection.coins
    { wtxNew with vin := selection.coins.map fun coin => coin.prevout.newInput, vout := changed } = some tx
  size : tx.serializeSize < MAX_BLOCK_SIZE_GEN / 5
  fee : ¬nFee < max (settings.nTransactionFee * (1 + Int64.ofNat tx.serializeSize / 1000))
    (tx.getMinFee 1 .GMF_SEND tx.serializeSize)

variable {nValue nFeeRet nFee : Int64}

/-- **What a round made** when it ends the loop. -/
theorem createRound_created
    (h : createRoundWith sha wallet settings place selectCoins wtxNew vecSend nSplitBlock nValue nFeeRet =
      .created tx nFee) :
    Nonempty (RoundParts sha wallet settings place selectCoins wtxNew vecSend nSplitBlock nValue nFeeRet
      tx nFee) := by
  unfold createRoundWith at h
  split at h
  · cases h
  · rename_i vout nRemainder hsend
    split at h
    · cases h
    · rename_i selection hselect
      simp only at h
      split at h
      · cases h
      · rename_i changed hchange
        split at h
        · cases h
        · rename_i signed hsign
          split at h
          · cases h
          · rename_i hsize
            split at h
            · cases h
            · rename_i hfee
              cases h
              exact ⟨⟨vout, nRemainder, selection, _, changed, hsend, hselect, rfl, hchange, hsign,
                Nat.lt_of_not_le hsize, hfee⟩⟩

/-- What a round asks for when it starts over. -/
theorem createRound_again
    (h : createRoundWith sha wallet settings place selectCoins wtxNew vecSend nSplitBlock nValue nFeeRet =
      .again nFee) : (∃ tx : CTransaction H, tx.serializeSize < MAX_BLOCK_SIZE_GEN / 5 ∧
      nFee = max (settings.nTransactionFee * (1 + Int64.ofNat tx.serializeSize / 1000))
        (tx.getMinFee 1 .GMF_SEND tx.serializeSize)) ∧
      ∃ nValueIn nRemainder, (changeAndFee nValueIn nValue nRemainder nFeeRet).2 < nFee := by
  unfold createRoundWith at h
  split at h
  · cases h
  · rename_i vout nRemainder _
    split at h
    · cases h
    · rename_i selection _
      simp only at h
      split at h
      · cases h
      · split at h
        · cases h
        · rename_i signed _
          split at h
          · cases h
          · rename_i hsize
            split at h
            · rename_i hfee
              cases h
              exact ⟨⟨signed, Nat.lt_of_not_le hsize, rfl⟩, selection.nValueRet, nRemainder, hfee⟩
            · cases h

omit [Ord H] [TransOrd H] [DecidableEq H] in
/-- **The fee loop** ends with one of its rounds, for a fee with every property that
its rounds keep. -/
theorem createLoop_created {round : Int64 → CreateStep H} {keeps : Int64 → Prop} {fuel : Nat}
    {nFeeRet nFee : Int64} (hstart : keeps nFeeRet)
    (hagain : ∀ nFeeRet nFee, keeps nFeeRet → round nFeeRet = .again nFee → keeps nFee)
    (h : createLoop round fuel nFeeRet = some (some tx, nFee)) :
    ∃ nFeeRet, keeps nFeeRet ∧ round nFeeRet = .created tx nFee := by
  induction fuel generalizing nFeeRet with
  | zero => cases h
  | succ fuel ih =>
    rw [createLoop] at h
    split at h
    · cases h
    · rename_i hround
      exact ih (hagain _ _ hstart hround) h
    · rename_i hround
      cases h
      exact ⟨_, hstart, hround⟩

/-- **The round that made the transaction**, for a fee with every property that holds
at the start and that the rounds keep. -/
theorem createTransaction_round (keeps : Int64 → Prop) {fuel : Nat} {nFee : Int64}
    (hstart : keeps (if settings.fSplitBlock then COIN else settings.nTransactionFee))
    (hagain : ∀ (tx : CTransaction H) (nFee : Int64), tx.serializeSize < MAX_BLOCK_SIZE_GEN / 5 →
      nFee = max (settings.nTransactionFee * (1 + Int64.ofNat tx.serializeSize / 1000))
        (tx.getMinFee 1 .GMF_SEND tx.serializeSize) → keeps nFee)
    (h : createTransactionWith sha wallet settings place selectCoins wtxNew vecSend nSplitBlock fuel =
      some (some tx, nFee)) : vecSend.countP (fun s => s.1.head? == some OP_RETURN) ≤ 1 ∧
      ∃ nValue nFeeRet, sendTotal vecSend = some nValue ∧ keeps nFeeRet ∧
        Nonempty (RoundParts sha wallet settings place selectCoins wtxNew vecSend nSplitBlock nValue
          nFeeRet tx nFee) := by
  unfold createTransactionWith at h
  split at h
  · cases h
  · rename_i nValue htotal
    split at h
    · cases h
    · rename_i hmarkers
      have hkeeps : ∀ nFeeRet nFee, keeps nFeeRet →
          createRoundWith sha wallet settings place selectCoins wtxNew vecSend nSplitBlock nValue
            nFeeRet = .again nFee → keeps nFee := by
        intro nFeeRet nFee _ hround
        obtain ⟨⟨other, hsize, hfee⟩, -⟩ := createRound_again hround
        exact hagain other nFee hsize hfee
      obtain ⟨nFeeRet, hkept, hround⟩ := createLoop_created hstart hkeeps h
      exact ⟨Nat.le_of_not_lt hmarkers, nValue, nFeeRet, htotal, hkept, createRound_created hround⟩

/-- **What `CreateTransaction` made.** -/
theorem createTransaction_created {fuel : Nat} {nFee : Int64}
    (h : createTransaction sha wallet settings selectCoins draw wtxNew vecSend nSplitBlock fuel =
      some (some tx, nFee)) : ∃ vout nRemainder, ∃ selection : CoinSelection sha wallet,
      ∃ drawn nChange, sendOutputs settings nSplitBlock vecSend = some (vout, nRemainder) ∧
      tx.vin.map CTxIn.prevout = selection.coins.map COutput.prevout ∧
      wallet.withChange drawn nChange vout = some tx.vout := by
  obtain ⟨-, nValue, nFeeRet, -, -, ⟨parts⟩⟩ :=
    createTransaction_round (fun _ => True) trivial (fun _ _ _ _ => trivial) h
  obtain ⟨hvin, hvout⟩ := signCoins_some parts.sign
  refine ⟨parts.vout, parts.nRemainder, parts.selection, draw nFeeRet, parts.nChange, parts.send,
    ?_, parts.placed.trans (congrArg some hvout.symm)⟩
  rw [hvin, map_map]
  rfl

end CWallet

end MaryJaneCoin
