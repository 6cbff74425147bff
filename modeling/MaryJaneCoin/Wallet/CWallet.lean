import MaryJaneCoin.Chain.MemPool
import MaryJaneCoin.Lib.OptionLoop
import MaryJaneCoin.Lib.WrappedSum

/-!
# The transparent wallet of `wallet.h` and `wallet.cpp`

What `CWallet` knows about coins: which scripts and outputs are its own, which
outputs it can spend, and the loop that signs every input of its own.  Which
scripts are the wallet's and what it signs with are functions here, since the
key store decides them.
-/

namespace MaryJaneCoin

open List hiding Vector
open Std Fallible

def OP_DUP : UInt8 := 0x76
def OP_EQUALVERIFY : UInt8 := 0x88

abbrev CKeyID := Vector UInt8 20

inductive CTxDestination where
  | CNoDestination
  | keyID (keyID : CKeyID)
  | scriptID (scriptID : Vector UInt8 20)
deriving DecidableEq

def CScript.setDestination : CTxDestination → CScript
  | .CNoDestination => []
  | .keyID keyID =>
    [OP_DUP, OP_HASH160] ++ pushData keyID.toList ++ [OP_EQUALVERIFY, OP_CHECKSIG]
  | .scriptID scriptID => [OP_HASH160] ++ pushData scriptID.toList ++ [OP_EQUAL]

/-- `CWalletTx`, with what the chain says about it.  Its outputs are counted by
an `unsigned int`. -/
structure CWalletTx (H : Type) extends CTransaction H where
  vfSpent : List Bool
  fFinal : Bool
  nDepthInMainChain : Int
  nBlocksToMaturity : Int
  vout_lt : vout.length < 2 ^ 32

/-- `CWallet`, as far as payments read it.  A key that was reserved or taken
from the pool is a key of the wallet. -/
structure CWallet (H : Type) [Ord H] where
  mapWallet : ExtTreeMap H (CWalletTx H)
  /-- `IsMine(*this, scriptPubKey)`. -/
  isMine : CScript → Bool
  /-- `SignSignature` with the keys of the wallet: the script that an input of a
  transaction gets. -/
  signSignature : CScript → CTransaction H → Nat → Option CScript
  isLocked : Bool
  nMinimumInputValue : Int64
  reservedKey : Option CKeyID
  keyFromPool : Option CKeyID
  reservedKey_mine : ∀ keyID ∈ reservedKey, isMine (CScript.setDestination (.keyID keyID)) = true
  keyFromPool_mine : ∀ keyID ∈ keyFromPool, isMine (CScript.setDestination (.keyID keyID)) = true

/-- `COutput`: where the output stands, the output and its depth. -/
structure COutput (H : Type) where
  prevout : COutPoint H
  txout : CTxOut
  nDepth : Int
deriving DecidableEq

section

variable {H : Type}

def CWalletTx.isConfirmed (wtx : CWalletTx H) : Bool := wtx.fFinal && 1 ≤ wtx.nDepthInMainChain

def CWalletTx.isSpent (wtx : CWalletTx H) (nOut : Nat) : Bool := wtx.vfSpent[nOut]?.getD false

/-- `CTxIn(hash, n)`. -/
def COutPoint.newInput (prevout : COutPoint H) : CTxIn H := ⟨prevout, [], 0xffffffff⟩

/-- `GetRandInt`, for this draw. -/
def getRandInt (draw nMax : Nat) : Nat := if nMax = 0 then 0 else draw % nMax

theorem getRandInt_lt (draw : Nat) {nMax : Nat} (hpos : 0 < nMax) : getRandInt draw nMax < nMax := by
  rw [getRandInt, if_neg (Nat.ne_of_gt hpos)]
  exact Nat.mod_lt draw hpos

theorem getRandInt_le (draw nMax : Nat) : getRandInt draw nMax ≤ nMax := by
  rw [getRandInt]
  split
  · exact Nat.zero_le nMax
  · rename_i hne
    exact Nat.le_of_lt (Nat.mod_lt draw (Nat.pos_of_ne_zero hne))

/-- The value of an output that was looked for. -/
def foundValue (txout : Option CTxOut) : Int64 := (txout.map CTxOut.nValue).getD 0

end

namespace CWallet

variable {H : Type} [Ord H] [TransOrd H] (wallet : CWallet H)

/-- The output that an input spends, if the wallet has its transaction. -/
def prevOut (prevout : COutPoint H) : Option CTxOut :=
  wallet.mapWallet[prevout.hash]?.bind fun wtxPrev => wtxPrev.vout[prevout.n.toNat]?

/-- The output that an input spends, if it is the wallet's own:
`CWallet::IsMine(const CTxIn&)` and the loops that repeat its test. -/
def ownOut (prevout : COutPoint H) : Option CTxOut :=
  (wallet.prevOut prevout).filter fun txout => wallet.isMine txout.scriptPubKey

/-- `CWallet::GetDebit(const CTxIn&)`. -/
def getDebit (txin : CTxIn H) : Int64 := foundValue (wallet.ownOut txin.prevout)

omit [TransOrd H] in
/-- The value of an output that is the wallet's own. -/
def ownValue (txout : CTxOut) : Int64 := if wallet.isMine txout.scriptPubKey then txout.nValue else 0

/-- The spendable outputs of one transaction of the wallet. -/
def spendable [DecidableEq H] (sha : Sha256 H) (fOnlyConfirmed : Bool) (hash : H)
    (wtx : CWalletTx H) : List (COutput H) :=
  if !wtx.fFinal || (fOnlyConfirmed && !wtx.isConfirmed) ||
      (wtx.isCoinBase sha && 0 < wtx.nBlocksToMaturity) ||
      (wtx.isCoinStake sha && 0 < wtx.nBlocksToMaturity) || wtx.nDepthInMainChain < 0 then []
  else
    (wtx.vout.zipIdx.filter fun (txout, i) => !wtx.isSpent i && wallet.isMine txout.scriptPubKey &&
      !(txout.nValue < wallet.nMinimumInputValue)).map fun (txout, i) =>
        ⟨⟨hash, UInt32.ofNat i⟩, txout, wtx.nDepthInMainChain⟩

/-- `CWallet::AvailableCoins` without coin control. -/
def availableCoins [DecidableEq H] (sha : Sha256 H) (fOnlyConfirmed : Bool) : List (COutput H) :=
  wallet.mapWallet.toList.flatMap fun (hash, wtx) => wallet.spendable sha fOnlyConfirmed hash wtx

/-- One step of the signing loop: an input of the wallet's own is signed.  The
error is the input that could not be signed. -/
def signInput (tx : CTransaction H) (i : Nat) : Except Nat (CTransaction H) :=
  match tx.vin[i]? with
  | none => .ok tx
  | some txin =>
    match wallet.ownOut txin.prevout with
    | none => .ok tx
    | some txout =>
      match wallet.signSignature txout.scriptPubKey tx i with
      | none => .error i
      | some scriptSig => .ok { tx with vin := tx.vin.set i { txin with scriptSig } }

/-- The loop of `CreateProposal` and `SignAndBroadcast` that signs every input
of the wallet's own. -/
def signOwn (tx : CTransaction H) : Except Nat (CTransaction H) :=
  (List.range tx.vin.length).foldlM wallet.signInput tx

/-- `GetAvailableCredit` of a transaction of the wallet, without its cache;
`none` is the exception. -/
def getAvailableCredit [DecidableEq H] (sha : Sha256 H) (wtx : CWalletTx H) : Option Int64 :=
  if (wtx.isCoinBase sha || wtx.isCoinStake sha) && 0 < wtx.nBlocksToMaturity then some 0
  else
    (wtx.vout.zipIdx.filter fun (_, i) => !wtx.isSpent i).foldlM (fun nCredit (txout, _) =>
      if !moneyRange txout.nValue || !moneyRange (nCredit + wallet.ownValue txout) then none
      else some (nCredit + wallet.ownValue txout)) 0

def getBalance [DecidableEq H] (sha : Sha256 H) : Option Int64 :=
  (wallet.mapWallet.toList.filter fun (_, wtx) => wtx.fFinal && wtx.isConfirmed).foldlM
    (fun nTotal (_, wtx) => (wallet.getAvailableCredit sha wtx).map (nTotal + ·)) 0

variable {wallet} {sha : Sha256 H} {fOnlyConfirmed : Bool} {coin coin' : COutput H}

/-- **An available coin** is an output of a transaction of the wallet, and the
wallet's own. -/
theorem mem_availableCoins [LawfulEqOrd H] [DecidableEq H]
    (h : coin ∈ wallet.availableCoins sha fOnlyConfirmed) :
    ∃ wtx, wallet.mapWallet[coin.prevout.hash]? = some wtx ∧
      wtx.vout[coin.prevout.n.toNat]? = some coin.txout ∧
      wallet.isMine coin.txout.scriptPubKey = true ∧ coin.nDepth = wtx.nDepthInMainChain := by
  obtain ⟨⟨hash, wtx⟩, hwtx, h⟩ := mem_flatMap.mp h
  rw [ExtTreeMap.mem_toList_iff_getElem?_eq_some] at hwtx
  simp only [spendable] at h
  split at h
  · cases h
  · obtain ⟨⟨txout, i⟩, hout, rfl⟩ := mem_map.mp h
    obtain ⟨hzip, hmine⟩ := mem_filter.mp hout
    have hget := mem_zipIdx_iff_getElem?.mp hzip
    have hlt : i < 2 ^ 32 := Nat.lt_trans (List.getElem?_eq_some_iff.mp hget).1 wtx.vout_lt
    simp only [Bool.and_eq_true] at hmine
    refine ⟨wtx, hwtx, ?_, hmine.1.2, rfl⟩
    rw [UInt32.toNat_ofNat_of_lt' hlt]
    exact hget

theorem ownOut_of_mem_availableCoins [LawfulEqOrd H] [DecidableEq H]
    (h : coin ∈ wallet.availableCoins sha fOnlyConfirmed) : wallet.ownOut coin.prevout = some coin.txout := by
  obtain ⟨wtx, hwtx, hget, hmine, _⟩ := mem_availableCoins h
  rw [ownOut, prevOut, hwtx, Option.bind_some, hget, Option.filter_some, hmine, if_pos rfl]

theorem eq_of_mem_availableCoins [LawfulEqOrd H] [DecidableEq H]
    (h : coin ∈ wallet.availableCoins sha fOnlyConfirmed)
    (h' : coin' ∈ wallet.availableCoins sha fOnlyConfirmed) (heq : coin.prevout = coin'.prevout) :
    coin = coin' := by
  obtain ⟨wtx, hwtx, hget, _, hdepth⟩ := mem_availableCoins h
  obtain ⟨wtx', hwtx', hget', _, hdepth'⟩ := mem_availableCoins h'
  obtain ⟨prevout, txout, nDepth⟩ := coin
  obtain ⟨prevout', txout', nDepth'⟩ := coin'
  cases heq
  cases hwtx.symm.trans hwtx'
  cases hget.symm.trans hget'
  cases hdepth.trans hdepth'.symm
  rfl

variable {tx signed : CTransaction H}

/-- Two transactions that spend the same outputs in the same order and make the
same outputs. -/
structure SameCoins (tx signed : CTransaction H) : Prop where
  vin : signed.vin.map CTxIn.prevout = tx.vin.map CTxIn.prevout
  vout : signed.vout = tx.vout

omit [Ord H] [TransOrd H] in
theorem SameCoins.trans {mid : CTransaction H} (h : SameCoins tx mid) (h' : SameCoins mid signed) :
    SameCoins tx signed := ⟨h'.vin.trans h.vin, h'.vout.trans h.vout⟩

omit [Ord H] [TransOrd H] in
theorem SameCoins.setScript {i : Nat} {txin : CTxIn H} (hget : tx.vin[i]? = some txin)
    (scriptSig : CScript) :
    SameCoins tx { tx with vin := tx.vin.set i { txin with scriptSig } } where
  vin := by
    obtain ⟨hlt, rfl⟩ := List.getElem?_eq_some_iff.mp hget
    rw [map_set]
    exact (congrArg _ (getElem_map _).symm).trans (set_getElem_self (by simpa using hlt))
  vout := rfl

/-- **A signing step** changes scripts only. -/
theorem signInput_ok {i : Nat} (h : wallet.signInput tx i = .ok signed) : SameCoins tx signed := by
  unfold signInput at h
  split at h
  · cases h
    exact ⟨rfl, rfl⟩
  · rename_i txin hget
    split at h
    · cases h
      exact ⟨rfl, rfl⟩
    · split at h
      · cases h
      · cases h
        exact SameCoins.setScript hget _

theorem signInput_frame {i j : Nat} (h : wallet.signInput tx i = .ok signed) (hne : i ≠ j) :
    signed.vin[j]? = tx.vin[j]? := by
  unfold signInput at h
  split at h
  · cases h
    rfl
  · split at h
    · cases h
      rfl
    · split at h
      · cases h
      · cases h
        exact getElem?_set_ne hne

theorem signInput_signs {i : Nat} {txin : CTxIn H} {txout : CTxOut}
    (h : wallet.signInput tx i = .ok signed) (hget : signed.vin[i]? = some txin)
    (hown : wallet.ownOut txin.prevout = some txout) :
    wallet.signSignature txout.scriptPubKey tx i = some txin.scriptSig := by
  have hvin := congrArg (·[i]?) (signInput_ok h).vin
  unfold signInput at h
  split at h
  · rename_i hnone
    cases h
    rw [hnone] at hget
    cases hget
  · rename_i first hfirst
    have hprevout : txin.prevout = first.prevout := by
      simp only [getElem?_map, hget, hfirst, Option.map_some, Option.some.injEq] at hvin
      exact hvin
    rw [hprevout] at hown
    split at h
    · rename_i hnone
      rw [hown] at hnone
      cases hnone
    · rename_i own hsome
      cases hown.symm.trans hsome
      split at h
      · cases h
      · rename_i scriptSig hsign
        cases h
        rw [getElem?_set_self (List.getElem?_eq_some_iff.mp hfirst).1] at hget
        cases hget
        exact hsign

/-- **The signing loop** changes scripts only. -/
theorem signInputs_ok {indices : List Nat}
    (h : indices.foldlM wallet.signInput tx = .ok signed) : SameCoins tx signed := by
  induction indices generalizing tx with
  | nil =>
    cases h
    exact ⟨rfl, rfl⟩
  | cons i indices ih =>
    rw [List.foldlM_cons, bind_eq_ok] at h
    obtain ⟨mid, hstep, hrest⟩ := h
    exact (signInput_ok hstep).trans (ih hrest)

theorem signOwn_ok (h : wallet.signOwn tx = .ok signed) : SameCoins tx signed := signInputs_ok h

theorem signInputs_frame {indices : List Nat} {j : Nat}
    (h : indices.foldlM wallet.signInput tx = .ok signed) (hout : j ∉ indices) :
    signed.vin[j]? = tx.vin[j]? := by
  induction indices generalizing tx with
  | nil =>
    cases h
    rfl
  | cons i indices ih =>
    rw [List.foldlM_cons, bind_eq_ok] at h
    obtain ⟨mid, hstep, hrest⟩ := h
    rw [List.mem_cons, not_or] at hout
    rw [ih hrest hout.2, signInput_frame hstep (Ne.symm hout.1)]

/-- Every input of the wallet's own is signed, over a transaction that differs
in scripts only. -/
def AllSigned (wallet : CWallet H) (signed : CTransaction H) : Prop :=
  ∀ (i : Nat) (txin : CTxIn H) (txout : CTxOut), signed.vin[i]? = some txin →
    wallet.ownOut txin.prevout = some txout →
    ∃ mid, SameCoins mid signed ∧
      wallet.signSignature txout.scriptPubKey mid i = some txin.scriptSig

/-- **What the signing loop signs.** -/
theorem signOwn_allSigned (h : wallet.signOwn tx = .ok signed) : wallet.AllSigned signed := by
  intro i txin txout hget hown
  have hlength : tx.vin.length = signed.vin.length := by
    have hsame := congrArg List.length (signOwn_ok h).vin
    rw [length_map, length_map] at hsame
    exact hsame.symm
  have hmem : i ∈ List.range tx.vin.length := by
    rw [mem_range, hlength]
    exact (List.getElem?_eq_some_iff.mp hget).1
  obtain ⟨pre, post, hsplit⟩ := append_of_mem hmem
  have hnodup := nodup_range (n := tx.vin.length)
  unfold signOwn at h
  rw [hsplit] at h hnodup
  rw [nodup_middle, nodup_cons, mem_append, not_or] at hnodup
  rw [List.foldlM_append, bind_eq_ok] at h
  obtain ⟨before, hpre, h⟩ := h
  rw [List.foldlM_cons, bind_eq_ok] at h
  obtain ⟨after, hstep, hpost⟩ := h
  refine ⟨before, (signInput_ok hstep).trans (signInputs_ok hpost), signInput_signs hstep ?_ hown⟩
  rw [← signInputs_frame hpost hnodup.1.2]
  exact hget

/-- What the inputs are worth depends on what they spend. -/
theorem exact_getDebit (vin : List (CTxIn H)) : WrappedSum.exact wallet.getDebit vin =
      WrappedSum.exact (fun prevout => foundValue (wallet.ownOut prevout)) (vin.map CTxIn.prevout) := by
  rw [WrappedSum.exact, WrappedSum.exact, map_map]
  rfl

end CWallet

/-- What the node has of the chain. -/
structure ChainView (H : Type) [Ord H] where
  mempool : CTxMemPool H
  node : Node H
  env : Env H

namespace ChainView

variable {H : Type} [Ord H] [TransOrd H] (chain : ChainView H)

/-- `GetTransaction`, from the pool or from disk. -/
def getTransaction (hash : H) : Option (CTransaction H) :=
  chain.mempool.mapTx[hash]?.or
    ((chain.node.txdb.readTxIndex hash).bind fun txindex =>
      (chain.node.readTxFromDisk chain.env txindex.pos).filter fun tx => !tx.vout.isEmpty)

/-- The output that an input spends, if `GetTransaction` finds it. -/
def prevOut (prevout : COutPoint H) : Option CTxOut :=
  (chain.getTransaction prevout.hash).bind fun txPrev => txPrev.vout[prevout.n.toNat]?

end ChainView

/-- The script that pays this key. -/
def payTo (key : UInt8) : CScript := CScript.setDestination (.keyID (Vector.replicate 20 key))

theorem payTo_one_mine : ∀ keyID ∈ some (Vector.replicate 20 (1 : UInt8)),
    (CScript.setDestination (.keyID keyID) == payTo 1) = true := by
  intro keyID hkey
  cases hkey
  exact beq_self_eq_true _

theorem noKey_mine : ∀ keyID ∈ (none : Option CKeyID),
    (CScript.setDestination (.keyID keyID) == payTo 1) = true := by
  intro keyID hkey
  cases hkey

/-- A mature coinbase that pays this key. -/
def sampleCoin (nHeight : Nat) (nValue : Int64) (key : UInt8) : CWalletTx (List Nat) where
  toCTransaction := sampleCoinbase nHeight [⟨nValue, payTo key⟩]
  vfSpent := []
  fFinal := true
  nDepthInMainChain := 800
  nBlocksToMaturity := 0
  vout_lt := by
    show (1 : Nat) < 2 ^ 32
    decide

/-- Where the output of a sample coin stands. -/
def CWalletTx.outPoint (wtx : CWalletTx (List Nat)) : COutPoint (List Nat) :=
  ⟨wtx.getHash sampleConsensus.toSha256, 0⟩

/-- A wallet with the key 1 and these transactions; it signs with a constant. -/
def sampleCWallet (coins : List (CWalletTx (List Nat))) : CWallet (List Nat) where
  mapWallet := coins.foldl (fun mapWallet wtx => mapWallet.insert wtx.outPoint.hash wtx) ∅
  isMine script := script == payTo 1
  signSignature _ _ _ := some [1]
  isLocked := false
  nMinimumInputValue := 0
  reservedKey := some (Vector.replicate 20 1)
  keyFromPool := some (Vector.replicate 20 1)
  reservedKey_mine := payTo_one_mine
  keyFromPool_mine := payTo_one_mine

/-- A node with these transactions, each alone in its block. -/
def sampleView (coins : List (CWalletTx (List Nat))) : ChainView (List Nat) where
  mempool := CTxMemPool.empty
  env := sampleEnv 0
  node :=
    { txdb :=
        { pdb :=
            { txindex := coins.zipIdx.foldl (fun txindex coin => txindex.insert coin.1.outPoint.hash
                (CTxIndex.new ⟨1, 1000 * coin.2, (sampleBlock coin.2 transparent.zero
                  [coin.1.toCTransaction]).firstTxPos (1000 * coin.2)⟩ 1)) ∅
              blockindex := ∅
              hashBestChain := none }
          activeBatch := none }
      blockFiles := fun _ nBlockPos => coins[nBlockPos / 1000]?.map fun wtx =>
        sampleBlock (nBlockPos / 1000) transparent.zero [wtx.toCTransaction]
      mapBlockIndex := ∅
      pnext := ∅
      nMint := ∅
      nMoneySupply := ∅
      setStakeSeen := ∅
      pindexGenesisBlock := []
      hashBestChain := transparent.zero
      pindexBest := [⟨transparent.zero, 1, 900000, 0, 900, false, ⟨transparent.zero, 0⟩, 0, 900⟩]
      nBestHeight := 900
      nBestChainTrust := 0
      g_mwState := CMWState.empty sampleConsensus.toSha256 }

end MaryJaneCoin
