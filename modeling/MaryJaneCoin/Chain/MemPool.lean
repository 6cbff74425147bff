import MaryJaneCoin.Chain.ConnectBlock

/-!
# The memory pool

`CTxMemPool` with its two maps.  `mapNextTx` holds pointers to entries of
`mapTx`; a pointer is modelled by the key of the entry it was taken from.

`remove` is recursive along the spend graph, so it takes a bound on the depth
of the recursion.  It returns `none` when the bound is exceeded, and also when
it would follow a pointer to an entry that is gone.
-/

namespace MaryJaneCoin

open Std

section

variable {H : Type} [Ord H]

/-- `operator<` of `COutPoint`: by hash, then by position. -/
instance : Ord (COutPoint H) where
  compare := compareLex (compareOn COutPoint.hash) (compareOn COutPoint.n)

instance [TransOrd H] : TransOrd (COutPoint H) :=
  inferInstanceAs (TransCmp (compareLex (compareOn COutPoint.hash) (compareOn COutPoint.n)))

instance [LawfulEqOrd H] : LawfulEqOrd (COutPoint H) where
  compare_self := by
    intro o
    show (compare o.hash o.hash).then (compare o.n o.n) = .eq
    simp
  eq_of_compare := by
    intro a b heq
    have hthen : (compare a.hash b.hash).then (compare a.n b.n) = .eq := heq
    obtain ⟨hhash, hn⟩ := Ordering.then_eq_eq.mp hthen
    obtain ⟨hash, n⟩ := a
    obtain ⟨hash', n'⟩ := b
    cases LawfulEqCmp.eq_of_compare hhash
    cases LawfulEqCmp.eq_of_compare hn
    rfl

end

/-- `CInPoint`: the key of the entry that `ptx` points to, and the input. -/
structure CInPoint (H : Type) where
  ptx : H
  n : Nat
deriving DecidableEq

structure CTxMemPool (H : Type) [Ord H] where
  mapTx : ExtTreeMap H (CTransaction H)
  mapNextTx : ExtTreeMap (COutPoint H) (CInPoint H)

/-- What `accept` takes from elsewhere: the network, the standard script
templates, and the limiter for transactions with a low fee. -/
structure RelayPolicy (H : Type) [Ord H] where
  fTestNet : Bool
  /-- `CTransaction::IsStandard`. -/
  isStandard : CTransaction H → Bool
  /-- `CTransaction::AreInputsStandard`. -/
  areInputsStandard : CTransaction H → MapPrevTx H → Bool
  /-- Whether the rate limiter lets the transaction through. -/
  withinRate : CTransaction H → Bool

/-- `operator==` of `CTransaction`, which leaves the Mimblewimble part out. -/
def CTransaction.sameAs {H : Type} [DecidableEq H] (a b : CTransaction H) : Bool :=
  a.nVersion == b.nVersion && a.nTime == b.nTime && a.vin == b.vin && a.vout == b.vout &&
    a.nLockTime == b.nLockTime

namespace CTxMemPool

variable {H : Type} [Ord H]

/-- The pool at the start, and what `clear` leaves. -/
def empty : CTxMemPool H := ⟨∅, ∅⟩

variable [TransOrd H]

def clear (_pool : CTxMemPool H) : CTxMemPool H := empty

/-- The loop of `addUnchecked` over the inputs. -/
def addInputs (hash : H) (mapNextTx : ExtTreeMap (COutPoint H) (CInPoint H))
    (vin : List (CTxIn H)) : ExtTreeMap (COutPoint H) (CInPoint H) :=
  vin.zipIdx.foldl (fun mapNextTx input => mapNextTx.insert input.1.prevout ⟨hash, input.2⟩)
    mapNextTx

def addUnchecked (pool : CTxMemPool H) (hash : H) (tx : CTransaction H) : CTxMemPool H where
  mapTx := pool.mapTx.insert hash tx
  mapNextTx := addInputs hash pool.mapNextTx tx.vin

/-- The end of `remove`: the inputs and the entry are erased. -/
def eraseTx (pool : CTxMemPool H) (hash : H) (tx : CTransaction H) : CTxMemPool H where
  mapTx := pool.mapTx.erase hash
  mapNextTx := (tx.vin.map CTxIn.prevout).foldl (fun mapNextTx prevout => mapNextTx.erase prevout)
    pool.mapNextTx

/-- The transaction that spends an output according to `mapNextTx`; `none` when
there is none, `some none` when the pointer leads nowhere. -/
def spender (pool : CTxMemPool H) (prevout : COutPoint H) : Option (Option (CTransaction H)) :=
  pool.mapNextTx[prevout]?.map fun inpoint => pool.mapTx[inpoint.ptx]?

/-- One round of the output loop of `remove`, with the recursive call given. -/
def removeSpender (removeNext : CTxMemPool H → CTransaction H → Option (CTxMemPool H)) (hash : H)
    (pool : CTxMemPool H) (i : Nat) : Option (CTxMemPool H) :=
  match pool.spender ⟨hash, UInt32.ofNat i⟩ with
  | none => some pool
  | some ptx => ptx.bind (removeNext pool)

section

variable (sha : Sha256 H)

def remove : Nat → CTxMemPool H → CTransaction H → Bool → Option (CTxMemPool H)
  | 0, _, _, _ => none
  | depth + 1, pool, tx, fRecursive =>
    let hash := tx.getHash sha
    if hash ∈ pool.mapTx then
      let removed :=
        if fRecursive then
          (List.range tx.vout.length).foldlM
            (removeSpender (fun pool next => remove depth pool next true) hash) pool
        else some pool
      removed.map fun pool => pool.eraseTx hash tx
    else some pool

variable [DecidableEq H]

/-- One round of `removeConflicts`. -/
def removeConflict (depth : Nat) (tx : CTransaction H) (pool : CTxMemPool H) (txin : CTxIn H) :
    Option (CTxMemPool H) :=
  match pool.spender txin.prevout with
  | none => some pool
  | some ptx => ptx.bind fun txConflict =>
    if !txConflict.sameAs tx then pool.remove sha depth txConflict true else some pool

def removeConflicts (depth : Nat) (pool : CTxMemPool H) (tx : CTransaction H) :
    Option (CTxMemPool H) :=
  tx.vin.foldlM (removeConflict sha depth tx) pool

end

/-- `FetchInputs` outside of blocks: one previous transaction with its index
entry.  A transaction that the database does not have is looked up in the pool,
with all of its outputs unspent. -/
def fetchInput (pool : CTxMemPool H) (s : Node H) (env : Env H) (inputs : MapPrevTx H)
    (txin : CTxIn H) : Option (MapPrevTx H) :=
  if txin.prevout.hash ∈ inputs then some inputs
  else
    match s.txdb.readTxIndex txin.prevout.hash with
    | none => pool.mapTx[txin.prevout.hash]?.map fun txPrev =>
      inputs.insert txin.prevout.hash (CTxIndex.new ⟨0xffffffff, 0, 0⟩ txPrev.vout.length, txPrev)
    | some txindex =>
      (if txindex.pos = ⟨1, 1, 1⟩ then pool.mapTx[txin.prevout.hash]?
        else s.readTxFromDisk env txindex.pos).map fun txPrev =>
          inputs.insert txin.prevout.hash (txindex, txPrev)

/-- `FetchInputs` outside of blocks. -/
def fetchInputs (pool : CTxMemPool H) (s : Node H) (env : Env H) (tx : CTransaction H) :
    Option (MapPrevTx H) :=
  (tx.vin.foldlM (pool.fetchInput s env) ∅).filter fun inputs =>
    tx.vin.all (CTransaction.inRange inputs)

variable [DecidableEq H] (c : Consensus H)

/-- The rules of `accept` that need neither the pool nor the inputs. -/
def checkRules (s : Node H) (policy : RelayPolicy H) (tx : CTransaction H) : Bool :=
  tx.checkTransaction c.toMWCrypto && !tx.isCoinBase c.toSha256 && !tx.isCoinStake c.toSha256 &&
    (s.nBestHeight < STEALTH_MANDATORY_HEIGHT || tx.hasStealthMarker ||
      (s.nBestHeight ≥ TWO_POOL_ACTIVATION_HEIGHT && tx.hasPegoutMarker)) &&
    (s.nBestHeight < RING_MIXING_MANDATORY_HEIGHT || tx.hasPegoutMarker ||
      Node.maxEqualOutputs tx ≥ RING_MIXING_MIN_EQUAL_OUTPUTS) &&
    tx.checkCanonicalStructure c.toSha256 s.nBestHeight.toNat && tx.nLockTime.toNat < 2 ^ 31 &&
    (policy.fTestNet || policy.isStandard tx)

/-- The fee rule of `accept`. -/
def checkFee (s : Node H) (policy : RelayPolicy H) (tx : CTransaction H) (nFees : Int64) : Bool :=
  let nRelayFee := tx.getMinFee 1000 .GMF_RELAY tx.serializeSize
  let txTierFee := tx.getTxTypeFeeFloor c.toSha256 s.nBestHeight.toNat
  let txMinFee := if txTierFee > nRelayFee then txTierFee else nRelayFee
  !(nFees < txMinFee) && (!(nFees < MIN_RELAY_TX_FEE) || policy.withinRate tx)

/-- The input checks of `accept`.  Outside of blocks `ConnectInputs` verifies
every signature, as it does in blocks from the last checkpoint on. -/
def checkInputs (pool : CTxMemPool H) (s : Node H) (env : Env H) (policy : RelayPolicy H)
    (tx : CTransaction H) : Bool :=
  (pool.fetchInputs s env tx).any fun mapInputs =>
    (policy.areInputsStandard tx mapInputs || policy.fTestNet) &&
      ((CTransaction.valueMapIn mapInputs tx.vin).any fun nValueIn =>
        tx.getValueOut.any fun nValueOut => checkFee c s policy tx (nValueIn - nValueOut)) &&
      match s.pindexBest with
      | [] => false
      | pindexBest :: pprev =>
        (tx.connectInputs c mapInputs ∅ ⟨1, 1, 1⟩ pindexBest pprev
          c.getTotalBlocksEstimate).isSome

/-- `CTxMemPool::accept`.  A transaction that spends what a transaction of the
pool spends is refused; the code behind that `return` is not reached. -/
def accept (pool : CTxMemPool H) (s : Node H) (env : Env H) (policy : RelayPolicy H)
    (tx : CTransaction H) (fCheckInputs : Bool) : Bool × CTxMemPool H :=
  let hash := tx.getHash c.toSha256
  if !checkRules c s policy tx then (false, pool)
  else if hash ∈ pool.mapTx then (false, pool)
  else if fCheckInputs && (s.txdb.readTxIndex hash).isSome then (false, pool)
  else if tx.vin.any fun txin => pool.mapNextTx.contains txin.prevout then (false, pool)
  else if fCheckInputs && !pool.checkInputs c s env policy tx then (false, pool)
  else (true, pool.addUnchecked hash tx)

end CTxMemPool

/-- A policy that lets every transaction through. -/
def sampleRelay : RelayPolicy (List Nat) where
  fTestNet := false
  isStandard _ := true
  areInputsStandard _ _ := true
  withinRate _ := true

end MaryJaneCoin
