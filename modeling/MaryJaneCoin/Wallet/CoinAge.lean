import MaryJaneCoin.Wallet.SelectedCoins

/-!
# `CWallet::SelectCoinsMinConfByCoinAge`

Coins that are together worth a target are selected so that little coin age is lost.  Values are
scaled by their greatest common divisor or, where that would take too long, by an
approximation.  Coins that are small then are packed into bundles.  Which coins to leave
out is a knapsack, solved by dynamic programming.

A read outside of a vector or a matrix, and a matrix of a negative size or with more columns than
the loops can count, is `none`.
-/

namespace MaryJaneCoin

/-- An element of `vValue`: value and cost, and which coin it is. -/
structure ValuedCoin (C : Type) where
  nValue : Int64
  nCost : Int64
  coin : C
deriving DecidableEq

/-- `CoinWeightCost`, at a time.  `getuint64` takes the low bits of the magnitude. -/
def coinWeightCost {C : Type} (nStakeMaxAge : UInt32) (nNow : Int64) (out : CoinToSpend C) : UInt64 :=
  let nTimeWeight := min (nNow - out.nTime.toUInt64.toInt64) nStakeMaxAge.toUInt64.toInt64
  let bnCoinDayWeight := (out.nValue.toInt * nTimeWeight.toInt).tdiv (24 * 60 * 60)
  UInt64.ofNat bnCoinDayWeight.natAbs

def gcd (n m : Int64) : Int64 := if m = 0 then n else gcd m (n % m)
termination_by m.toInt.natAbs
decreasing_by
  rename_i hne
  rw [Int64.toInt_mod, Int.natAbs_tmod]
  refine Nat.mod_lt _ (Int.natAbs_pos.mpr fun hzero => hne ?_)
  exact Int64.toInt_inj.mp hzero

/-- What the loop over `mCoins` collects. -/
structure CoinScan (C : Type) where
  vValue : List (ValuedCoin C)
  nTotalLower : Int64
  coinLowestLarger : Option (ValuedCoin C)

section

variable {C : Type}

/-- One round of the loop over `mCoins`. -/
def scanCoin (nTargetValue : Int64) (nSpendTime : UInt32) (nConfMine nConfTheirs : Int)
    (s : CoinScan C) (output : CoinToSpend C × UInt64) : CoinScan C :=
  if !output.1.eligible nSpendTime nConfMine nConfTheirs then s
  else
    let coin : ValuedCoin C := ⟨output.1.nValue, output.2.toInt64, output.1.coin⟩
    if coin.nValue < nTargetValue + CENT then
      { s with vValue := s.vValue ++ [coin], nTotalLower := s.nTotalLower + coin.nValue }
    else if output.2 < (s.coinLowestLarger.elim Int64.maxValue ValuedCoin.nCost).toUInt64 then
      { s with coinLowestLarger := some coin }
    else s

/-- The loop over `mCoins`, for the costs of the coins and the order that `boost::sort` puts them
in. -/
def scanCoins (arrange : List (CoinToSpend C × UInt64) → List (CoinToSpend C × UInt64))
    (cost : CoinToSpend C → UInt64) (nTargetValue : Int64) (nSpendTime : UInt32)
    (nConfMine nConfTheirs : Int) (vCoins : List (CoinToSpend C)) : CoinScan C :=
  (arrange (vCoins.map fun out => (out, cost out))).foldl
    (scanCoin nTargetValue nSpendTime nConfMine nConfTheirs) ⟨[], 0, none⟩

/-- `vValue` with the bundles written over its small coins, and where the bundles end. -/
structure CoinBundles (C : Type) where
  vValue : List (ValuedCoin C)
  nBeginBundles : Nat
  nTotalCoinValues : Nat
  vZeroValueBundles : List Nat

/-- The bundles so far, and the value and the cost of the next one. -/
structure BundleScan (C : Type) extends CoinBundles C where
  nValue : Int64
  nCost : Int64

/-- One round of the loop that packs bundles, for the coin at `itZeroValue`. -/
def packCoin (denom : Int64) (s : BundleScan C) (itZeroValue : Nat) : Option (BundleScan C) :=
  s.vValue[itZeroValue]?.bind fun coin =>
    let nValue := s.nValue + coin.nValue
    let nCost := s.nCost + coin.nCost
    if nValue ≥ denom then
      s.vValue[s.nTotalCoinValues]?.map fun old =>
        { vValue := s.vValue.set s.nTotalCoinValues { old with nValue, nCost }
          nBeginBundles := s.nBeginBundles
          nTotalCoinValues := s.nTotalCoinValues + 1
          vZeroValueBundles := s.vZeroValueBundles ++ [itZeroValue + 1]
          nValue := 0
          nCost := 0 }
    else some { s with nValue, nCost }

/-- The coins with the large ones first, and bundles of the small ones. -/
def packBundles (denom : Int64) (vValue : List (ValuedCoin C)) : Option (CoinBundles C) :=
  let large := vValue.filter fun v => v.nValue ≥ denom
  let small := vValue.filter fun v => !(v.nValue ≥ denom)
  let start : BundleScan C :=
    { vValue := large ++ small
      nBeginBundles := large.length
      nTotalCoinValues := large.length
      vZeroValueBundles := [large.length]
      nValue := 0
      nCost := 0 }
  ((List.range' large.length small.length).foldlM (packCoin denom) start).map
    BundleScan.toCoinBundles

namespace CoinBundles

/-- All coins on their own. -/
def unpacked (vValue : List (ValuedCoin C)) : CoinBundles C := ⟨vValue, vValue.length, vValue.length, []⟩

def bundleCoins (p : CoinBundles C) (nBundle : Nat) : Option (List C) := do
  let first ← p.vZeroValueBundles[nBundle]?
  let last ← p.vZeroValueBundles[nBundle + 1]?
  if first ≤ last ∧ last ≤ p.vValue.length then
    some (((p.vValue.drop first).take (last - first)).map ValuedCoin.coin)
  else none

/-- The normalized value of all coins and bundles. -/
def normalizedTotal (p : CoinBundles C) (denom : Int64) : Option Int64 :=
  (List.range p.nTotalCoinValues).foldlM
    (fun nTotalValue i => p.vValue[i]?.map fun coin => nTotalValue + coin.nValue / denom) 0

variable [DecidableEq C]

def pickItem (p : CoinBundles C) (nItem : Nat) (ret : CoinsRet C) : Option (CoinsRet C) :=
  p.vValue[nItem]?.bind fun item =>
    (if nItem ≥ p.nBeginBundles then p.bundleCoins (nItem - p.nBeginBundles)
      else some [item.coin]).map fun coins => ret.insert coins item.nValue

/-- The loop that picks items in front of the dynamic program, for at most `nLeft` items.  It
returns `nBeginCoinValues` and `nTotalValue`. -/
def prepick (p : CoinBundles C) (nTargetValue denom : Int64) :
    Nat → Nat → Int64 → CoinsRet C → Option (Nat × Int64 × CoinsRet C)
  | 0, nBeginCoinValues, nTotalValue, ret => some (nBeginCoinValues, nTotalValue, ret)
  | nLeft + 1, nBeginCoinValues, nTotalValue, ret =>
    if (nTargetValue - ret.nValueRet) / denom ≥ nTotalValue then do
      let item ← p.vValue[nBeginCoinValues]?
      let ret ← p.pickItem nBeginCoinValues ret
      prepick p nTargetValue denom nLeft (nBeginCoinValues + 1) (nTotalValue - item.nValue / denom) ret
    else some (nBeginCoinValues, nTotalValue, ret)

/-- One row of `M` and `B` for an item, out of the row of `M` before it. -/
def nextRow (denom : Int64) (item : ValuedCoin C) (row : List UInt64) :
    Option (List (UInt64 × Nat)) :=
  let nWeight := (item.nValue / denom).toUInt64.toNat
  let nCost := item.nCost.toUInt64
  (List.range row.length).mapM fun j =>
    row[j]?.bind fun nStay =>
      if nWeight ≤ j then
        row[j - nWeight]?.map fun nBefore =>
          let nStep := nBefore + nCost
          if nStay ≥ nStep then (nStay, j) else (nStep, j - nWeight)
      else some (nStay, j)

/-- The rows of `B`, without the first one. -/
def backRows (denom : Int64) : List (ValuedCoin C) → List UInt64 → Option (List (List Nat))
  | [], _ => some []
  | item :: items, row => do
      let next ← nextRow denom item row
      let rows ← backRows denom items (next.map Prod.fst)
      some (next.map Prod.snd :: rows)

/-- The loop that goes back through `B`: the rows with the numbers of their items, the last one
first. -/
def pickBack (p : CoinBundles C) : List (List Nat × Nat) → Nat → CoinsRet C → Option (CoinsRet C)
  | [], _, ret => some ret
  | (row, nItem) :: rows, nPrev, ret => do
      let back ← row[nPrev]?
      let ret ← if nPrev = back then p.pickItem nItem ret else some ret
      pickBack p rows back ret

/-- The loop over the coins behind the last bundle. -/
def addLeftovers (nTargetValue : Int64) : List (ValuedCoin C) → CoinsRet C → CoinsRet C
  | [], ret => ret
  | v :: leftovers, ret =>
    if ret.nValueRet < nTargetValue then
      addLeftovers nTargetValue leftovers (ret.insert [v.coin] v.nValue)
    else ret

/-- The number of columns of `M`, for the value that is missing. -/
def countColumns (nTotalValue nMissing denom : Int64) : Int :=
  let nAppend : Int := if nMissing % denom ≠ 0 then 0 else 1
  (nTotalValue - nMissing / denom).toInt + nAppend

/-- The dynamic program and what comes behind it, for the items from `nBeginCoinValues` on. -/
def solve (p : CoinBundles C) (nTargetValue denom nTotalValue : Int64) (nBeginCoinValues : Nat)
    (ret : CoinsRet C) : Option (CoinsRet C) := do
  let nColumns := countColumns nTotalValue (nTargetValue - ret.nValueRet) denom
  -- an unsigned int counts the columns
  if nColumns < 0 ∨ 2 ^ 32 ≤ nColumns then none
  else
    let numbers := List.range' nBeginCoinValues (p.nTotalCoinValues - nBeginCoinValues)
    let items ← numbers.mapM fun nItem => p.vValue[nItem]?
    let rows ← backRows denom items (List.replicate nColumns.toNat 0)
    -- nothing is read at nColumns - 1 where there is no column: there is no row either
    let ret ← p.pickBack (rows.zip numbers).reverse (nColumns.toNat - 1) ret
    if ret.nValueRet < nTargetValue then
      match p.vZeroValueBundles.getLast? with
      | none => some ret
      | some last =>
        if last ≤ p.vValue.length then some (addLeftovers nTargetValue (p.vValue.drop last) ret)
        else none
    else some ret

end CoinBundles

variable [DecidableEq C]

/-- `nTotalValue` and `nGCD`, of the coins and the target. -/
def valueScale (nTargetValue : Int64) (first : ValuedCoin C) (rest : List (ValuedCoin C)) :
    Int64 × Int64 :=
  (rest.foldl (fun nTotalValue v => nTotalValue + v.nValue) first.nValue,
    gcd nTargetValue (rest.foldl (fun nGCD v => gcd v.nValue nGCD) first.nValue))

/-- `denom`. -/
def denominator (nTargetValue nTotalValue nGCD : Int64) (nCoins : Nat) : Int64 :=
  let approx := (UInt64.ofNat nCoins * (nTotalValue - nTargetValue).toUInt64).toInt64 / 25
  if approx > nGCD then approx else nGCD

/-- Whether coins are packed: `denom != nGCD`. -/
def usesBundles (nTargetValue : Int64) (vValue : List (ValuedCoin C)) : Bool :=
  match vValue with
  | [] => false
  | first :: rest =>
    let (nTotalValue, nGCD) := valueScale nTargetValue first rest
    denominator nTargetValue nTotalValue nGCD vValue.length != nGCD

/-- What it does with bundles. -/
def selectPacked (nTargetValue denom : Int64) (vValue : List (ValuedCoin C)) :
    Option (CoinsRet C) := do
  let p ← packBundles denom vValue
  let nTotalValue ← p.normalizedTotal denom
  if nTargetValue / denom ≥ nTotalValue then do
    let (nBeginCoinValues, nTotalValue, ret) ←
      p.prepick nTargetValue denom p.nTotalCoinValues 0 nTotalValue ⟨[], 0⟩
    if ret.nValueRet ≥ nTargetValue then some ret
    else p.solve nTargetValue denom nTotalValue nBeginCoinValues ret
  else p.solve nTargetValue denom nTotalValue 0 ⟨[], 0⟩

/-- What `SelectCoinsMinConfByCoinAge` does once the smaller coins suffice. -/
def selectByCost (nTargetValue : Int64) (vValue : List (ValuedCoin C)) : Option (CoinsRet C) :=
  match vValue with
  | [] => none
  | first :: rest =>
    let (nTotalValue, nGCD) := valueScale nTargetValue first rest
    let denom := denominator nTargetValue nTotalValue nGCD vValue.length
    if nTotalValue = nTargetValue then
      some ⟨insertCoins [] (vValue.map ValuedCoin.coin), nTotalValue⟩
    else if denom ≠ nGCD then selectPacked nTargetValue denom vValue
    else (CoinBundles.unpacked vValue).solve nTargetValue denom (nTotalValue / denom) 0 ⟨[], 0⟩

def selectCoinsMinConfByCoinAge (arrange : List (CoinToSpend C × UInt64) → List (CoinToSpend C × UInt64))
    (cost : CoinToSpend C → UInt64) (nTargetValue : Int64) (nSpendTime : UInt32)
    (nConfMine nConfTheirs : Int) (vCoins : List (CoinToSpend C)) : Option (Bool × CoinsRet C) :=
  let s := scanCoins arrange cost nTargetValue nSpendTime nConfMine nConfTheirs vCoins
  if s.nTotalLower < nTargetValue then
    match s.coinLowestLarger with
    | none => some (false, ⟨[], 0⟩)
    | some coin => some (true, ⟨[coin.coin], coin.nValue⟩)
  else (selectByCost nTargetValue s.vValue).map fun ret => (true, ret)

end

end MaryJaneCoin
