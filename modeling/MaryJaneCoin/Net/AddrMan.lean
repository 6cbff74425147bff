import MaryJaneCoin.Lib.Buckets
import MaryJaneCoin.Wallet.CWallet

/-!
# The address manager of `addrman.cpp`

Addresses are heard of, tried, and found good.  An address that was not found good yet lies in
up to four of the new buckets, one that was lies in one of the tried buckets.  Beside the
buckets stand the table of all addresses, its index, the random order and two counters.

`none` is a failed assertion.  It is as well a place outside of a vector, and `operator[]` on
a map that does not have the key, which would add an entry there.  The tests on `double`s of
`Select_` are functions here.
-/

namespace MaryJaneCoin

open Std Codec Buckets

abbrev CNetAddr := Vector UInt8 16

namespace CNetAddr

variable (ip : CNetAddr)

def pchIPv4 : Bytes := [0, 0, 0, 0, 0, 0, 0, 0, 0, 0, 0xff, 0xff]
def pchOnionCat : Bytes := [0xFD, 0x87, 0xD8, 0x7E, 0xEB, 0x43]
def pchGarliCat : Bytes := [0xFD, 0x60, 0xDB, 0x4D, 0xDD, 0xB5]

/-- `memcmp(ip, pch, sizeof(pch)) == 0`. -/
def startsWith (pch : Bytes) : Bool := pch.isPrefixOf ip.toList

def getByte (n : Fin 16) : UInt8 := ip[15 - n.val]

def isIPv4 : Bool := ip.startsWith pchIPv4

def isRFC1918 : Bool :=
  ip.isIPv4 && (ip.getByte 3 == 10 || (ip.getByte 3 == 192 && ip.getByte 2 == 168) ||
    (ip.getByte 3 == 172 && (decide (16 ≤ ip.getByte 2) && decide (ip.getByte 2 ≤ 31))))

def isRFC3927 : Bool := ip.isIPv4 && (ip.getByte 3 == 169 && ip.getByte 2 == 254)

def isRFC3849 : Bool :=
  ip.getByte 15 == 0x20 && ip.getByte 14 == 0x01 && ip.getByte 13 == 0x0D && ip.getByte 12 == 0xB8

def isRFC3964 : Bool := ip.getByte 15 == 0x20 && ip.getByte 14 == 0x02

def isRFC6052 : Bool := ip.startsWith [0, 0x64, 0xFF, 0x9B, 0, 0, 0, 0, 0, 0, 0, 0]

def isRFC4380 : Bool :=
  ip.getByte 15 == 0x20 && ip.getByte 14 == 0x01 && ip.getByte 13 == 0 && ip.getByte 12 == 0

def isRFC4862 : Bool := ip.startsWith [0xFE, 0x80, 0, 0, 0, 0, 0, 0]

def isRFC4193 : Bool := ip.getByte 15 &&& 0xFE == 0xFC

def isRFC6145 : Bool := ip.startsWith [0, 0, 0, 0, 0, 0, 0, 0, 0xFF, 0xFF, 0, 0]

def isRFC4843 : Bool :=
  ip.getByte 15 == 0x20 && ip.getByte 14 == 0x01 && ip.getByte 13 == 0x00 && ip.getByte 12 &&& 0xF0 == 0x10

def isTor : Bool := ip.startsWith pchOnionCat

def isI2P : Bool := ip.startsWith pchGarliCat

def isLocal : Bool :=
  (ip.isIPv4 && (ip.getByte 3 == 127 || ip.getByte 3 == 0)) ||
    ip.startsWith [0, 0, 0, 0, 0, 0, 0, 0, 0, 0, 0, 0, 0, 0, 0, 1]

def isValid : Bool :=
  !ip.startsWith (pchIPv4.drop 3) && !ip.startsWith (List.replicate 16 0) && !ip.isRFC3849 &&
    !(ip.isIPv4 && (ip.toList.drop 12 == List.replicate 4 0xff || ip.toList.drop 12 == List.replicate 4 0))

def isRoutable : Bool :=
  ip.isValid && !(ip.isRFC1918 || ip.isRFC3927 || ip.isRFC4862 ||
    (ip.isRFC4193 && !ip.isTor && !ip.isI2P) || ip.isRFC4843 || ip.isLocal)

/-- The end of `GetGroup`: the class, whole bytes from `nStartByte` on, and the bits that
are left. -/
def groupOf (nClass : UInt8) (nStartByte nBits : Nat) : Bytes :=
  nClass :: ((ip.toList.drop nStartByte).take (nBits / 8) ++
    if nBits % 8 = 0 then []
    else [(ip.toList[nStartByte + nBits / 8]?.getD 0) ||| UInt8.ofNat (2 ^ (nBits % 8) - 1)])

def getGroup : Bytes :=
  let NET_UNROUTABLE := 0
  let NET_IPV4 := 1
  let NET_IPV6 := 2
  let NET_TOR := 3
  let NET_I2P := 4
  if !ip.isRoutable then ip.groupOf NET_UNROUTABLE 0 0
  else if ip.isIPv4 || ip.isRFC6145 || ip.isRFC6052 then ip.groupOf NET_IPV4 12 (if ip.isLocal then 0 else 16)
  else if ip.isRFC3964 then ip.groupOf NET_IPV4 2 (if ip.isLocal then 0 else 16)
  else if ip.isRFC4380 then [NET_IPV4, ip.getByte 3 ^^^ 0xFF, ip.getByte 2 ^^^ 0xFF]
  else if ip.isTor then ip.groupOf NET_TOR 6 4
  else if ip.isI2P then ip.groupOf NET_I2P 6 4
  else
    let nClass := if ip.isLocal then 255 else NET_IPV6
    if ip.getByte 15 == 0x20 && ip.getByte 14 == 0x11 && ip.getByte 13 == 0x04 && ip.getByte 12 == 0x70 then
      ip.groupOf nClass 0 36
    else ip.groupOf nClass 0 32

end CNetAddr

structure CService where
  ip : CNetAddr
  port : UInt16
deriving DecidableEq

def CService.getKey (addr : CService) : Bytes :=
  addr.ip.toList ++ [UInt8.ofNat (addr.port.toNat / 0x100), UInt8.ofNat (addr.port.toNat % 0x100)]

structure CAddress extends CService where
  nServices : UInt64
  nTime : UInt32
  nLastTry : Int

structure CAddrInfo extends CAddress where
  source : CNetAddr
  nLastSuccess : Int
  nAttempts : Int
  nRefCount : Int
  fInTried : Bool
  nRandomPos : Int

/-- What the code asks from outside. -/
structure AddrWorld where
  /-- `Hash(...).Get64()`. -/
  get64 : Bytes → UInt64
  /-- The test of `Select_` on `nTried`, `nNew`, `nUnkBias` and a draw below `1<<30`. -/
  prefersTried : Int → Int → Int → Nat → Bool
  /-- The test of `Select_` on an entry, the time, how many were refused before, and a draw. -/
  accepts : CAddrInfo → Int → Nat → Nat → Bool

def ADDRMAN_TRIED_BUCKET_COUNT : Nat := 64
def ADDRMAN_TRIED_BUCKET_SIZE : Nat := 64
def ADDRMAN_NEW_BUCKET_COUNT : Nat := 256
def ADDRMAN_NEW_BUCKET_SIZE : Nat := 64
def ADDRMAN_TRIED_BUCKETS_PER_GROUP : Nat := 4
def ADDRMAN_NEW_BUCKETS_PER_SOURCE_GROUP : Nat := 32
def ADDRMAN_NEW_BUCKETS_PER_ADDRESS : Int := 4
def ADDRMAN_TRIED_ENTRIES_INSPECT_ON_EVICT : Nat := 4
def ADDRMAN_HORIZON_DAYS : Int := 30
def ADDRMAN_RETRIES : Int := 3
def ADDRMAN_MAX_FAILURES : Int := 10
def ADDRMAN_MIN_FAIL_DAYS : Int := 7
def ADDRMAN_GETADDR_MAX_PCT : Nat := 23
def ADDRMAN_GETADDR_MAX : Nat := 2500

namespace CAddrInfo

/-- A byte vector in a `CDataStream`. -/
def putData (vch : Bytes) : Bytes := putCompactSize vch.length ++ vch

def getTriedBucket (world : AddrWorld) (nKey : Bytes) (addr : CService) : Fin ADDRMAN_TRIED_BUCKET_COUNT :=
  let hash1 := world.get64 (putData nKey ++ putData addr.getKey)
  let hash2 := world.get64 (putData nKey ++ putData addr.ip.getGroup ++
    putLE 8 (hash1.toNat % ADDRMAN_TRIED_BUCKETS_PER_GROUP))
  ⟨hash2.toNat % ADDRMAN_TRIED_BUCKET_COUNT, Nat.mod_lt _ (by decide)⟩

def getNewBucket (world : AddrWorld) (nKey : Bytes) (ip src : CNetAddr) : Fin ADDRMAN_NEW_BUCKET_COUNT :=
  let hash1 := world.get64 (putData nKey ++ putData ip.getGroup ++ putData src.getGroup)
  let hash2 := world.get64 (putData nKey ++ putData src.getGroup ++
    putLE 8 (hash1.toNat % ADDRMAN_NEW_BUCKETS_PER_SOURCE_GROUP))
  ⟨hash2.toNat % ADDRMAN_NEW_BUCKET_COUNT, Nat.mod_lt _ (by decide)⟩

variable (info : CAddrInfo)

/-- `CAddrInfo(addr, addrSource)`. -/
def ofAddress (addr : CAddress) (addrSource : CNetAddr) : CAddrInfo :=
  { addr with
    nLastTry := 0, source := addrSource, nLastSuccess := 0, nAttempts := 0, nRefCount := 0
    fInTried := false, nRandomPos := -1 }

def isTerrible (nNow : Int) : Bool :=
  let nTime : Int := info.nTime.toNat
  if info.nLastTry ≠ 0 ∧ info.nLastTry ≥ nNow - 60 then false
  else if nTime > nNow + 10 * 60 then true
  else if nTime = 0 ∨ nNow - nTime > ADDRMAN_HORIZON_DAYS * 86400 then true
  else if info.nLastSuccess = 0 ∧ info.nAttempts ≥ ADDRMAN_RETRIES then true
  else nNow - info.nLastSuccess > ADDRMAN_MIN_FAIL_DAYS * 86400 ∧ info.nAttempts ≥ ADDRMAN_MAX_FAILURES

/-- What `Add_` notes of an address that is known. -/
def heardAgain (addr : CAddress) (nTimePenalty nNow : Int) : CAddrInfo :=
  let nHeard : Int := addr.nTime.toNat
  let nUpdateInterval := if nNow - nHeard < 24 * 60 * 60 then 60 * 60 else 24 * 60 * 60
  { info with
    nTime :=
      if nHeard ≠ 0 ∧
        (info.nTime = 0 ∨ (info.nTime.toNat : Int) < nHeard - nUpdateInterval - nTimePenalty) then
        UInt32.ofInt (max 0 (nHeard - nTimePenalty))
      else info.nTime
    nServices := info.nServices ||| addr.nServices }

end CAddrInfo

structure CAddrMan where
  nKey : Bytes
  nIdCount : Int
  mapInfo : ExtTreeMap Int CAddrInfo
  mapAddr : ExtTreeMap CNetAddr Int
  vRandom : List Int
  nTried : Int
  vvTried : Vector (List Int) ADDRMAN_TRIED_BUCKET_COUNT
  nNew : Int
  vvNew : Vector (ExtTreeSet Int) ADDRMAN_NEW_BUCKET_COUNT

namespace CAddrMan

/-- `CAddrMan()`, with this random key. -/
def fresh (nKey : Bytes) : CAddrMan where
  nKey := nKey
  nIdCount := 0
  mapInfo := ∅
  mapAddr := ∅
  vRandom := []
  nTried := 0
  vvTried := Vector.replicate _ []
  nNew := 0
  vvNew := Vector.replicate _ ∅

variable (world : AddrWorld) (s : CAddrMan)

def find (addr : CNetAddr) : Option (Int × CAddrInfo) :=
  s.mapAddr[addr]?.bind fun nId => s.mapInfo[nId]?.map fun info => (nId, info)

def setInfo (nId : Int) (info : CAddrInfo) : CAddrMan := { s with mapInfo := s.mapInfo.insert nId info }

def create (addr : CAddress) (addrSource : CNetAddr) : CAddrMan × Int × CAddrInfo :=
  let nId := s.nIdCount
  let info := { CAddrInfo.ofAddress addr addrSource with nRandomPos := s.vRandom.length }
  ({ s with
      nIdCount := (nId + 1).bmod (2 ^ 32)
      mapInfo := s.mapInfo.insert nId info
      mapAddr := s.mapAddr.insert addr.ip nId
      vRandom := s.vRandom ++ [nId] },
    nId, info)

/-- `mapInfo[nId].nRandomPos = nRndPos`. -/
def setRandomPos (nId : Int) (nRndPos : Nat) : Option CAddrMan :=
  s.mapInfo[nId]?.map fun info => s.setInfo nId { info with nRandomPos := nRndPos }

def swapRandom (nRndPos1 nRndPos2 : Nat) : Option CAddrMan :=
  if nRndPos1 = nRndPos2 then some s
  else s.vRandom[nRndPos1]?.bind fun nId1 => s.vRandom[nRndPos2]?.bind fun nId2 =>
    (s.setRandomPos nId1 nRndPos2).bind fun s => (s.setRandomPos nId2 nRndPos1).map fun s =>
      { s with vRandom := (s.vRandom.set nRndPos1 nId2).set nRndPos2 nId1 }

/-- A turn of the loop of `SelectTried`: the bucket, `nOldest` and `nOldestPos`. -/
def selectTriedTurn (rnd : Nat → Nat) : List Int × Int × Int → Nat → Option (List Int × Int × Int)
  | (vTried, nOldest, nOldestPos), i =>
    let nPos := getRandInt (rnd i) (vTried.length - i) + i
    vTried[nPos]?.bind fun nTemp => vTried[i]?.bind fun nFront =>
      let vTried := (vTried.set nPos nFront).set i nTemp
      if nOldest = -1 then some (vTried, nTemp, nPos)
      else s.mapInfo[nTemp]?.bind fun info => s.mapInfo[nOldest]?.map fun infoOldest =>
        if info.nLastSuccess < infoOldest.nLastSuccess then (vTried, nTemp, nPos)
        else (vTried, nOldest, nOldestPos)

/-- `SelectTried`: the bucket in a new order, and a place in it. -/
def selectTried (rnd : Nat → Nat) (vTried : List Int) : Option (List Int × Int) :=
  ((List.range (min ADDRMAN_TRIED_ENTRIES_INSPECT_ON_EVICT vTried.length)).foldlM
    (s.selectTriedTurn rnd) (vTried, -1, -1)).map fun (vTried, _, nOldestPos) => (vTried, nOldestPos)

/-- The first terrible entry of a bucket. -/
def findTerrible (nNow : Int) : List Int → Option (Option Int)
  | [] => some none
  | nId :: rest => s.mapInfo[nId]?.bind fun info =>
    if info.isTerrible nNow then some (some nId) else findTerrible nNow rest

/-- A turn of the loop of `ShrinkNew` over a bucket, at the place `nI`: the oldest of what was
drawn. -/
def oldestNewTurn (drawn : List Nat) (nOldest : Int) (entry : Int × Nat) : Option Int :=
  if entry.2 ∈ drawn then
    if nOldest = -1 then some entry.1
    else s.mapInfo[entry.1]?.bind fun info => s.mapInfo[nOldest]?.map fun infoOldest =>
      if info.nTime < infoOldest.nTime then entry.1 else nOldest
  else some nOldest

/-- `--info.nRefCount`, and what `ShrinkNew` does when nothing is left. -/
def dropRef (nId : Int) : Option CAddrMan :=
  s.mapInfo[nId]?.bind fun info =>
    let nRefCount := info.nRefCount - 1
    let s := s.setInfo nId { info with nRefCount := nRefCount }
    if nRefCount ≠ 0 then some s
    else (s.swapRandom (info.nRandomPos % 2 ^ 32).toNat
      (((s.vRandom.length : Int) - 1) % 2 ^ 32).toNat).map fun s => { s with
        vRandom := s.vRandom.dropLast
        mapAddr := s.mapAddr.erase info.ip
        mapInfo := s.mapInfo.erase nId
        nNew := s.nNew - 1 }

/-- An entry leaves a new bucket. -/
def evictNew (nUBucket : Fin ADDRMAN_NEW_BUCKET_COUNT) (nId : Int) : Option CAddrMan :=
  (s.dropRef nId).map fun s => { s with vvNew := s.vvNew.set nUBucket ((s.vvNew.get nUBucket).erase nId) }

def shrinkNew (nNow : Int) (rnd : Nat → Nat) (nUBucket : Fin ADDRMAN_NEW_BUCKET_COUNT) : Option CAddrMan :=
  let vNew := s.vvNew.get nUBucket
  (s.findTerrible nNow vNew.toList).bind fun terrible =>
    match terrible with
    | some nId => s.evictNew nUBucket nId
    | none =>
      let drawn := (List.range 4).map fun i => getRandInt (rnd i) vNew.size
      (vNew.toList.zipIdx.foldlM (s.oldestNewTurn drawn) (-1)).bind (s.evictNew nUBucket)

/-- The loop of `MakeTried` over the new buckets. -/
def leaveNew (nId : Int) (info : CAddrInfo) : CAddrMan × CAddrInfo :=
  let info := { info with nRefCount := info.nRefCount - s.vvNew.countP (·.contains nId) }
  ({ s.setInfo nId info with
      vvNew := s.vvNew.map fun vNew : ExtTreeSet Int => vNew.erase nId
      nNew := s.nNew - 1 }, info)

/-- `MakeTried` where the tried bucket has room. -/
def pushTried (nId : Int) (info : CAddrInfo) (nKBucket : Fin ADDRMAN_TRIED_BUCKET_COUNT) : CAddrMan :=
  { s.setInfo nId { info with fInTried := true } with
    vvTried := s.vvTried.set nKBucket (s.vvTried.get nKBucket ++ [nId])
    nTried := s.nTried + 1 }

/-- `MakeTried` where an entry of the tried bucket goes back to a new one. -/
def replaceTried (nId : Int) (info : CAddrInfo) (nKBucket : Fin ADDRMAN_TRIED_BUCKET_COUNT)
    (vTried : List Int)
    (nPos : Nat) (nIdOld : Int) (infoOld : CAddrInfo) (nBucket : Fin ADDRMAN_NEW_BUCKET_COUNT) : CAddrMan :=
  { (s.setInfo nIdOld { infoOld with fInTried := false, nRefCount := 1 }).setInfo nId
      { info with fInTried := true } with
    vvNew := s.vvNew.set nBucket ((s.vvNew.get nBucket).insert nIdOld)
    nNew := s.nNew + 1
    vvTried := s.vvTried.set nKBucket (vTried.set nPos nId) }

/-- The end of `MakeTried`: an address that has left the new buckets gets a place in a tried one. -/
def enterTried (rnd : Nat → Nat) (nId : Int) (info : CAddrInfo)
    (nOrigin : Fin ADDRMAN_NEW_BUCKET_COUNT) : Option CAddrMan :=
  let nKBucket := CAddrInfo.getTriedBucket world s.nKey info.toCService
  if (s.vvTried.get nKBucket).length < ADDRMAN_TRIED_BUCKET_SIZE then some (s.pushTried nId info nKBucket)
  else (s.selectTried rnd (s.vvTried.get nKBucket)).bind fun (vTried, nPos) =>
    if nPos < 0 then none
    else vTried[nPos.toNat]?.bind fun nIdOld => s.mapInfo[nIdOld]?.map fun infoOld =>
      let nUBucket := CAddrInfo.getNewBucket world s.nKey infoOld.ip infoOld.source
      let nBucket := if (s.vvNew.get nUBucket).size < ADDRMAN_NEW_BUCKET_SIZE then nUBucket else nOrigin
      s.replaceTried nId info nKBucket vTried nPos.toNat nIdOld infoOld nBucket

def makeTried (rnd : Nat → Nat) (nId : Int) (nOrigin : Fin ADDRMAN_NEW_BUCKET_COUNT) : Option CAddrMan :=
  s.mapInfo[nId]?.bind fun info =>
    if nId ∉ s.vvNew.get nOrigin then none
    else
      let (s, info) := s.leaveNew nId info
      if info.nRefCount ≠ 0 then none
      else s.enterTried world rnd nId info nOrigin

/-- `Good_`. -/
def good (rnd : Nat → Nat) (addr : CService) (nTime : Int) : Option CAddrMan :=
  match s.find addr.ip with
  | none => some s
  | some (nId, info) =>
    if info.toCService ≠ addr then some s
    else
      let s := s.setInfo nId { info with
        nLastSuccess := nTime, nLastTry := nTime, nTime := UInt32.ofInt nTime, nAttempts := 0 }
      if info.fInTried then some s
      else
        let nRnd := getRandInt (rnd 4) ADDRMAN_NEW_BUCKET_COUNT
        let places := (List.range ADDRMAN_NEW_BUCKET_COUNT).map fun n =>
          (⟨(n + nRnd) % ADDRMAN_NEW_BUCKET_COUNT, Nat.mod_lt _ (by decide)⟩ : Fin ADDRMAN_NEW_BUCKET_COUNT)
        match places.find? fun nB => (s.vvNew.get nB).contains nId with
        | none => some s
        | some nUBucket => s.makeTried world rnd nId nUBucket

/-- The end of `Add_`: the entry gets a place in a new bucket. -/
def enterNew (nNow : Int) (rnd : Nat → Nat) (nId : Int) (info : CAddrInfo) (source : CNetAddr) :
    Option CAddrMan :=
  let nUBucket := CAddrInfo.getNewBucket world s.nKey info.ip source
  if nId ∈ s.vvNew.get nUBucket then some s
  else
    let s := s.setInfo nId { info with nRefCount := info.nRefCount + 1 }
    (if (s.vvNew.get nUBucket).size = ADDRMAN_NEW_BUCKET_SIZE then s.shrinkNew nNow rnd nUBucket
    else some s).map
      fun s => { s with vvNew := s.vvNew.set nUBucket ((s.vvNew.get nUBucket).insert nId) }

/-- `Add_`: whether the address was new comes with it. -/
def add (nNow : Int) (rnd : Nat → Nat) (addr : CAddress) (source : CNetAddr) (nTimePenalty : Int) :
    Option (CAddrMan × Bool) :=
  if !addr.ip.isRoutable then some (s, false)
  else
    match s.find addr.ip with
    | some (nId, info) =>
      let info := info.heardAgain addr nTimePenalty nNow
      let s := s.setInfo nId info
      if addr.nTime = 0 ∨ (info.nTime ≠ 0 ∧ addr.nTime ≤ info.nTime) then some (s, false)
      else if info.fInTried then some (s, false)
      else if info.nRefCount = ADDRMAN_NEW_BUCKETS_PER_ADDRESS then some (s, false)
      else
        let nFactor := 2 ^ info.nRefCount.toNat
        if nFactor > 1 ∧ getRandInt (rnd 4) nFactor ≠ 0 then some (s, false)
        else (s.enterNew world nNow rnd nId info source).map fun s => (s, false)
    | none =>
      let (s, nId, info) := s.create addr source
      let info := { info with nTime := UInt32.ofInt (max 0 ((info.nTime.toNat : Int) - nTimePenalty)) }
      let s := { s.setInfo nId info with nNew := s.nNew + 1 }
      (s.enterNew world nNow rnd nId info source).map fun s => (s, true)

/-- `Attempt_`. -/
def attempt (addr : CService) (nTime : Int) : CAddrMan :=
  match s.find addr.ip with
  | none => s
  | some (nId, info) =>
    if info.toCService ≠ addr then s
    else s.setInfo nId { info with nLastTry := nTime, nAttempts := (info.nAttempts + 1).bmod (2 ^ 32) }

/-- `Connected_`. -/
def connected (addr : CService) (nTime : Int) : CAddrMan :=
  match s.find addr.ip with
  | none => s
  | some (nId, info) =>
    if info.toCService ≠ addr then s
    else if nTime - info.nTime.toNat > 20 * 60 then s.setInfo nId { info with nTime := UInt32.ofInt nTime }
    else s

/-- The loops of `Select_`: `none` inside when the fuel does not suffice, since the loops may
go on for ever. -/
def selectLoop {n : Nat} (nNow : Int) (buckets : Vector (List Int) n) :
    Nat → (Nat → Nat) → Nat → Option (Option CAddress)
  | 0, _, _ => some none
  | fuel + 1, rnd, nRefused =>
    buckets[getRandInt (rnd 0) n]?.bind fun bucket =>
      if bucket.length = 0 then selectLoop nNow buckets fuel (fun i => rnd (i + 3)) nRefused
      else bucket[getRandInt (rnd 1) bucket.length]?.bind fun nId => s.mapInfo[nId]?.bind fun info =>
        if world.accepts info nNow nRefused (getRandInt (rnd 2) (2 ^ 30)) then some (some info.toCAddress)
        else selectLoop nNow buckets fuel (fun i => rnd (i + 3)) (nRefused + 1)

/-- `Select_`, on an address manager that may be empty: then it gives `CAddress()`. -/
def select (nNow : Int) (fuel : Nat) (rnd : Nat → Nat) (nUnkBias : Int) : Option (Option CAddress) :=
  if s.vRandom.length = 0 then
    some (some { ip := Vector.replicate 16 0, port := 0, nServices := 1, nTime := 100000000, nLastTry := 0 })
  else if world.prefersTried s.nTried s.nNew nUnkBias (getRandInt (rnd 0) (2 ^ 30)) then
    s.selectLoop world nNow s.vvTried fuel (fun i => rnd (i + 1)) 0
  else s.selectLoop world nNow (s.vvNew.map (·.toList)) fuel (fun i => rnd (i + 1)) 0

/-- A turn of the loop of `GetAddr_`. -/
def getAddrTurn (rnd : Nat → Nat) : CAddrMan × List CAddress → Nat → Option (CAddrMan × List CAddress)
  | (s, vAddr), n =>
    (s.swapRandom n (getRandInt (rnd n) (s.vRandom.length - n) + n)).bind fun s =>
      s.vRandom[n]?.bind fun nId => s.mapInfo[nId]?.map fun info => (s, vAddr ++ [info.toCAddress])

/-- `GetAddr_`. -/
def getAddr (rnd : Nat → Nat) : Option (CAddrMan × List CAddress) :=
  let nNodes := min (ADDRMAN_GETADDR_MAX_PCT * s.vRandom.length / 100) ADDRMAN_GETADDR_MAX
  (List.range nNodes).foldlM (getAddrTurn rnd) (s, [])

/-- What `Check_` notes of an entry: `setTried` and `mapNew`. -/
abbrev CheckSets := ExtTreeSet Int × ExtTreeMap Int Int

/-- An entry is noted as tried or as new. -/
def checkClass (sets : CheckSets) (n : Int) (info : CAddrInfo) : Except Int CheckSets :=
  if info.fInTried then
    if info.nLastSuccess = 0 then .error (-1)
    else if info.nRefCount ≠ 0 then .error (-2)
    else .ok (sets.1.insert n, sets.2)
  else if info.nRefCount < 0 ∨ info.nRefCount > ADDRMAN_NEW_BUCKETS_PER_ADDRESS then .error (-3)
  else if info.nRefCount = 0 then .error (-4)
  else .ok (sets.1, sets.2.insert n info.nRefCount)

/-- The loop of `Check_` over the entries. -/
def checkInfo (sets : CheckSets) (entry : Int × CAddrInfo) : Except Int CheckSets :=
  let (n, info) := entry
  (checkClass sets n info).bind fun sets =>
    if s.mapAddr[info.ip]?.getD 0 ≠ n then .error (-5)
    else if info.nRandomPos < 0 ∨ info.nRandomPos ≥ s.vRandom.length ∨
        s.vRandom[info.nRandomPos.toNat]? ≠ some n then .error (-14)
    else if info.nLastTry < 0 then .error (-6)
    else if info.nLastSuccess < 0 then .error (-8)
    else .ok sets

/-- `Check_`, with the code that it returns as an error. -/
def checkAll : Except Int Unit :=
  if (s.vRandom.length : Int) ≠ s.nTried + s.nNew then .error (-7)
  else (s.mapInfo.toList.foldlM s.checkInfo (∅, ∅)).bind fun (setTried, mapNew) =>
    if (setTried.size : Int) ≠ s.nTried then .error (-9)
    else if (mapNew.size : Int) ≠ s.nNew then .error (-10)
    else ((entries id s.vvTried).foldlM (crossOff (-11)) setTried).bind fun setTried =>
      ((entries ExtTreeSet.toList s.vvNew).foldlM (countDown (-12)) mapNew).bind fun mapNew =>
        if setTried.size ≠ 0 then .error (-13)
        else if mapNew.size ≠ 0 then .error (-15)
        else .ok ()

/-- `Check_`. -/
def check : Int :=
  match s.checkAll with
  | .ok () => 0
  | .error nCode => nCode

end CAddrMan

/-- A call, with the time and the random draws that it finds.  A draw is used once: `Add_` and
`Good_` take their own from place 4 on, and leave those before to `ShrinkNew` and `SelectTried`. -/
inductive AddrManCall where
  | add (nNow : Int) (rnd : Nat → Nat) (addr : CAddress) (source : CNetAddr) (nTimePenalty : Int)
  | good (rnd : Nat → Nat) (addr : CService) (nTime : Int)
  | attempt (addr : CService) (nTime : Int)
  | connected (addr : CService) (nTime : Int)
  | getAddr (rnd : Nat → Nat)
  | select (nNow : Int) (fuel : Nat) (rnd : Nat → Nat) (nUnkBias : Int)

/-- The time of a call is positive. -/
def AddrManCall.Positive : AddrManCall → Prop
  | .good _ _ nTime | .attempt _ nTime | .connected _ nTime => 0 < nTime
  | _ => True

namespace CAddrMan

variable (world : AddrWorld)

/-- A call, with what `Add_` returns. -/
def call (s : CAddrMan) : AddrManCall → Option (CAddrMan × Bool)
  | .add nNow rnd addr source nTimePenalty => s.add world nNow rnd addr source nTimePenalty
  | .good rnd addr nTime => (s.good world rnd addr nTime).map fun s => (s, false)
  | .attempt addr nTime => some (s.attempt addr nTime, false)
  | .connected addr nTime => some (s.connected addr nTime, false)
  | .getAddr rnd => (s.getAddr rnd).map fun (s, _) => (s, false)
  | .select nNow fuel rnd nUnkBias => (s.select world nNow fuel rnd nUnkBias).map fun _ => (s, false)

/-- A sequence of calls. -/
def run (s : CAddrMan) (calls : List AddrManCall) : Option CAddrMan :=
  calls.foldlM (fun s c => (s.call world c).map (·.1)) s

/-- Whether a call comes to `Create`. -/
def creates (s : CAddrMan) : AddrManCall → Bool
  | .add _ _ addr _ _ => addr.ip.isRoutable && (s.find addr.ip).isNone
  | _ => false

/-- How many addresses a sequence of calls creates. -/
def nCreated : CAddrMan → List AddrManCall → Nat
  | _, [] => 0
  | s, c :: calls =>
    (s.creates c).toNat + match s.call world c with
      | none => 0
      | some (s, _) => nCreated s calls

end CAddrMan

end MaryJaneCoin
