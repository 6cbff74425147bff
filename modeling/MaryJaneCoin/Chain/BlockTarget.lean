import Mathlib.Data.Nat.Size
import MaryJaneCoin.Chain.StakeKernel
import MaryJaneCoin.Lib.Digits

/-!
# Targets and trust

The target that a block must state, computed from the two blocks of its kind before it,
and the trust that a stated target adds to the chain.  A target is stated as its leading
three bytes in base 256, so what is stated is what was computed, cut.
-/

namespace MaryJaneCoin

open List hiding Vector
open LeadingDigits

/-- `BN_num_bits`. -/
def numBits (bn : Int) : Nat := bn.natAbs.size

/-- The length that `BN_bn2mpi` writes: the bytes of the magnitude, and one more where its
first bit would be taken for the sign. -/
def mpiSize (bn : Int) : Nat :=
  (numBits bn + 7) / 8 + if 0 < numBits bn ∧ numBits bn % 8 = 0 then 1 else 0

/-- `CBigNum::GetCompact`: the length and the first three bytes that `BN_bn2mpi` writes, with
the sign in the first bit of the first byte. -/
def getCompact (bn : Int) : UInt32 :=
  let nSize := mpiSize bn
  let magnitude :=
    if nSize ≤ 3 then bn.natAbs * 256 ^ (3 - nSize) else bn.natAbs / 256 ^ (nSize - 3)
  UInt32.ofNat (nSize * 2 ^ 24 + ((if bn < 0 then 2 ^ 23 else 0) + magnitude))

def getuint256 (bn : Int) : Nat := bn.natAbs % 2 ^ 256

/-- `nTargetSpacing`: `4.3 * 60`. -/
def nTargetSpacing : UInt32 := 258
def nStakeTargetSpacing : UInt32 := nTargetSpacing
def nTargetTimespan : Int := 60 * 60

/-- `bnProofOfWorkLimit`, after `LoadBlockIndex` has set it for the network. -/
def bnProofOfWorkLimit (fTestNet : Bool) : Int :=
  if fTestNet then (2 ^ 256 - 1) / 2 ^ 16 else (2 ^ 256 - 1) / 2 ^ 20

/-- `bnProofOfStakeLimit`.  The one for the test network is never used. -/
def bnProofOfStakeLimit : Int := (2 ^ 256 - 1) / 2 ^ 24

/-- The limit that `GetNextTargetRequired` takes for a kind of block. -/
def bnTargetLimit (fTestNet fProofOfStake : Bool) : Int :=
  if fProofOfStake then bnProofOfStakeLimit else bnProofOfWorkLimit fTestNet

/-- `CheckProofOfWork`, of a digest as a number. -/
def checkProofOfWork (fTestNet : Bool) (hash : Nat) (nBits : UInt32) : Bool :=
  let bnTarget := setCompact nBits
  if bnTarget ≤ 0 ∨ bnTarget > bnProofOfWorkLimit fTestNet then false
  else decide (hash ≤ getuint256 bnTarget)

def getBlockTrust (nBits : UInt32) : Nat :=
  let bnTarget := setCompact nBits
  if bnTarget ≤ 0 then 0 else getuint256 ((2 ^ 256 : Int).tdiv (bnTarget + 1))

/-- `CBlockIndex` with the target that its block states. -/
structure CTargetIndex (H : Type) extends CBlockIndex H where
  nBits : UInt32

/-- `CBlockIndex*`, as `PIndex` is. -/
abbrev PTargetIndex (H : Type) := List (CTargetIndex H)

section

variable {H : Type}

def CTargetIndex.getBlockTime (pindex : CTargetIndex H) : Int := pindex.nTime.toNat

def getLastBlockIndex (fProofOfStake : Bool) : PTargetIndex H → PTargetIndex H
  | pindex :: pprev :: rest =>
    if pindex.fProofOfStake != fProofOfStake then getLastBlockIndex fProofOfStake (pprev :: rest)
    else pindex :: pprev :: rest
  | pindex => pindex

/-- The value of a signed `int` expression; one that overflows has none. -/
def intResult (n : Int) : Option Int := if -2 ^ 31 ≤ n ∧ n < 2 ^ 31 then some n else none

/-- `nActualSpacing`: the time between the last two blocks of a kind. -/
def actualSpacing (pindexPrev pindexPrevPrev : CTargetIndex H) : Int :=
  let nActualSpacing := (pindexPrev.getBlockTime - pindexPrevPrev.getBlockTime).bmod (2 ^ 32)
  if nActualSpacing < 0 then nTargetSpacing.toNat else nActualSpacing

/-- `bnNew`, from the target before and the time between the last two blocks.  The factor is
an expression of type `int`. -/
def scaleTarget (bnTarget nActualSpacing : Int) : Option Int := do
  let nTargetSpacing : Int := nStakeTargetSpacing.toNat
  let nInterval := nTargetTimespan / nTargetSpacing
  let once ← intResult ((nInterval - 1) * nTargetSpacing + nActualSpacing)
  let factor ← intResult (once + nActualSpacing)
  return (bnTarget * factor).tdiv ((nInterval + 1) * nTargetSpacing)

/-- `GetNextTargetRequired`.  No value stands for an overflow. -/
def getNextTargetRequired (fTestNet : Bool) (pindexLast : PTargetIndex H)
    (fProofOfStake : Bool) : Option UInt32 :=
  let bnLimit := bnTargetLimit fTestNet fProofOfStake
  match getLastBlockIndex fProofOfStake pindexLast with
  | [] | [_] => some (getCompact bnLimit)
  | pindexPrev :: pprev =>
    match getLastBlockIndex fProofOfStake pprev with
    | [] | [_] => some (getCompact bnLimit)
    | pindexPrevPrev :: _ =>
      (scaleTarget (setCompact pindexPrev.nBits)
        (actualSpacing pindexPrev pindexPrevPrev)).map fun bnNew =>
          getCompact (if bnNew ≤ 0 ∨ bnNew > bnLimit then bnLimit else bnNew)

variable [DecidableEq H] (c : Consensus H)

/-- The index entry that `AddToBlockIndex` makes for a block. -/
def CTargetIndex.new (block : CBlock H) (nFile nBlockPos : Nat) (pprev : PTargetIndex H) :
    CTargetIndex H :=
  { Node.newIndex { c with getBlockTrust := getBlockTrust } block nFile nBlockPos
      (pprev.map CTargetIndex.toCBlockIndex) with
    nBits := block.nBits }

/-- The coinbase that `LoadBlockIndex` makes for the genesis block. -/
def genesisTx : CTransaction H where
  nVersion := 1
  nTime := 1775670000
  vin := [⟨⟨c.zero, 0xffffffff⟩, CScript.pushInt64 0 ++ CScript.pushData [42] ++
    CScript.pushData ("MaryJaneCoin v2 - Fresh Start April 2026".toList.map fun letter =>
      UInt8.ofNat letter.toNat), 0xffffffff⟩]
  vout := [⟨0, []⟩]
  nLockTime := 0
  mwTx := ⟨⟨[], [], []⟩, Vector.replicate 32 0⟩

/-- The genesis block that `LoadBlockIndex` makes. -/
def genesisBlock (fTestNet : Bool) : CBlock H :=
  let block : CBlock H :=
    { nVersion := 1, hashPrevBlock := c.zero, hashMerkleRoot := c.zero, nTime := 1775670000
      nBits := getCompact (bnProofOfWorkLimit fTestNet), nNonce := 2337183, vtx := [genesisTx c]
      vchBlockSig := [], mwExtBlock := ⟨c.zero, ⟨[], [], []⟩, [], 0, Vector.replicate 32 0⟩ }
  { block with hashMerkleRoot := block.buildMerkleTree c }

/-- Chains on genesis whose blocks state the target that `AcceptBlock` asks for, newest
block first. -/
inductive TargetChain (fTestNet : Bool) : PTargetIndex H → Prop
  | genesis (nFile nBlockPos : Nat) :
      TargetChain fTestNet [.new c (genesisBlock c fTestNet) nFile nBlockPos []]
  | accept {pindexPrev : CTargetIndex H} {pprev : PTargetIndex H} (block : CBlock H)
      (nFile nBlockPos : Nat) (hchain : TargetChain fTestNet (pindexPrev :: pprev))
      (hbits : getNextTargetRequired fTestNet (pindexPrev :: pprev) (block.isProofOfStake c) =
        some block.nBits) :
      TargetChain fTestNet
        (.new c block nFile nBlockPos (pindexPrev :: pprev) :: pindexPrev :: pprev)

end

/-- The length of the number is its size in base 256 with room for the sign. -/
theorem mpiSize_eq (bn : Int) : mpiSize bn = LeadingDigits.size 256 bn.natAbs := by
  refine eq_of_forall_ge_iff fun k => ?_
  rw [size_le_iff (by decide)]
  have hpow : (256 : Nat) ^ k = 2 ^ (8 * k) := by rw [Nat.pow_mul]
  rw [hpow, mpiSize, numBits]
  by_cases hzero : bn.natAbs = 0
  · simp [hzero]
  have hpos : 0 < bn.natAbs.size := Nat.size_pos.mpr (by omega)
  have hiff : 2 * bn.natAbs < 2 ^ (8 * k) ↔ bn.natAbs.size + 1 ≤ 8 * k := by
    cases k with
    | zero => simp; omega
    | succ k =>
      have hsucc : 8 * (k + 1) = (8 * k + 7) + 1 := by ring
      rw [hsucc, Nat.pow_succ, Nat.succ_le_succ_iff, Nat.size_le]
      omega
  rw [hiff]
  split <;> omega

section

variable {bn : Int}

/-- The three bytes that a target is stated with leave the sign bit free. -/
theorem getCompact_eq (hpos : 0 < bn) :
    getCompact bn = UInt32.ofNat (LeadingDigits.size 256 bn.natAbs * 2 ^ 24 +
      mantissa 256 3 bn.natAbs) := by
  simp only [getCompact, mpiSize_eq, mantissa, if_neg (Int.not_lt.mpr hpos.le), Nat.zero_add]

theorem size_le_of_lt (hsize : bn < 2 ^ 256) (hpos : 0 < bn) : LeadingDigits.size 256 bn.natAbs ≤ 33 := by
  rw [size_le_iff (by decide)]
  have : (256 : Nat) ^ 33 = 2 ^ 256 * 256 := by norm_num
  omega

/-- What is stated is the target, cut to three bytes. -/
theorem setCompact_getCompact (hpos : 0 < bn) (hsize : bn < 2 ^ 256) :
    setCompact (getCompact bn) = (LeadingDigits.cut 256 3 bn.natAbs : Nat) := by
  have hdigits := size_le_of_lt hsize hpos
  have hlead : 2 * mantissa 256 3 bn.natAbs < 256 ^ 3 :=
    two_mul_mantissa_lt (by decide) _
  have hvalue := value_mantissa (show 1 < 256 by decide) 3 bn.natAbs
  rw [getCompact_eq hpos]
  generalize LeadingDigits.size 256 bn.natAbs = nSize at *
  generalize mantissa 256 3 bn.natAbs = leading at *
  have hnat : (UInt32.ofNat (nSize * 2 ^ 24 + leading)).toNat = nSize * 2 ^ 24 + leading := by
    rw [UInt32.toNat_ofNat']
    exact Nat.mod_eq_of_lt (by omega)
  have hhigh : (nSize * 2 ^ 24 + leading) / 2 ^ 24 = nSize := by omega
  have hlow : (nSize * 2 ^ 24 + leading) % 2 ^ 23 = leading := by omega
  have hsign : (nSize * 2 ^ 24 + leading) / 2 ^ 23 % 2 = 0 := by omega
  rw [setCompact, hnat, hhigh, hlow, hsign, if_neg (by simp), ← hvalue]
  rfl

/-- A limit below `2 ^ 256`, stated, is in range and stated the same way again. -/
theorem setCompact_getCompact_range (hpos : 0 < bn) (hsize : bn < 2 ^ 256) :
    0 < setCompact (getCompact bn) ∧ setCompact (getCompact bn) ≤ bn ∧
      getCompact (setCompact (getCompact bn)) = getCompact bn := by
  have hcut : 0 < LeadingDigits.cut 256 3 bn.natAbs :=
    cut_pos (by decide) (by decide) (by decide) (by omega)
  have hle := cut_le 256 3 bn.natAbs
  rw [setCompact_getCompact hpos hsize]
  refine ⟨by exact_mod_cast hcut, by omega, ?_⟩
  rw [getCompact_eq (by exact_mod_cast hcut), getCompact_eq hpos, Int.natAbs_natCast,
    size_cut (by decide) (by decide) (by decide), mantissa_cut (by decide) (by decide) (by decide)]

end

theorem bnTargetLimit_range (fTestNet fProofOfStake : Bool) :
    0 < bnTargetLimit fTestNet fProofOfStake ∧ bnTargetLimit fTestNet fProofOfStake < 2 ^ 256 := by
  cases fTestNet <;> cases fProofOfStake <;>
    norm_num [bnTargetLimit, bnProofOfStakeLimit, bnProofOfWorkLimit]

/-- A stated target: a number within the limit of its kind, cut to three bytes. -/
def IsTarget (fTestNet fProofOfStake : Bool) (nBits : UInt32) : Prop :=
  ∃ bn, 0 < bn ∧ bn ≤ bnTargetLimit fTestNet fProofOfStake ∧ nBits = getCompact bn

section

variable {fTestNet fProofOfStake : Bool} {nBits : UInt32}

theorem isTarget_limit : IsTarget fTestNet fProofOfStake
    (getCompact (bnTargetLimit fTestNet fProofOfStake)) :=
  ⟨_, (bnTargetLimit_range _ _).1, le_rfl, rfl⟩

theorem IsTarget.range (h : IsTarget fTestNet fProofOfStake nBits) :
    0 < setCompact nBits ∧ setCompact nBits ≤ bnTargetLimit fTestNet fProofOfStake ∧
      getCompact (setCompact nBits) = nBits := by
  obtain ⟨bn, hpos, hle, rfl⟩ := h
  obtain ⟨hlow, hhigh, hagain⟩ := setCompact_getCompact_range hpos (hle.trans_lt (bnTargetLimit_range _ _).2)
  exact ⟨hlow, hhigh.trans hle, hagain⟩

theorem IsTarget.one_le_trust (h : IsTarget fTestNet fProofOfStake nBits) : 1 ≤ getBlockTrust nBits := by
  obtain ⟨hpos, hle, -⟩ := h.range
  have hlimit := (bnTargetLimit_range fTestNet fProofOfStake).2
  have hquot : (2 ^ 256 : Int).tdiv (setCompact nBits + 1) = (2 ^ 256 : Int) / (setCompact nBits + 1) :=
    Int.tdiv_eq_ediv_of_nonneg (by norm_num)
  have hone : 1 ≤ (2 ^ 256 : Int) / (setCompact nBits + 1) :=
    (Int.le_ediv_iff_mul_le (by omega)).mpr (by omega)
  have hfits : (2 ^ 256 : Int) / (setCompact nBits + 1) < 2 ^ 256 :=
    (Int.ediv_lt_iff_lt_mul (by omega)).mpr (by omega)
  rw [getBlockTrust, if_neg (Int.not_le.mpr hpos), hquot, getuint256, Nat.mod_eq_of_lt (by omega)]
  omega

theorem IsTarget.checkProofOfWork_eq (h : IsTarget fTestNet false nBits) (hash : Nat) :
    checkProofOfWork fTestNet hash nBits = decide (hash ≤ getuint256 (setCompact nBits)) := by
  obtain ⟨hpos, hle, -⟩ := h.range
  have hlimit : ¬(setCompact nBits ≤ 0 ∨ setCompact nBits > bnProofOfWorkLimit fTestNet) := by
    have : bnTargetLimit fTestNet false = bnProofOfWorkLimit fTestNet := rfl
    omega
  rw [checkProofOfWork, if_neg hlimit]

end

section

variable {H : Type} {fTestNet : Bool}

theorem getLastBlockIndex_suffix (fProofOfStake : Bool) (path : PTargetIndex H) :
    getLastBlockIndex fProofOfStake path <:+ path := by
  induction path using getLastBlockIndex.induct fProofOfStake with
  | case1 pindex pprev rest hkind ih =>
    rw [getLastBlockIndex, if_pos hkind]
    exact ih.trans (suffix_cons _ _)
  | case2 pindex pprev rest hkind =>
    rw [getLastBlockIndex, if_neg hkind]
  | case3 path hpath =>
    rw [getLastBlockIndex.eq_def]
    split
    · exact absurd rfl (hpath _ _ _)
    · exact suffix_refl _

variable {path : PTargetIndex H}

/-- Whatever the chain, the target asked for is one of its kind: what was scaled out of
range is replaced by the limit. -/
theorem isTarget_of_required {fProofOfStake : Bool} {nBits : UInt32}
    (h : getNextTargetRequired fTestNet path fProofOfStake = some nBits) :
    IsTarget fTestNet fProofOfStake nBits := by
  have hlimit : ∀ {bits : UInt32},
      some (getCompact (bnTargetLimit fTestNet fProofOfStake)) = some bits →
        IsTarget fTestNet fProofOfStake bits := by
    intro bits heq
    rw [← Option.some.inj heq]
    exact isTarget_limit
  unfold getNextTargetRequired at h
  split at h
  · exact hlimit h
  · exact hlimit h
  · split at h
    · exact hlimit h
    · exact hlimit h
    · obtain ⟨bnNew, -, rfl⟩ := Option.map_eq_some_iff.mp h
      split
      · exact isTarget_limit
      · next hrange => exact ⟨bnNew, by omega, by omega, rfl⟩

/-- No expression of type `int` overflows while blocks are close enough in time. -/
theorem scaleTarget_isSome {nActualSpacing : Int} (bnTarget : Int) (hlow : 0 ≤ nActualSpacing)
    (hhigh : nActualSpacing ≤ 10 ^ 9) : (scaleTarget bnTarget nActualSpacing).isSome := by
  have hspacing : (nStakeTargetSpacing.toNat : Int) = 258 := rfl
  have hfits : ∀ n : Int, 0 ≤ n → n ≤ 2000003096 → intResult n = some n := fun n h0 h1 =>
    if_pos (by omega)
  have honce := hfits ((nTargetTimespan / 258 - 1) * 258 + nActualSpacing)
    (by norm_num [nTargetTimespan]; omega) (by norm_num [nTargetTimespan]; omega)
  have htwice := hfits ((nTargetTimespan / 258 - 1) * 258 + nActualSpacing + nActualSpacing)
    (by norm_num [nTargetTimespan]; omega) (by norm_num [nTargetTimespan]; omega)
  simp [scaleTarget, hspacing, honce, htwice]

theorem actualSpacing_range {pindexPrev pindexPrevPrev : CTargetIndex H}
    (htimes : pindexPrev.getBlockTime - pindexPrevPrev.getBlockTime ≤ 10 ^ 9)
    (htimes' : pindexPrevPrev.getBlockTime - pindexPrev.getBlockTime ≤ 10 ^ 9) : 0 ≤
    actualSpacing pindexPrev pindexPrevPrev ∧ actualSpacing pindexPrev pindexPrevPrev ≤ 10 ^ 9 := by
  have hbmod : (pindexPrev.getBlockTime - pindexPrevPrev.getBlockTime).bmod (2 ^ 32) =
      pindexPrev.getBlockTime - pindexPrevPrev.getBlockTime :=
    Int.bmod_eq_of_le (by omega) (by omega)
  have hspacing : (nTargetSpacing.toNat : Int) = 258 := rfl
  rw [actualSpacing, hbmod, hspacing]
  split <;> omega

theorem required_isSome (htimes : ∀ a ∈ path, ∀ b ∈ path, a.getBlockTime - b.getBlockTime ≤ 10 ^ 9)
    (fProofOfStake : Bool) : (getNextTargetRequired fTestNet path fProofOfStake).isSome := by
  unfold getNextTargetRequired
  split
  · rfl
  · rfl
  · next pindexPrev pprev _ hprev =>
      split
      · rfl
      · rfl
      · next pindexPrevPrev rest _ hprevprev =>
          have hmem : ∀ a, a ∈ pindexPrev :: pprev → a ∈ path := fun a ha =>
            (hprev ▸ getLastBlockIndex_suffix fProofOfStake path).subset ha
          have hfirst := hmem pindexPrev mem_cons_self
          have hsecond := hmem pindexPrevPrev (mem_cons_of_mem _
            ((hprevprev ▸ getLastBlockIndex_suffix fProofOfStake pprev).subset mem_cons_self))
          have hspacing := actualSpacing_range (htimes _ hfirst _ hsecond)
            (htimes _ hsecond _ hfirst)
          rw [Option.isSome_map]
          exact scaleTarget_isSome _ hspacing.1 hspacing.2

/-- The trust that the blocks of a chain add up to. -/
def exactTrust (path : PTargetIndex H) : Nat :=
  (path.map fun pindex => getBlockTrust pindex.nBits).sum

theorem exactTrust_cons (pindex : CTargetIndex H) (pprev : PTargetIndex H) :
    exactTrust (pindex :: pprev) = getBlockTrust pindex.nBits + exactTrust pprev := rfl

variable [DecidableEq H] {c : Consensus H}

theorem TargetChain.of_acceptRules {pindexPrev : CTargetIndex H} {pprev : PTargetIndex H}
    (hchain : TargetChain c fTestNet (pindexPrev :: pprev)) {block : CBlock H}
    {checkStake checkSync : Bool} (nFile nBlockPos : Nat)
    (hrules : block.acceptRules c pindexPrev.toCBlockIndex
      (pprev.map CTargetIndex.toCBlockIndex) checkStake checkSync = true) (hnext : ∀ fProofOfStake,
      getNextTargetRequired fTestNet (pindexPrev :: pprev) fProofOfStake = some (c.getNextTargetRequired
          (pindexPrev.toCBlockIndex :: pprev.map CTargetIndex.toCBlockIndex) fProofOfStake)) :
    TargetChain c fTestNet (.new c block nFile nBlockPos (pindexPrev :: pprev) :: pindexPrev :: pprev) := by
  have hbits : block.nBits = c.getNextTargetRequired
      (pindexPrev.toCBlockIndex :: pprev.map CTargetIndex.toCBlockIndex)
      (block.isProofOfStake c) := by
    simp only [CBlock.acceptRules, Bool.and_eq_true, beq_iff_eq] at hrules
    exact hrules.1.1.1.1.1.1.2
  exact .accept block nFile nBlockPos hchain (hbits ▸ hnext _)

theorem CTargetIndex.new_nChainTrust (block : CBlock H) (nFile nBlockPos : Nat) {pprev : PTargetIndex H}
    (hprev : (pprev.head?.map fun prev => prev.nChainTrust).getD 0 = exactTrust pprev % 2 ^ 256) :
    (CTargetIndex.new c block nFile nBlockPos pprev).nChainTrust =
      exactTrust (.new c block nFile nBlockPos pprev :: pprev) % 2 ^ 256 := by
  have hnew : (CTargetIndex.new c block nFile nBlockPos pprev).nChainTrust =
      ((pprev.head?.map fun prev => prev.nChainTrust).getD 0 + getBlockTrust block.nBits) %
        2 ^ 256 := by
    cases pprev <;> rfl
  have hbits : (CTargetIndex.new c block nFile nBlockPos pprev).nBits = block.nBits := rfl
  rw [hnew, hprev, exactTrust_cons, hbits, Nat.mod_add_mod, Nat.add_comm]

theorem genesisBlock_isProofOfStake (c : Consensus H) (fTestNet : Bool) :
    (genesisBlock c fTestNet).isProofOfStake c = false := rfl

theorem TargetChain.isTarget (h : TargetChain c fTestNet path) :
    ∀ pindex ∈ path, IsTarget fTestNet pindex.fProofOfStake pindex.nBits := by
  induction h with
  | genesis nFile nBlockPos =>
    intro pindex hmem
    obtain rfl := mem_singleton.mp hmem
    have hkind := genesisBlock_isProofOfStake c fTestNet
    have hindex : (CTargetIndex.new c (genesisBlock c fTestNet) nFile nBlockPos
        []).fProofOfStake = (genesisBlock c fTestNet).isProofOfStake c := rfl
    rw [hindex, hkind]
    exact isTarget_limit
  | accept block nFile nBlockPos hchain hbits ih =>
    intro pindex hmem
    rcases List.mem_cons.mp hmem with rfl | hold
    · exact isTarget_of_required hbits
    · exact ih pindex hold

theorem TargetChain.nChainTrust_eq (h : TargetChain c fTestNet path) : ∀ child rest,
    child :: rest <:+ path → child.nChainTrust = exactTrust (child :: rest) % 2 ^ 256 := by
  induction h with
  | genesis nFile nBlockPos =>
    intro child rest hsuffix
    obtain ⟨rfl, rfl⟩ : child = _ ∧ rest = [] := by
      rcases suffix_cons_iff.mp hsuffix with heq | hnil
      · exact List.cons.inj heq
      · exact absurd (suffix_nil.mp hnil) (cons_ne_nil _ _)
    exact CTargetIndex.new_nChainTrust _ _ _ (by simp [exactTrust])
  | @accept pindexPrev pprev block nFile nBlockPos hchain hbits ih =>
    intro child rest hsuffix
    rcases suffix_cons_iff.mp hsuffix with heq | hold
    · obtain ⟨rfl, rfl⟩ := List.cons.inj heq
      exact CTargetIndex.new_nChainTrust _ _ _ (ih pindexPrev pprev (suffix_refl _))
    · exact ih child rest hold

/-- **Targets stay in range and trust grows.**  On a chain whose blocks follow the target
rule, every stated target is positive, within the limit of its kind, and states itself
again; every block adds trust, so trust grows until the sum leaves 256 bits; and the next
target is computed without overflow. -/
theorem targetChain_in_range {path : PTargetIndex H} (hchain : TargetChain c fTestNet path)
    (htimes : ∀ a ∈ path, ∀ b ∈ path, a.getBlockTime - b.getBlockTime ≤ 10 ^ 9) : (∀ pindex ∈ path,
      (0 < setCompact pindex.nBits ∧ setCompact pindex.nBits ≤ bnTargetLimit fTestNet pindex.fProofOfStake ∧
        getCompact (setCompact pindex.nBits) = pindex.nBits) ∧ 1 ≤ getBlockTrust pindex.nBits) ∧
    (∀ child parent rest, child :: parent :: rest <:+ path →
      exactTrust (child :: parent :: rest) < 2 ^ 256 → parent.nChainTrust < child.nChainTrust) ∧
    ∀ fProofOfStake, (getNextTargetRequired fTestNet path fProofOfStake).isSome := by
  refine ⟨fun pindex hmem => ?_, fun child parent rest hsuffix hsum => ?_, required_isSome htimes⟩
  · have htarget := hchain.isTarget pindex hmem
    exact ⟨htarget.range, htarget.one_le_trust⟩
  · have hmem : child ∈ path := hsuffix.subset mem_cons_self
    have hone := (hchain.isTarget child hmem).one_le_trust
    have hchild := hchain.nChainTrust_eq child (parent :: rest) hsuffix
    have hparent := hchain.nChainTrust_eq parent rest
      ((suffix_cons child (parent :: rest)).trans hsuffix)
    have hsplit := exactTrust_cons child (parent :: rest)
    rw [hchild, hparent, Nat.mod_eq_of_lt hsum, Nat.mod_eq_of_lt (by omega)]
    omega

end

/-- A mined block that states a target. -/
def minedBlock (nTime nBits : UInt32) : CBlock (List Nat) :=
  { sampleBlock 1 transparent.zero [sampleCoinbase 1 [⟨COIN, []⟩]] with nTime := nTime, nBits := nBits }

/-- Genesis and the blocks mined on it, each with its time and target, newest first. -/
def minedPath (blocks : List (UInt32 × UInt32)) : PTargetIndex (List Nat) :=
  blocks.foldr
    (fun block pprev => .new sampleConsensus (minedBlock block.1 block.2) 1 1000 pprev :: pprev)
    [.new sampleConsensus (genesisBlock sampleConsensus false) 1 8 []]

/-- Two blocks with the limit as their target and a third whose target is scaled. -/
def threeMined : List (UInt32 × UInt32) :=
  [(1775670300, 0x1e0e99a7), (1775670200, 0x1e0fffff), (1775670100, 0x1e0fffff)]

theorem targetChain_threeMined : TargetChain sampleConsensus false (minedPath threeMined) := by
  refine .accept (minedBlock _ _) 1 1000 (.accept (minedBlock _ _) 1 1000
    (.accept (minedBlock _ _) 1 1000 (.genesis 1 8) ?_) ?_) ?_
  all_goals decide +kernel

theorem targetChain_in_range_threeMined : (∀ pindex ∈ minedPath threeMined,
      (0 < setCompact pindex.nBits ∧ setCompact pindex.nBits ≤ bnTargetLimit false pindex.fProofOfStake ∧
        getCompact (setCompact pindex.nBits) = pindex.nBits) ∧ 1 ≤ getBlockTrust pindex.nBits) ∧
    (∀ child parent rest, child :: parent :: rest <:+ minedPath threeMined →
      exactTrust (child :: parent :: rest) < 2 ^ 256 → parent.nChainTrust < child.nChainTrust) ∧
    ∀ fProofOfStake, (getNextTargetRequired false (minedPath threeMined) fProofOfStake).isSome :=
  targetChain_in_range targetChain_threeMined (by decide +kernel)

end MaryJaneCoin
