import MaryJaneCoin.Chain.TransactionCodec
import MaryJaneCoin.Wallet.Solver

/-!
# Bloom filters of light clients

A light client loads a filter, adds elements to it and is then sent the transactions that the
filter calls relevant.  The filter may call too many relevant, but it never misses one: what was
inserted stays contained, also the outputs that are inserted while transactions are
looked at. -/

namespace MaryJaneCoin

open Codec List

/-- What the instructions of a script push, up to the first one that cannot be read. -/
def CScript.pushes (pc : CScript) : List Bytes :=
  match hop : getOp pc with
  | none => []
  | some (_, data, rest) =>
    have : rest.length < pc.length := length_getOp hop
    data :: pushes rest
termination_by pc.length

/-- `ROTL32`. -/
def rotl32 (x r : UInt32) : UInt32 := x <<< r ||| x >>> (32 - r)

/-- `MurmurHash3`, on a machine that reads words from their low byte. -/
def murmurHash3 (nHashSeed : UInt32) (vDataToHash : Bytes) : UInt32 :=
  let mix (bytes : Bytes) :=
    rotl32 (UInt32.ofNat (Nat.ofDigits 256 (bytes.map UInt8.toNat)) * 0xcc9e2d51) 15 * 0x1b873593
  let nblocks := vDataToHash.length / 4
  let h1 := (range nblocks).foldl (fun h1 i =>
    rotl32 (h1 ^^^ mix ((vDataToHash.drop (4 * i)).take 4)) 13 * 5 + 0xe6546b64) nHashSeed
  let tail := vDataToHash.drop (4 * nblocks)
  let h1 := if tail = [] then h1 else h1 ^^^ mix tail
  let h1 := h1 ^^^ UInt32.ofNat vDataToHash.length
  let h1 := (h1 ^^^ h1 >>> 16) * 0x85ebca6b
  let h1 := (h1 ^^^ h1 >>> 13) * 0xc2b2ae35
  h1 ^^^ h1 >>> 16

def MAX_BLOOM_FILTER_SIZE : Nat := 36000
def MAX_HASH_FUNCS : UInt32 := 50
def MAX_SCRIPT_ELEMENT_SIZE : Nat := 520
def BLOOM_UPDATE_ALL : UInt8 := 1
def BLOOM_UPDATE_P2PUBKEY_ONLY : UInt8 := 2
def BLOOM_UPDATE_MASK : UInt8 := 3

def bitMask (n : Nat) : UInt8 := [0x01, 0x02, 0x04, 0x08, 0x10, 0x20, 0x40, 0x80].getD (n % 8) 0

structure CBloomFilter where
  vData : Bytes
  isFull : Bool
  isEmpty : Bool
  nHashFuncs : UInt32
  nTweak : UInt32
  nFlags : UInt8

/-- `COutPoint` as it is written to a stream. -/
def putCOutPoint (outpoint : COutPoint uint256) : Bytes :=
  putHash outpoint.hash ++ putUInt32 outpoint.n

/-- The messages about the filter of a peer, and the transactions that it is asked about.  The
constructor of a cleared filter leaves the members that it does not set as they are in memory. -/
inductive FilterCall where
  | filterload (filter : CBloomFilter)
  | filteradd (vData : Bytes)
  | filterclear (memory : CBloomFilter)
  | relevant (tx : CTransaction uint256) (txid : uint256)

namespace CBloomFilter

def testBit (vData : Bytes) (nIndex : Nat) : Bool := vData.getD (nIndex / 8) 0 &&& bitMask nIndex != 0

def setBit (vData : Bytes) (nIndex : Nat) : Bytes :=
  vData.set (nIndex / 8) (vData.getD (nIndex / 8) 0 ||| bitMask nIndex)

/-- `CBloomFilter()`. -/
def cleared (memory : CBloomFilter) : CBloomFilter := { memory with vData := [], isFull := true }

variable (f : CBloomFilter)

/-- `IsWithinSizeConstraints`, which `filterload` asks for. -/
def isWithinSizeConstraints : Bool :=
  f.vData.length ≤ MAX_BLOOM_FILTER_SIZE && f.nHashFuncs ≤ MAX_HASH_FUNCS

/-- `UpdateEmptyFull`, after a filter was loaded. -/
def updateEmptyFull : CBloomFilter :=
  { f with isFull := f.vData.all (· == 0xff), isEmpty := f.vData.all (· == 0) }

/-- `Hash`; the remainder is modulo zero for a filter without bits. -/
def hash (nHashNum : Nat) (vDataToHash : Bytes) : Nat :=
  (murmurHash3 (UInt32.ofNat nHashNum * 0xFBA4C795 + f.nTweak) vDataToHash).toNat % (f.vData.length * 8)

/-- `insert`: a full filter has everything already. -/
def insert (vKey : Bytes) : CBloomFilter :=
  if f.isFull then f
  else
    { f with
      vData := (range f.nHashFuncs.toNat).foldl (fun vData i => setBit vData (f.hash i vKey)) f.vData
      isEmpty := false }

/-- `contains`: all bits of the element are there. -/
def contains (vKey : Bytes) : Bool :=
  if f.isFull then true
  else if f.isEmpty then false
  else (range f.nHashFuncs.toNat).all fun i => testBit f.vData (f.hash i vKey)

/-- A push of a script is contained. -/
def hitsPush (script : CScript) : Bool :=
  script.pushes.any fun data => data.length != 0 && f.contains data

/-- Insert an output that was hit, as the flags say. -/
def update (scriptPubKey : CScript) (outpoint : COutPoint uint256) : CBloomFilter :=
  if f.nFlags &&& BLOOM_UPDATE_MASK = BLOOM_UPDATE_ALL then f.insert (putCOutPoint outpoint)
  else if f.nFlags &&& BLOOM_UPDATE_MASK = BLOOM_UPDATE_P2PUBKEY_ONLY then
    match solver scriptPubKey with
    | some (type, _) =>
      if type = .TX_PUBKEY || type = .TX_MULTISIG then f.insert (putCOutPoint outpoint) else f
    | none => f
  else f

/-- One round of the loop over the outputs. -/
def scanOutput (txid : uint256) (acc : Bool × CBloomFilter) (txout : CTxOut × Nat) :
    Bool × CBloomFilter :=
  if acc.2.hitsPush txout.1.scriptPubKey then
    (true, acc.2.update txout.1.scriptPubKey ⟨txid, UInt32.ofNat txout.2⟩)
  else acc

/-- `IsRelevantAndUpdate`: first the outputs, which may grow the filter, then the inputs against
what it has become. -/
def isRelevantAndUpdate (tx : CTransaction uint256) (txid : uint256) : Bool × CBloomFilter :=
  if f.isFull then (true, f)
  else if f.isEmpty then (false, f)
  else
    let (fFound, f) := tx.vout.zipIdx.foldl (scanOutput txid) (f.contains (putHash txid), f)
    if fFound then (true, f)
    else
      (tx.vin.any fun txin => f.contains (putCOutPoint txin.prevout) || f.hitsPush txin.scriptSig, f)

/-- One call. -/
def step : FilterCall → CBloomFilter
  | .filterload filter => if filter.isWithinSizeConstraints then filter.updateEmptyFull else f
  | .filteradd vData => if vData.length > MAX_SCRIPT_ELEMENT_SIZE then f else f.insert vData
  | .filterclear memory => cleared memory
  | .relevant tx txid => (f.isRelevantAndUpdate tx txid).2

/-- The calls one after the other. -/
def run (calls : List FilterCall) : CBloomFilter := calls.foldl step f

/-- The filter is full, so that `Hash` is not evaluated, or has bits. -/
def Sound : Prop := f.isFull = true ∨ f.vData ≠ []

end CBloomFilter

/-- The filter is not replaced. -/
def FilterCall.keeps : FilterCall → Bool
  | .filterload filter => !filter.isWithinSizeConstraints
  | .filterclear _ => false
  | _ => true

namespace CBloomFilter

/-- A filter got to by insertions: of the same kind, with all bits of the one before. -/
structure Grows (f g : CBloomFilter) : Prop where
  kind : g = { f with vData := g.vData, isEmpty := g.isEmpty }
  isEmpty : f.isEmpty = false → g.isEmpty = false
  size : g.vData.length = f.vData.length
  bits : ∀ n, testBit f.vData n = true → testBit g.vData n = true

/-- A filter grows to itself. -/
theorem Grows.refl (f : CBloomFilter) : Grows f f := ⟨rfl, id, rfl, fun _ => id⟩

/-- Insertions one after another make one growth. -/
theorem Grows.trans {f g h : CBloomFilter} (hfg : Grows f g) (hgh : Grows g h) : Grows f h where
  kind := by rw [hgh.kind, hfg.kind]
  isEmpty hf := hgh.isEmpty (hfg.isEmpty hf)
  size := hgh.size.trans hfg.size
  bits n hn := hgh.bits n (hfg.bits n hn)

variable {f g : CBloomFilter}

/-- Growing leaves the mark of a full filter alone. -/
theorem Grows.isFull (h : Grows f g) : g.isFull = f.isFull := by rw [h.kind]

/-- Growing leaves the flags alone. -/
theorem Grows.nFlags (h : Grows f g) : g.nFlags = f.nFlags := by rw [h.kind]

/-- A filter that has bits keeps them, so `Hash` stays defined. -/
theorem Grows.sound (h : Grows f g) (hf : f.Sound) : g.Sound := by
  rcases hf with hfull | hdata
  · exact .inl (h.isFull.trans hfull)
  · refine .inr fun hnil => hdata ?_
    rw [← length_eq_zero_iff, ← h.size, hnil, length_nil]

/-- The bits of an element do not depend on what the filter contains. -/
theorem Grows.hash (h : Grows f g) : g.hash = f.hash := by
  unfold CBloomFilter.hash
  rw [h.size, h.kind]

/-- What a filter contains, it contains when it has grown. -/
theorem Grows.contains {vKey : Bytes} (h : Grows f g) (hcontains : f.contains vKey = true) :
    g.contains vKey = true := by
  have hfuncs : g.nHashFuncs = f.nHashFuncs := by rw [h.kind]
  unfold CBloomFilter.contains at hcontains ⊢
  rw [h.isFull, h.hash, hfuncs]
  split at hcontains
  · rename_i hfull
    rw [if_pos hfull]
  · rename_i hfull
    split at hcontains
    · cases hcontains
    · rename_i hempty
      rw [if_neg hfull, if_neg (by simp [h.isEmpty (by simpa using hempty)]), all_eq_true]
      exact fun i hi => h.bits _ (all_eq_true.mp hcontains i hi)

/-- A script that was hit stays hit. -/
theorem Grows.hitsPush {script : CScript} (h : Grows f g) (hhit : f.hitsPush script = true) :
    g.hitsPush script = true := by
  obtain ⟨data, hdata, hboth⟩ := any_eq_true.mp hhit
  obtain ⟨hne, hcontains⟩ := Bool.and_eq_true_iff.mp hboth
  exact any_eq_true.mpr ⟨data, hdata, Bool.and_eq_true_iff.mpr ⟨hne, h.contains hcontains⟩⟩

/-- Every mask has its one bit. -/
theorem bitMask_ne_zero (n : Nat) : bitMask n ≠ 0 := by
  have hlt : n % 8 < 8 := Nat.mod_lt _ (by decide)
  unfold bitMask
  interval_cases n % 8 <;> decide

/-- Masking distributes over the union of two bytes. -/
theorem or_and (a b mask : UInt8) : (a ||| b) &&& mask = a &&& mask ||| b &&& mask := by
  rw [← UInt8.toBitVec_inj]
  exact BitVec.and_or_distrib_right

/-- A bit inside the filter is there once it is set. -/
theorem testBit_setBit_self {vData : Bytes} {n : Nat} (hn : n < vData.length * 8) :
    testBit (setBit vData n) n = true := by
  have hlt : n / 8 < vData.length := by omega
  simp [testBit, setBit, getD_eq_getElem?_getD, hlt, or_and, bitMask_ne_zero]

/-- Setting a bit takes no other one away. -/
theorem testBit_setBit {vData : Bytes} {m : Nat} (n : Nat) (h : testBit vData m = true) :
    testBit (setBit vData n) m = true := by
  have hlt : m / 8 < vData.length := by
    by_contra hge
    simp [testBit, getD_eq_getElem?_getD, getElem?_eq_none (not_lt.mp hge)] at h
  by_cases heq : n / 8 = m / 8
  · simp_all [testBit, setBit, getD_eq_getElem?_getD, or_and]
  · simpa [testBit, setBit, getD_eq_getElem?_getD, getElem?_set_ne heq] using h

/-- The loop of `insert`. -/
theorem foldl_setBit (place : Nat → Nat) (is : List Nat) (vData : Bytes) :
    let vData' := is.foldl (fun vData i => setBit vData (place i)) vData
    vData'.length = vData.length ∧ (∀ m, testBit vData m = true → testBit vData' m = true) ∧
      ∀ i ∈ is, place i < vData.length * 8 → testBit vData' (place i) = true := by
  induction is generalizing vData with
  | nil => exact ⟨rfl, fun _ => id, fun _ hi => absurd hi not_mem_nil⟩
  | cons i is ih =>
    obtain ⟨hlength, hkept, hset⟩ := ih (setBit vData (place i))
    rw [setBit, length_set, ← setBit] at hlength hset
    refine ⟨hlength, fun m hm => hkept m (testBit_setBit _ hm), fun j hj hlt => ?_⟩
    rcases mem_cons.mp hj with rfl | hj
    · exact hkept _ (testBit_setBit_self hlt)
    · exact hset j hj hlt

/-- **`insert`**: the filter grows, and contains the element. -/
theorem insert_spec (hf : f.Sound) (vKey : Bytes) :
    Grows f (f.insert vKey) ∧ (f.insert vKey).contains vKey = true := by
  unfold insert
  split
  · rename_i hfull
    exact ⟨.refl f, if_pos hfull⟩
  · rename_i hfull
    obtain ⟨hlength, hkept, hset⟩ := foldl_setBit (f.hash · vKey) (range f.nHashFuncs.toNat) f.vData
    have hpos : 0 < f.vData.length * 8 := by
      have := length_pos_iff.mpr (hf.resolve_left hfull)
      omega
    refine (and_iff_left_of_imp fun hgrows => ?_).mpr ⟨rfl, fun _ => rfl, hlength, hkept⟩
    rw [CBloomFilter.contains, if_neg hfull, if_neg Bool.false_ne_true, hgrows.hash, all_eq_true]
    exact fun i hi => hset i hi (Nat.mod_lt _ hpos)

/-- Whatever the flags say, an update is a growth, and with `BLOOM_UPDATE_ALL` it contains the
output. -/
theorem update_spec (hf : f.Sound) (scriptPubKey : CScript) (outpoint : COutPoint uint256) :
    Grows f (f.update scriptPubKey outpoint) ∧ (f.nFlags &&& BLOOM_UPDATE_MASK = BLOOM_UPDATE_ALL →
      (f.update scriptPubKey outpoint).contains (putCOutPoint outpoint) = true) := by
  obtain ⟨hgrows, hcontains⟩ := insert_spec hf (putCOutPoint outpoint)
  unfold update
  split
  · exact ⟨hgrows, fun _ => hcontains⟩
  · rename_i hall
    refine ⟨?_, fun h => absurd h hall⟩
    split
    · split
      · split
        · exact hgrows
        · exact .refl f
      · exact .refl f
    · exact .refl f

/-- The outputs that hit a filter are found, and inserted in the one after it if all are to be. -/
def Finds (txid : uint256) (txouts : List (CTxOut × Nat)) (f : CBloomFilter)
    (done : Bool × CBloomFilter) : Prop :=
  ∀ txout ∈ txouts, f.hitsPush txout.1.scriptPubKey = true →
    done.1 = true ∧ (f.nFlags &&& BLOOM_UPDATE_MASK = BLOOM_UPDATE_ALL →
      done.2.contains (putCOutPoint ⟨txid, UInt32.ofNat txout.2⟩) = true)

/-- The loop over the outputs. -/
theorem scanOutputs_spec (txid : uint256) (txouts : List (CTxOut × Nat)) (acc : Bool × CBloomFilter)
    (hacc : acc.2.Sound) :
    let acc' := txouts.foldl (scanOutput txid) acc
    Grows acc.2 acc'.2 ∧ (acc.1 = true → acc'.1 = true) ∧ Finds txid txouts acc.2 acc' := by
  induction txouts generalizing acc with
  | nil => exact ⟨.refl _, id, fun _ h => absurd h not_mem_nil⟩
  | cons txout txouts ih =>
    rw [foldl_cons, scanOutput]
    split
    · obtain ⟨hgrows, hhere⟩ := update_spec hacc txout.1.scriptPubKey ⟨txid, UInt32.ofNat txout.2⟩
      obtain ⟨hgrows', hkept, hthere⟩ := ih (true, _) (hgrows.sound hacc)
      refine ⟨hgrows.trans hgrows', fun _ => hkept rfl, fun txout' htxout' hhit => ?_⟩
      rcases mem_cons.mp htxout' with rfl | htxout'
      · exact ⟨hkept rfl, fun hflags => hgrows'.contains (hhere hflags)⟩
      · rw [← hgrows.nFlags]
        exact hthere txout' htxout' (hgrows.hitsPush hhit)
    · rename_i hmiss
      obtain ⟨hgrows', hkept, hthere⟩ := ih acc hacc
      refine ⟨hgrows', hkept, fun txout' htxout' hhit => ?_⟩
      rcases mem_cons.mp htxout' with rfl | htxout'
      · exact absurd hhit hmiss
      · exact hthere txout' htxout' hhit

/-- **`IsRelevantAndUpdate`**: a transaction is relevant when an output hits the filter, which is
then inserted if all are to be, or when it spends an output that is contained. -/
theorem isRelevantAndUpdate_spec (hf : f.Sound) (tx : CTransaction uint256) (txid : uint256) :
    let done := f.isRelevantAndUpdate tx txid
    Grows f done.2 ∧ Finds txid tx.vout.zipIdx f done ∧
      ∀ txin ∈ tx.vin, f.contains (putCOutPoint txin.prevout) = true → done.1 = true := by
  unfold isRelevantAndUpdate
  split
  · rename_i hfull
    exact ⟨.refl f, fun _ _ _ => ⟨rfl, fun _ => if_pos hfull⟩, fun _ _ _ => rfl⟩
  · rename_i hfull
    split
    · rename_i hempty
      have hnone : ∀ vKey, f.contains vKey = false := fun vKey => by
        rw [contains, if_neg hfull, if_pos hempty]
      refine ⟨.refl f, fun txout _ hhit => ?_, fun txin _ hcontains => ?_⟩
      · simp [hitsPush, hnone] at hhit
      · simp [hnone] at hcontains
    · obtain ⟨hgrows, _, hfinds⟩ := scanOutputs_spec txid tx.vout.zipIdx
        (f.contains (putHash txid), f) hf
      simp only
      split
      · exact ⟨hgrows, fun txout htxout hhit => ⟨rfl, (hfinds txout htxout hhit).2⟩, fun _ _ _ => rfl⟩
      · rename_i hmiss
        refine ⟨hgrows, fun txout htxout hhit => absurd (hfinds txout htxout hhit).1 hmiss, ?_⟩
        intro txin htxin hcontains
        exact any_eq_true.mpr ⟨txin, htxin, by rw [hgrows.contains hcontains, Bool.true_or]⟩

/-- **One call**: a filter that is not replaced grows. -/
theorem step_spec (hf : f.Sound) (call : FilterCall) :
    (f.step call).Sound ∧ (call.keeps = true → Grows f (f.step call)) := by
  cases call with
  | filterload filter =>
    rw [step, FilterCall.keeps]
    split
    · rename_i hsize
      refine ⟨?_, fun hkeeps => by simp [hsize] at hkeeps⟩
      cases hdata : filter.vData with
      | nil => exact .inl (by simp [updateEmptyFull, hdata])
      | cons byte rest => exact .inr (by simp [updateEmptyFull, hdata])
    · exact ⟨hf, fun _ => .refl f⟩
  | filteradd vData =>
    rw [step]
    split
    · exact ⟨hf, fun _ => .refl f⟩
    · have hgrows := (insert_spec hf vData).1
      exact ⟨hgrows.sound hf, fun _ => hgrows⟩
  | filterclear memory => exact ⟨.inl rfl, fun hkeeps => absurd hkeeps Bool.false_ne_true⟩
  | relevant tx txid =>
    have hgrows := (isRelevantAndUpdate_spec hf tx txid).1
    exact ⟨hgrows.sound hf, fun _ => hgrows⟩

/-- **A run of messages** keeps the filter sound, and grows it as long as it is not replaced. -/
theorem run_spec (hf : f.Sound) (calls : List FilterCall) :
    (f.run calls).Sound ∧ ((∀ call ∈ calls, call.keeps = true) → Grows f (f.run calls)) := by
  induction calls generalizing f with
  | nil => exact ⟨hf, fun _ => .refl f⟩
  | cons call calls ih =>
    obtain ⟨hsound, hgrows⟩ := step_spec hf call
    obtain ⟨hsound', hgrows'⟩ := ih hsound
    refine ⟨hsound', fun hkeeps => ?_⟩
    exact (hgrows (hkeeps call mem_cons_self)).trans (hgrows' fun c hc => hkeeps c (mem_cons_of_mem _ hc))

/-- **A filter never misses.**  `Hash` is never evaluated for a filter without bits.  What
`filteradd` inserted stays contained until the filter is replaced.  When all outputs that are hit
are to be inserted, a transaction with an output that pushes it is relevant, and so is every later
one that spends that output. -/
theorem bloom_filter_never_misses (memory : CBloomFilter) (calls : List FilterCall) :
    let g := (cleared memory).run calls
    g.Sound ∧ ∀ before vKey behind, calls = before ++ .filteradd vKey :: behind →
      vKey.length ≤ MAX_SCRIPT_ELEMENT_SIZE → (∀ call ∈ behind, call.keeps = true) →
      g.contains vKey = true ∧
      (g.nFlags &&& BLOOM_UPDATE_MASK = BLOOM_UPDATE_ALL → vKey ≠ [] →
        ∀ (tx : CTransaction uint256) (txid : uint256) (i : Nat) (txout : CTxOut),
          tx.vout[i]? = some txout → vKey ∈ txout.scriptPubKey.pushes →
          let done := g.isRelevantAndUpdate tx txid
          done.1 = true ∧ ∀ later : List FilterCall, (∀ call ∈ later, call.keeps = true) →
            ∀ (tx' : CTransaction uint256) (txid' : uint256),
              (∃ txin ∈ tx'.vin, txin.prevout = ⟨txid, UInt32.ofNat i⟩) →
              ((done.2.run later).isRelevantAndUpdate tx' txid').1 = true) := by
  intro g
  have hstart : (cleared memory).Sound := .inl rfl
  have hg : g.Sound := (run_spec hstart calls).1
  refine ⟨hg, fun before vKey behind hcalls hshort hkeeps => ?_⟩
  have hmid := (run_spec hstart before).1
  obtain ⟨hgrows, hin⟩ := insert_spec hmid vKey
  have hlast := (run_spec (hgrows.sound hmid) behind).2 hkeeps
  have hrun : g = (((cleared memory).run before).insert vKey).run behind := by
    show run _ calls = _
    rw [hcalls, run, foldl_append, foldl_cons, step, if_neg (Nat.not_lt.mpr hshort)]
    rfl
  rw [← hrun] at hlast
  have hcontains := hlast.contains hin
  refine ⟨hcontains, fun hflags hne tx txid i txout htxout hpush => ?_⟩
  obtain ⟨hgrows', hfinds, _⟩ := isRelevantAndUpdate_spec hg tx txid
  have hhit : g.hitsPush txout.scriptPubKey = true :=
    any_eq_true.mpr ⟨vKey, hpush, by simp [hne, hcontains]⟩
  obtain ⟨hfound, hall⟩ := hfinds (txout, i) (mem_zipIdx_iff_getElem?.mpr htxout) hhit
  refine ⟨hfound, fun later hlater tx' txid' hspends => ?_⟩
  obtain ⟨txin, htxin, hprevout⟩ := hspends
  obtain ⟨hlate, hgrows''⟩ := run_spec (hgrows'.sound hg) later
  refine (isRelevantAndUpdate_spec hlate tx' txid').2.2 txin htxin ?_
  rw [hprevout]
  exact (hgrows'' hlater).contains (hall hflags)

/-- A filter of eight bytes for all outputs that are hit. -/
def emptyFilter : CBloomFilter := ⟨List.replicate 8 0, false, true, 3, 5, BLOOM_UPDATE_ALL⟩

/-- A transaction that pays to a script that pushes two bytes. -/
def pushingTx : CTransaction uint256 := ⟨1, 0, [], [⟨5, [2, 7, 9]⟩], 0, .null⟩

/-- One that spends it. -/
def spendingTx : CTransaction uint256 := ⟨1, 0, [⟨⟨40, 0⟩, [], 0⟩], [], 0, .null⟩

theorem bloom_filter_never_misses_pushing :
    let g := (cleared emptyFilter).run [.filterload emptyFilter, .filteradd [7, 9], .filteradd [8]]
    let done := g.isRelevantAndUpdate pushingTx 40
    done.1 = true ∧
      ((done.2.run [.filteradd [3], .relevant spendingTx 41]).isRelevantAndUpdate spendingTx 42).1 =
        true := by
  intro g done
  have hpush : ([7, 9] : Bytes) ∈ CScript.pushes [2, 7, 9] := by decide +kernel
  obtain ⟨-, hadded⟩ := bloom_filter_never_misses emptyFilter
    [.filterload emptyFilter, .filteradd [7, 9], .filteradd [8]]
  obtain ⟨-, hrelevant⟩ := hadded [.filterload emptyFilter] [7, 9] [.filteradd [8]] rfl (by decide)
    (by simp [FilterCall.keeps])
  obtain ⟨hfound, hlater⟩ := hrelevant (by decide +kernel) (by decide) pushingTx 40 0 _ rfl hpush
  refine ⟨hfound, hlater [.filteradd [3], .relevant spendingTx 41] ?_ spendingTx 42 ?_⟩
  · simp [FilterCall.keeps]
  · exact ⟨_, mem_cons_self, rfl⟩

end CBloomFilter

end MaryJaneCoin
