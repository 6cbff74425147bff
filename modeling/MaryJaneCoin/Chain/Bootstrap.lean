import MaryJaneCoin.Chain.BlockFiles
import MaryJaneCoin.Lib.FirstMatch
import MaryJaneCoin.Lib.WhileLoop

/-!
# The import of a bootstrap file

The loop of `LoadExternalBlockFile` looks for the network's marker through a
window of 64 KiB, reads a size and a block behind it, and hands the block to
`ProcessBlock`.  Its position is an `unsigned int`, so what is proved here is
about files that leave it room; in a longer one it starts over.
-/

namespace MaryJaneCoin

open Codec PrefixCode FirstMatch WhileLoop CBlock
open List hiding Vector

def pchMessageStart (fTestNet : Bool) : Vector UInt8 4 :=
  if fTestNet then #v[0x44, 0x52, 0x50, 0x54] else #v[0x44, 0x45, 0x52, 0x50]

namespace Bootstrap

/-- What one `fread` leads to: nothing more to look for, a position behind a
marker, or a position to go on from. -/
inductive Scan
  | atEnd
  | found (nPos : UInt32)
  | next (nPos : UInt32)
deriving DecidableEq

/-- One round of the inner loop. -/
def scan (fTestNet : Bool) (file : Bytes) (nPos : UInt32) : Scan :=
  let pchData := (file.drop nPos.toNat).take 65536
  if pchData.length ≤ 8 then .atEnd
  else
    match (pchData.take (pchData.length + 1 - 4)).findIdx? (· == (pchMessageStart fTestNet)[0]) with
    | some nFind =>
      if (pchData.drop nFind).take 4 = (pchMessageStart fTestNet).toList then
        .found (nPos + UInt32.ofNat (nFind + 4))
      else .next (nPos + UInt32.ofNat (nFind + 1))
    | none => .next (nPos + (65536 - 4 + 1))

/-- The state of the loops.  `processed` lists the calls of `ProcessBlock`. -/
structure LoadState (σ : Type) where
  /-- Whether the inner loop is running. -/
  fScanning : Bool
  nPos : UInt32
  node : σ
  processed : List (CBlock uint256)
  nLoaded : Nat
  /-- What `fRequestShutdown` is whenever it is looked at from here on. -/
  fRequestShutdown : Nat → Bool

/-- The state after a look at `fRequestShutdown`. -/
def LoadState.looked {σ : Type} (s : LoadState σ) : LoadState σ :=
  { s with fRequestShutdown := fun look => s.fRequestShutdown (look + 1) }

section

variable {σ : Type} (sizes : BlockSizes) (fTestNet : Bool) (file : Bytes)
  (processBlock : σ → CBlock uint256 → Option (Bool × σ))

/-- What follows the inner loop.  An exception, of a reader or of
`ProcessBlock`, ends the import. -/
def readRecord (s : LoadState σ) : LoadState σ ⊕ LoadState σ :=
  if s.nPos = 0xFFFFFFFF then .inr s
  else
    match getUInt32 (file.drop s.nPos.toNat) with
    | none => .inr s
    | some (nSize, behind) =>
      if 0 < nSize.toNat ∧ nSize.toNat ≤ MAX_BLOCK_SIZE then
        match unserializeBlock sizes behind with
        | none => .inr s
        | some (block, _) =>
          match processBlock s.node block with
          | none => .inr { s with processed := s.processed ++ [block] }
          | some (fLoaded, node) =>
            .inl { s with
              fScanning := false
              nPos := s.nPos + (4 + nSize)
              node := node
              processed := s.processed ++ [block]
              nLoaded := if fLoaded then s.nLoaded + 1 else s.nLoaded }
      else .inl { s with fScanning := false }

/-- One round of `LoadExternalBlockFile`: the condition of the outer loop, or a
round of the inner one. -/
def loadStep (s : LoadState σ) : LoadState σ ⊕ LoadState σ :=
  if !s.fScanning then
    if s.nPos = 0xFFFFFFFF ∨ s.fRequestShutdown 0 then .inr s
    else .inl { s.looked with fScanning := true }
  else
    match scan fTestNet file s.nPos with
    | .atEnd => .inr { s with nPos := 0xFFFFFFFF }
    | .found nPos => readRecord sizes file processBlock { s with nPos := nPos }
    | .next nPos =>
      if s.fRequestShutdown 0 then
        readRecord sizes file processBlock { s.looked with nPos := nPos }
      else .inl { s.looked with nPos := nPos }

end

/-- The state that the import starts in. -/
def loadStart {σ : Type} (node : σ) (fRequestShutdown : Nat → Bool) : LoadState σ :=
  ⟨false, 0, node, [], 0, fRequestShutdown⟩

variable {σ : Type} {sizes : BlockSizes} {fTestNet : Bool} {file : Bytes}
  {processBlock : σ → CBlock uint256 → Option (Bool × σ)} {s s' : LoadState σ}

/-- A file that leaves room behind its end for the longest step keeps the
position in an `unsigned int`. -/
theorem toNat_add {nPos step : UInt32} (h : nPos.toNat + step.toNat < 2 ^ 32) :
    (nPos + step).toNat = nPos.toNat + step.toNat := by
  rw [UInt32.toNat_add]
  exact Nat.mod_eq_of_lt h

variable {nPos : UInt32}

variable {bytes : Bytes}

/-- **What a round of the inner loop finds**, of the bytes that start at its position: that few
are left, the first byte of the marker at its first place, or no such byte in the window. -/
theorem scan_cases (fTestNet : Bool) (hbytes : file.drop nPos.toNat = bytes) :
    (bytes.length ≤ 8 ∧ scan fTestNet file nPos = .atEnd) ∨
    (8 < bytes.length ∧ ∃ nFind, nFind + 4 ≤ bytes.length ∧ nFind < 65536 ∧
      bytes[nFind]? = some (pchMessageStart fTestNet)[0] ∧
      (∀ j < nFind, bytes[j]? ≠ some (pchMessageStart fTestNet)[0]) ∧ scan fTestNet file nPos =
        if (pchMessageStart fTestNet).toList <+: bytes.drop nFind then
          .found (nPos + UInt32.ofNat (nFind + 4))
        else .next (nPos + UInt32.ofNat (nFind + 1))) ∨
    (8 < bytes.length ∧ scan fTestNet file nPos = .next (nPos + 65533) ∧
      ∀ j < min 65536 bytes.length - 3, bytes[j]? ≠ some (pchMessageStart fTestNet)[0]) := by
  unfold scan
  simp only [hbytes]
  set pchData := bytes.take 65536 with hdata
  have hlength : pchData.length = min 65536 bytes.length := by rw [hdata, length_take]
  have hsearched : ∀ j < min 65536 bytes.length - 3,
      (pchData.take (pchData.length + 1 - 4))[j]? = bytes[j]? := by
    intro j hj
    rw [getElem?_take_of_lt (by omega), hdata, getElem?_take_of_lt (by omega)]
  split
  · exact .inl ⟨by omega, rfl⟩
  · rename_i hmore
    split
    · rename_i nFind hfind
      obtain ⟨hinside, hfirst, hbefore⟩ := findIdx?_eq_some_iff_getElem.mp hfind
      have hlt := hinside
      rw [length_take] at hlt
      refine .inr (.inl ⟨by omega, nFind, by omega, by omega, ?_, ?_, ?_⟩)
      · rw [← hsearched nFind (by omega), getElem?_eq_getElem hinside, beq_iff_eq.mp hfirst]
      · intro j hj heq
        rw [← hsearched j (by omega), List.getElem?_eq_some_iff] at heq
        obtain ⟨_, heq⟩ := heq
        exact hbefore j hj (beq_iff_eq.mpr heq)
      · have hsame : (pchData.drop nFind).take 4 = (bytes.drop nFind).take 4 := by
          rw [hdata, drop_take, take_take, Nat.min_eq_left (by omega)]
        have hfour : (pchMessageStart fTestNet).toList.length = 4 := Vector.length_toList
        have hiff : (pchMessageStart fTestNet).toList <+: bytes.drop nFind ↔
            (pchData.drop nFind).take 4 = (pchMessageStart fTestNet).toList := by
          rw [hsame, prefix_iff_eq_take, hfour, eq_comm]
        simp only [hiff]
    · rename_i hnone
      refine .inr (.inr ⟨by omega, rfl, ?_⟩)
      intro j hj heq
      rw [← hsearched j hj] at heq
      have hno := findIdx?_eq_none_iff.mp hnone _ (mem_of_getElem? heq)
      simp at hno

/-- A position that is found or gone on from lies further on. -/
theorem lt_of_scan {nPos nPos' : UInt32} (hroom : file.length + 65525 ≤ 2 ^ 32)
    (h : scan fTestNet file nPos = .found nPos' ∨ scan fTestNet file nPos = .next nPos') :
    nPos.toNat < nPos'.toNat := by
  have hstep : ∀ step : Nat, 0 < step → nPos.toNat + step < 2 ^ 32 →
      nPos.toNat < (nPos + UInt32.ofNat step).toNat := by
    intro step hpos hlt
    have hsize : (UInt32.ofNat step).toNat = step := UInt32.toNat_ofNat_of_lt'
      (Nat.lt_of_le_of_lt (Nat.le_add_left _ _) hlt)
    rw [toNat_add (by rwa [hsize]), hsize]
    omega
  have hleft : (file.drop nPos.toNat).length = file.length - nPos.toNat := length_drop
  have hrest : file.drop nPos.toNat = file.drop nPos.toNat := rfl
  rcases scan_cases fTestNet hrest with
    ⟨-, hend⟩ | ⟨hmore, nFind, hfits, -, -, -, hfind⟩ | ⟨hmore, hnone, -⟩
  · simp [hend] at h
  · rw [hfind] at h
    split at h
    · simp only [Scan.found.injEq, reduceCtorEq, or_false] at h
      exact h ▸ hstep (nFind + 4) (by omega) (by omega)
    · simp only [Scan.next.injEq, reduceCtorEq, false_or] at h
      exact h ▸ hstep (nFind + 1) (by omega) (by omega)
  · simp only [hnone, Scan.next.injEq, reduceCtorEq, false_or] at h
    exact h ▸ hstep 65533 (by omega) (by omega)

/-- Behind a record the outer loop goes on, no further in front. -/
theorem readRecord_inl (hroom : file.length + MAX_BLOCK_SIZE < 2 ^ 32)
    (h : readRecord sizes file processBlock s = .inl s') :
    s'.fScanning = false ∧ s.nPos.toNat ≤ s'.nPos.toNat := by
  unfold readRecord at h
  split at h
  · cases h
  · split at h
    · cases h
    · rename_i nSize behind hsize
      split at h
      · rename_i hlimit
        split at h
        · cases h
        · split at h
          · cases h
          · cases h
            refine ⟨rfl, ?_⟩
            have hbytes := congrArg List.length ((exact_uint32 _ _ _).mp hsize).2
            rw [length_drop, length_append, putUInt32, length_putLE] at hbytes
            have hmax : MAX_BLOCK_SIZE = 1000000 := rfl
            have hstep : (4 + nSize).toNat = 4 + nSize.toNat := toNat_add (by
              show 4 + nSize.toNat < 2 ^ 32
              omega)
            show s.nPos.toNat ≤ (s.nPos + (4 + nSize)).toNat
            rw [toNat_add (by omega)]
            omega
      · cases h
        exact ⟨rfl, le_rfl⟩

/-- What is left to be looked at. -/
def remaining (s : LoadState σ) : Nat :=
  2 * (2 ^ 32 - s.nPos.toNat) + if s.fScanning then 0 else 1

/-- Every round leaves less. -/
theorem remaining_lt (hroom : file.length + MAX_BLOCK_SIZE < 2 ^ 32)
    (h : loadStep sizes fTestNet file processBlock s = .inl s') : remaining s' < remaining s := by
  have hwindow : file.length + 65525 ≤ 2 ^ 32 := by
    have hmax : MAX_BLOCK_SIZE = 1000000 := rfl
    omega
  have hlast := s'.nPos.toNat_lt
  have hrecord : ∀ passed : LoadState σ, s.nPos.toNat < passed.nPos.toNat → s.fScanning = true →
      readRecord sizes file processBlock passed = .inl s' → remaining s' < remaining s := by
    intro passed hlt hscanning hread
    obtain ⟨hout, hle⟩ := readRecord_inl hroom hread
    simp only [remaining, hout, hscanning, if_true, Bool.false_eq_true, if_false]
    omega
  unfold loadStep at h
  split at h
  · rename_i hout
    split at h
    · cases h
    · cases h
      simp only [Bool.not_eq_eq_eq_not, Bool.not_true] at hout
      simp [remaining, hout, LoadState.looked]
  · rename_i hin
    simp only [Bool.not_eq_eq_eq_not, Bool.not_true, Bool.not_eq_false] at hin
    split at h
    · cases h
    · rename_i nPos hfound
      exact hrecord _ (lt_of_scan hwindow (.inl hfound)) hin h
    · rename_i nPos hnext
      have hlt := lt_of_scan hwindow (.inr hnext)
      split at h
      · exact hrecord _ hlt hin h
      · cases h
        simp only [remaining, hin, LoadState.looked, if_true]
        have hlast' := nPos.toNat_lt
        omega

/-- **The import of a file ends**, if it leaves room for a size behind its end. -/
theorem load_ends (hroom : file.length + MAX_BLOCK_SIZE < 2 ^ 32) (s : LoadState σ) :
    ∃ r, Ends (loadStep sizes fTestNet file processBlock) s r :=
  exists_ends remaining (fun _ _ h => remaining_lt hroom h) s

/-- A record: what stands before the marker, and the block. -/
structure BlockRecord (fTestNet : Bool) where
  gap : Bytes
  block : CBlock uint256
  gap_plain : ¬(pchMessageStart fTestNet).toList <:+: gap
  encodable : block.Encodable

/-- A record as it stands in a file. -/
def putRecord (record : BlockRecord fTestNet) : Bytes :=
  record.gap ++ ((pchMessageStart fTestNet).toList ++
    (putUInt32 (UInt32.ofNat (putCBlock record.block).length) ++ putCBlock record.block))

/-- The first byte of a marker does not come again in it. -/
theorem pchMessageStart_toList (fTestNet : Bool) :
    ∃ others, (pchMessageStart fTestNet).toList = (pchMessageStart fTestNet)[0] :: others ∧
      (pchMessageStart fTestNet)[0] ∉ others := by
  cases fTestNet with
  | false => exact ⟨[0x45, 0x52, 0x50], by decide⟩
  | true => exact ⟨[0x52, 0x50, 0x54], by decide⟩

/-- **The inner loop does not pass the first marker.** -/
theorem scan_of_marker {k : Nat}
    (hroom : file.length + 65525 ≤ 2 ^ 32) (hbytes : file.drop nPos.toNat = bytes)
    (hnone : NoneBefore (pchMessageStart fTestNet).toList k bytes)
    (hmarker : (pchMessageStart fTestNet).toList <+: bytes.drop k) (hmore : k + 8 < bytes.length) :
    (∃ nPos', scan fTestNet file nPos = .found nPos' ∧ nPos'.toNat = nPos.toNat + (k + 4)) ∨
    ∃ nPos' j, scan fTestNet file nPos = .next nPos' ∧ nPos'.toNat = nPos.toNat + j ∧ 0 < j ∧ j ≤ k := by
  have hlength : bytes.length = file.length - nPos.toNat := by rw [← hbytes, length_drop]
  have hstep : ∀ step : Nat, step ≤ 65540 → nPos.toNat + step ≤ file.length →
      (nPos + UInt32.ofNat step).toNat = nPos.toNat + step := by
    intro step hle hlt
    have hsize : (UInt32.ofNat step).toNat = step :=
      UInt32.toNat_ofNat_of_lt' (Nat.lt_of_le_of_lt hle (by decide))
    rw [toNat_add (by omega), hsize]
  have hfirst : bytes[k]? = some (pchMessageStart fTestNet)[0] := by
    obtain ⟨others, hlist, -⟩ := pchMessageStart_toList fTestNet
    obtain ⟨behind, heq⟩ := hmarker
    rw [← Nat.add_zero k, ← getElem?_drop, ← heq, hlist]
    rfl
  rcases scan_cases fTestNet hbytes with
    ⟨hfew, -⟩ | ⟨-, nFind, hfits, hinside, -, hbefore, hfind⟩ | ⟨-, hnext, hno⟩
  · omega
  · have hle : nFind ≤ k := by
      refine Nat.not_lt.mp fun hlt => ?_
      exact hbefore k hlt hfirst
    by_cases hhere : (pchMessageStart fTestNet).toList <+: bytes.drop nFind
    · have hge : k ≤ nFind := Nat.not_lt.mp fun hlt => hnone nFind hlt hhere
      rw [if_pos hhere, Nat.le_antisymm hle hge] at hfind
      exact .inl ⟨_, hfind, hstep (k + 4) (by omega) (by omega)⟩
    · have hne : nFind ≠ k := fun heq => hhere (heq ▸ hmarker)
      rw [if_neg hhere] at hfind
      exact .inr ⟨_, nFind + 1, hfind, hstep (nFind + 1) (by omega) (by omega), by omega, by omega⟩
  · -- Without the first byte in the window, the marker lies behind it.
    have hbehind : min 65536 bytes.length - 3 ≤ k := Nat.not_lt.mp fun hlt => hno k hlt hfirst
    exact .inr ⟨_, 65533, hnext, hstep 65533 (by omega) (by omega), by omega, by omega⟩

theorem scan_of_none (hbytes : file.drop nPos.toNat = bytes)
    (hnone : NoneBefore (pchMessageStart fTestNet).toList bytes.length bytes) :
    scan fTestNet file nPos = .atEnd ∨ ∃ nPos', scan fTestNet file nPos = .next nPos' := by
  rcases scan_cases fTestNet hbytes with
    ⟨-, hend⟩ | ⟨-, nFind, hfits, -, -, -, hfind⟩ | ⟨-, hnext, -⟩
  · exact .inl hend
  · rw [if_neg (hnone nFind (by omega))] at hfind
    exact .inr ⟨_, hfind⟩
  · exact .inr ⟨_, hnext⟩

/-- No shutdown is requested from here on. -/
def Undisturbed (s : LoadState σ) : Prop := s.fRequestShutdown = fun _ => false

theorem Undisturbed.looked (h : Undisturbed s) : s.looked = s := by
  cases s
  cases h
  rfl

/-- The inner loop goes on from the next position. -/
theorem loadStep_next (hin : s.fScanning = true) (hquiet : Undisturbed s)
    (hnext : scan fTestNet file s.nPos = .next nPos) :
    loadStep sizes fTestNet file processBlock s = .inl { s with nPos := nPos } := by
  rw [loadStep]
  simp only [hin, hnext, hquiet.looked, Bool.not_true, Bool.false_eq_true, if_false]
  rw [hquiet, if_neg Bool.false_ne_true]

/-- **The inner loop finds the first marker.** -/
theorem ends_of_marker {k : Nat} (hroom : file.length + 65525 ≤ 2 ^ 32)
    (hin : s.fScanning = true) (hquiet : Undisturbed s)
    (hnone : NoneBefore (pchMessageStart fTestNet).toList k (file.drop s.nPos.toNat))
    (hmarker : (pchMessageStart fTestNet).toList <+: (file.drop s.nPos.toNat).drop k)
    (hmore : k + 8 < (file.drop s.nPos.toNat).length) : ∃ nPos, nPos.toNat =
      s.nPos.toNat + (k + 4) ∧ ∀ r, Ends (loadStep sizes fTestNet file processBlock) s r ↔
        EndsAfter (loadStep sizes fTestNet file processBlock)
          (readRecord sizes file processBlock { s with nPos := nPos }) r := by
  induction k using Nat.strongRecOn generalizing s with
  | ind k ih =>
    rcases scan_of_marker hroom rfl hnone hmarker hmore with
      ⟨nPos, hfound, hpos⟩ | ⟨nPos, j, hnext, hpos, hj, hle⟩
    · refine ⟨nPos, hpos, fun r => ?_⟩
      rw [ends_iff, loadStep]
      simp only [hin, hfound, Bool.not_true, Bool.false_eq_true, if_false]
    · -- The bytes from the new position on, where the marker is nearer.
      have hstep : loadStep sizes fTestNet file processBlock s = .inl { s with nPos := nPos } :=
        loadStep_next hin hquiet hnext
      have hdrop : file.drop nPos.toNat = (file.drop s.nPos.toNat).drop j := by
        rw [drop_drop, hpos]
      have hleft : (file.drop nPos.toNat).length = (file.drop s.nPos.toNat).length - j := by
        rw [hdrop, length_drop]
      obtain ⟨nPos', hpos', hends⟩ := ih (k - j) (by omega)
        (s := { s with nPos := nPos }) hin hquiet (hdrop ▸ hnone.drop j) (by
          show _ <+: (file.drop nPos.toNat).drop (k - j)
          rw [hdrop, drop_drop, Nat.add_sub_cancel' hle]
          exact hmarker) (by
          show k - j + 8 < (file.drop nPos.toNat).length
          omega)
      refine ⟨nPos', ?_, fun r => (ends_iff_of_inl hstep).trans (hends r)⟩
      rw [hpos']
      show nPos.toNat + _ = _
      omega

/-- **Where there is no marker, nothing is processed any more.** -/
theorem ends_of_none (hroom : file.length + 65525 ≤ 2 ^ 32) (hin : s.fScanning = true)
    (hquiet : Undisturbed s)
    (hnone : NoneBefore (pchMessageStart fTestNet).toList (file.drop s.nPos.toNat).length
      (file.drop s.nPos.toNat)) :
    ∃ r, Ends (loadStep sizes fTestNet file processBlock) s r ∧ r.processed = s.processed := by
  induction hleft : 2 ^ 32 - s.nPos.toNat using Nat.strongRecOn generalizing s with
  | ind left ih =>
    rcases scan_of_none rfl hnone with hend | ⟨nPos, hnext⟩
    · have hstep : loadStep sizes fTestNet file processBlock s =
          .inr { s with nPos := 0xFFFFFFFF } := by
        rw [loadStep]
        simp only [hin, hend, Bool.not_true, Bool.false_eq_true, if_false]
      refine ⟨{ s with nPos := 0xFFFFFFFF }, ends_iff.mpr ?_, rfl⟩
      rw [hstep]
      rfl
    · have hstep : loadStep sizes fTestNet file processBlock s = .inl { s with nPos := nPos } :=
        loadStep_next hin hquiet hnext
      have hlt := lt_of_scan hroom (.inr hnext)
      have hlast := nPos.toNat_lt
      have hdrop : file.drop nPos.toNat =
          (file.drop s.nPos.toNat).drop (nPos.toNat - s.nPos.toNat) := by
        rw [drop_drop, Nat.add_sub_cancel' (Nat.le_of_lt hlt)]
      have hnone' : NoneBefore (pchMessageStart fTestNet).toList (file.drop nPos.toNat).length
          (file.drop nPos.toNat) := by
        rw [hdrop, length_drop]
        exact hnone.drop _
      obtain ⟨r, hends, hsame⟩ := ih (2 ^ 32 - nPos.toNat) (by omega) (s := { s with nPos := nPos })
        hin hquiet hnone' rfl
      exact ⟨r, (ends_iff_of_inl hstep).mpr hends, hsame⟩

theorem readRecord_block (sizes : BlockSizes) {block : CBlock uint256} {behind : Bytes}
    (hencodable : block.Encodable) (hsize : (putCBlock block).length ≤ MAX_BLOCK_SIZE)
    (hreturns : ∀ node block, (processBlock node block).isSome)
    (hlength : file.length + 65525 ≤ 2 ^ 32) (hbytes : file.drop s.nPos.toNat =
      putUInt32 (UInt32.ofNat (putCBlock block).length) ++ (putCBlock block ++ behind)) :
    ∃ s', readRecord sizes file processBlock s = .inl s' ∧ s'.fScanning = false ∧
      s'.nPos.toNat = s.nPos.toNat + (4 + (putCBlock block).length) ∧
      s'.processed = s.processed ++ [block] ∧ s'.fRequestShutdown = s.fRequestShutdown := by
  have hleft := congrArg List.length hbytes
  rw [length_drop, length_append, length_append, putUInt32, length_putLE] at hleft
  have hinside : s.nPos.toNat < 2 ^ 32 - 1 := by omega
  have hne : s.nPos ≠ 0xFFFFFFFF := by
    intro heq
    rw [heq] at hinside
    exact absurd hinside (by decide)
  have hmax : MAX_BLOCK_SIZE = 1000000 := rfl
  have htoNat : (UInt32.ofNat (putCBlock block).length).toNat = (putCBlock block).length :=
    UInt32.toNat_ofNat_of_lt' (Nat.lt_of_le_of_lt hsize (by decide))
  have hpos : 0 < (putCBlock block).length := by
    simp only [putCBlock, length_append, length_putCBlockHeader]
    have hheader : HEADER_SIZE = 80 := rfl
    omega
  obtain ⟨⟨fLoaded, node⟩, hprocess⟩ := Option.isSome_iff_exists.mp (hreturns s.node block)
  refine ⟨{ s with
    fScanning := false
    nPos := s.nPos + (4 + UInt32.ofNat (putCBlock block).length)
    node := node
    processed := s.processed ++ [block]
    nLoaded := if fLoaded then s.nLoaded + 1 else s.nLoaded }, ?_, rfl, ?_, rfl, rfl⟩
  · rw [readRecord, if_neg hne, hbytes, (exact_uint32 _ _ _).mpr ⟨trivial, rfl⟩]
    simp only [htoNat, if_pos (And.intro hpos hsize),
      (exact_block sizes _ block behind).mpr ⟨hencodable, rfl⟩, hprocess]
  · have hstep : (4 + UInt32.ofNat (putCBlock block).length).toNat = 4 + (putCBlock block).length := by
      rw [toNat_add (by rw [htoNat]; show 4 + _ < _; omega), htoNat]
      rfl
    show (s.nPos + (4 + UInt32.ofNat (putCBlock block).length)).toNat = _
    rw [toNat_add (by omega), hstep]

/-- The outer loop starts the inner one. -/
theorem loadStep_check (hout : s.fScanning = false) (hquiet : Undisturbed s)
    (hinside : s.nPos.toNat < 2 ^ 32 - 1) :
    loadStep sizes fTestNet file processBlock s = .inl { s with fScanning := true } := by
  have hne : s.nPos ≠ 0xFFFFFFFF := by
    intro heq
    rw [heq] at hinside
    exact absurd hinside (by decide)
  have hno : ¬(s.nPos = 0xFFFFFFFF ∨ s.fRequestShutdown 0 = true) := by
    rw [hquiet]
    simpa using hne
  rw [loadStep, hout, Bool.not_false, if_pos rfl, if_neg hno, hquiet.looked]

/-- **Every record is processed, in the order of the file.** -/
theorem ends_of_records {records : List (BlockRecord fTestNet)} {tail front : Bytes}
    (hsizes : ∀ record ∈ records, (putCBlock record.block).length ≤ MAX_BLOCK_SIZE)
    (htail : ¬(pchMessageStart fTestNet).toList <:+: tail) (hreturns : ∀ node block,
    (processBlock node block).isSome) (hroom : file.length + 65525 ≤ 2 ^ 32)
    (hfile : file = front ++ (records.flatMap putRecord ++ tail))
    (hout : s.fScanning = false) (hquiet : Undisturbed s) (hpos : s.nPos.toNat = front.length) :
    ∃ r, Ends (loadStep sizes fTestNet file processBlock) s r ∧
      r.processed = s.processed ++ records.map BlockRecord.block := by
  induction records generalizing front s with
  | nil =>
    have hdrop : file.drop s.nPos.toNat = tail := by
      rw [hfile, hpos, drop_left]
      rfl
    have hstep : loadStep sizes fTestNet file processBlock s = .inl { s with fScanning := true } :=
      loadStep_check hout hquiet (by
        rw [hpos]
        have := congrArg List.length hfile
        rw [length_append] at this
        omega)
    obtain ⟨r, hends, hsame⟩ := ends_of_none (s := { s with fScanning := true }) hroom rfl hquiet
      (noneBefore_of_not_isInfix (by
        show ¬_ <:+: file.drop s.nPos.toNat
        rwa [hdrop]))
    refine ⟨r, (ends_iff_of_inl hstep).mpr hends, ?_⟩
    rw [hsame, map_nil, append_nil]
  | cons record records ih =>
    obtain ⟨others, hlist, hfirst⟩ := pchMessageStart_toList fTestNet
    -- What is left of the file: the gap, the marker, the size, the block and what is behind.
    set size := putUInt32 (UInt32.ofNat (putCBlock record.block).length) with hsizeBytes
    set behind := records.flatMap putRecord ++ tail with hbehind
    have hdrop : file.drop s.nPos.toNat = record.gap ++ ((pchMessageStart fTestNet).toList ++
        (size ++ (putCBlock record.block ++ behind))) := by
      rw [hfile, hpos, drop_left, flatMap_cons, putRecord]
      simp only [append_assoc, hbehind, hsizeBytes]
    have hfour : (pchMessageStart fTestNet).toList.length = 4 := Vector.length_toList
    have hsize4 : size.length = 4 := length_putLE 4 _
    have hheader : 80 ≤ (putCBlock record.block).length := by
      simp only [putCBlock, length_append, length_putCBlockHeader]
      have hheader : HEADER_SIZE = 80 := rfl
      omega
    have hleft := congrArg List.length hdrop
    simp only [length_drop, length_append, hfour, hsize4] at hleft
    have hstep : loadStep sizes fTestNet file processBlock s = .inl { s with fScanning := true } :=
      loadStep_check hout hquiet (by omega)
    have hnone : NoneBefore (pchMessageStart fTestNet).toList record.gap.length
        (file.drop s.nPos.toNat) := by
      have hgap := record.gap_plain
      rw [hlist] at hgap
      rw [hdrop, hlist]
      exact noneBefore_append hfirst hgap
    have hmarker : (pchMessageStart fTestNet).toList <+:
        (file.drop s.nPos.toNat).drop record.gap.length := by
      rw [hdrop, drop_left]
      exact prefix_append _ _
    obtain ⟨nPos, hfound, hends⟩ := ends_of_marker (s := { s with fScanning := true }) hroom rfl
      hquiet hnone hmarker (by
        show record.gap.length + 8 < (file.drop s.nPos.toNat).length
        rw [length_drop]
        omega)
    have hbytes : file.drop nPos.toNat = size ++ (putCBlock record.block ++ behind) := by
      have hsame : nPos.toNat = s.nPos.toNat + (record.gap.length + 4) := hfound
      rw [hsame, ← drop_drop, hdrop, ← append_assoc]
      exact drop_left' (by rw [length_append, hfour])
    obtain ⟨s', hread, hout', hpos', hprocessed, hflag⟩ :=
      readRecord_block (s := { s with fScanning := true, nPos := nPos }) sizes record.encodable
        (hsizes record mem_cons_self) hreturns hroom hbytes
    have hfile' : file = (front ++ putRecord record) ++ behind := by
      rw [hfile, flatMap_cons, append_assoc, append_assoc]
    obtain ⟨r, hrest, hsame⟩ := ih (s := s')
      (fun other hother => hsizes other (mem_cons_of_mem _ hother)) hfile'
      hout' (hflag.trans hquiet) (by
        rw [hpos']
        show nPos.toNat + _ = _
        have hsame : nPos.toNat = s.nPos.toNat + (record.gap.length + 4) := hfound
        simp only [putRecord, length_append, hfour, ← hsizeBytes, hsize4]
        omega)
    refine ⟨r, (ends_iff_of_inl hstep).mpr ((hends r).mpr ?_), ?_⟩
    · rw [hread]
      exact hrest
    · rw [hsame, hprocessed, map_cons, append_assoc]
      rfl

/-- **The import of a bootstrap file** ends, and processes the blocks of a file of records once
each and in their order, if the file leaves the position room in an `unsigned int`. -/
theorem loadExternalBlockFile_exact (sizes : BlockSizes) (fTestNet : Bool)
    (processBlock : σ → CBlock uint256 → Option (Bool × σ)) (node : σ)
    (fRequestShutdown : Nat → Bool) : (∀ file : Bytes, file.length + MAX_BLOCK_SIZE < 2 ^ 32 →
      ∃ r, Ends (loadStep sizes fTestNet file processBlock) (loadStart node fRequestShutdown) r) ∧
    ((∀ look, fRequestShutdown look = false) → (∀ node block, (processBlock node block).isSome) →
      ∀ (records : List (BlockRecord fTestNet)) (tail : Bytes),
        (∀ record ∈ records, (putCBlock record.block).length ≤ MAX_BLOCK_SIZE) →
        ¬(pchMessageStart fTestNet).toList <:+: tail →
        (records.flatMap putRecord ++ tail).length + 65525 ≤ 2 ^ 32 →
        ∃ r, Ends (loadStep sizes fTestNet (records.flatMap putRecord ++ tail) processBlock)
            (loadStart node fRequestShutdown) r ∧ r.processed = records.map BlockRecord.block) := by
  refine ⟨fun file hroom => load_ends hroom _, ?_⟩
  intro hquiet hreturns records tail hsizes htail hroom
  have hstart : Undisturbed (loadStart node fRequestShutdown) := funext hquiet
  obtain ⟨r, hends, hprocessed⟩ := ends_of_records (s := loadStart node fRequestShutdown) hsizes
    htail hreturns hroom (nil_append _).symm rfl hstart rfl
  exact ⟨r, hends, hprocessed.trans (nil_append _)⟩

/-- The `sizeof` of the elements on a 64-bit platform. -/
def sampleBlockSizes : BlockSizes := ⟨sampleSizes, 200, by decide⟩

/-- A node that counts the blocks. -/
def countBlock (nBlocks : Nat) (_block : CBlock uint256) : Option (Bool × Nat) :=
  some (true, nBlocks + 1)

/-- Two records, the second behind a part of a marker. -/
def sampleRecords : List (BlockRecord false) :=
  have hencodable : null.Encodable :=
    ⟨⟨Nat.zero_le _, fun _ hmem => absurd hmem List.not_mem_nil⟩, Nat.zero_le _, rfl⟩
  [⟨[], null, by decide, hencodable⟩, ⟨[0x44, 0x45], null, by decide, hencodable⟩]

theorem loadExternalBlockFile_exact_sample :
    ∃ r, Ends (loadStep sampleBlockSizes false (sampleRecords.flatMap putRecord ++ [0x44]) countBlock)
        (loadStart 0 fun _ => false) r ∧ r.processed = [null, null] := by
  have hlength : (putCBlock null).length = 82 := by decide
  have hsizes : ∀ record ∈ sampleRecords, (putCBlock record.block).length ≤ MAX_BLOCK_SIZE := by
    intro record hrecord
    have hblock : record.block = null := by
      rcases List.mem_cons.mp hrecord with rfl | hrecord
      · rfl
      · rw [mem_singleton.mp hrecord]
    rw [hblock, hlength]
    decide
  exact (loadExternalBlockFile_exact sampleBlockSizes false countBlock 0 fun _ => false).2
    (fun _ => rfl) (fun _ _ => rfl) sampleRecords [0x44] hsizes (by decide) (by decide +kernel)

/-- A block whose signature fills a megabyte. -/
def longBlock : CBlock uint256 := { null with vchBlockSig := List.replicate MAX_BLOCK_SIZE 0 }

/-- What stands before the signature. -/
def longHead : Bytes :=
  putCBlockHeader null.toCBlockHeader ++ putVec putCTransaction [] ++ putCompactSize MAX_BLOCK_SIZE

theorem putCBlock_longBlock : putCBlock longBlock = longHead ++ List.replicate MAX_BLOCK_SIZE 0 := by
  have hbytes : (List.replicate MAX_BLOCK_SIZE (0 : UInt8)).flatMap putByte =
      List.replicate MAX_BLOCK_SIZE 0 := flatMap_singleton' _
  have hsig : longBlock.vchBlockSig = List.replicate MAX_BLOCK_SIZE 0 := rfl
  have hplain : longBlock.hasMWEBVersion = false := rfl
  have hvec : putVec putByte (List.replicate MAX_BLOCK_SIZE (0 : UInt8)) =
      putCompactSize MAX_BLOCK_SIZE ++ List.replicate MAX_BLOCK_SIZE 0 := by
    rw [putVec, hbytes, length_replicate]
  have hheader : longBlock.toCBlockHeader = null.toCBlockHeader := rfl
  have hvtx : longBlock.vtx = [] := rfl
  rw [putCBlock, hplain, if_neg Bool.false_ne_true, append_nil, hsig, hvec, hheader, hvtx,
    longHead, append_assoc, append_assoc, append_assoc]

theorem length_longBlock : (putCBlock longBlock).length = 1000086 := by
  have hhead : longHead.length = 86 := by decide
  rw [putCBlock_longBlock, length_append, length_replicate, hhead]
  rfl

def longRecord : BlockRecord false where
  gap := []
  block := longBlock
  gap_plain := by decide
  encodable := by
    refine ⟨⟨Nat.zero_le _, fun _ hmem => absurd hmem List.not_mem_nil⟩, ?_, rfl⟩
    show (List.replicate MAX_BLOCK_SIZE (0 : UInt8)).length ≤ MAX_SIZE
    rw [List.length_replicate]
    decide

theorem putRecord_longRecord : putRecord longRecord = (pchMessageStart false).toList ++
    ([0x96, 0x42, 0x0f, 0] ++ (longHead ++ List.replicate MAX_BLOCK_SIZE 0)) := by
  have hgap : longRecord.gap = [] := rfl
  have hblock : longRecord.block = longBlock := rfl
  have hsize : putUInt32 (UInt32.ofNat 1000086) = [0x96, 0x42, 0x0f, 0] := by decide
  rw [putRecord, hgap, hblock, length_longBlock, hsize, putCBlock_longBlock, nil_append]

/-- **A block that is too long is passed over**, though its record is like any other. -/
theorem long_record_skipped : ¬∀ (records : List (BlockRecord false))
    (tail : Bytes), ¬(pchMessageStart false).toList <:+: tail →
      ∃ r, Ends (loadStep sampleBlockSizes false (records.flatMap putRecord ++ tail) countBlock)
          (loadStart 0 fun _ => false) r ∧ r.processed = records.map BlockRecord.block := by
  intro h
  obtain ⟨r, hends, hprocessed⟩ := h [longRecord] [] (by decide)
  obtain ⟨behind, hbehind⟩ : ∃ behind, longHead ++ List.replicate MAX_BLOCK_SIZE 0 = behind := ⟨_, rfl⟩
  have hplain : (0x44 : UInt8) ∉ [0x96, 0x42, 0x0f, 0] ++ behind := by
    rw [← hbehind]
    intro hmem
    rcases mem_append.mp hmem with hsize | hmem
    · exact absurd hsize (by decide)
    · rcases mem_append.mp hmem with hhead | hsig
      · exact absurd hhead (by decide)
      · exact absurd (eq_of_mem_replicate hsig) (by decide)
  have hlength : behind.length = 1000086 := by
    rw [← hbehind, ← putCBlock_longBlock, length_longBlock]
  rw [flatMap_singleton, append_nil, putRecord_longRecord, hbehind] at hends
  obtain ⟨file, hfile⟩ : ∃ file : Bytes,
      (pchMessageStart false).toList ++ ([0x96, 0x42, 0x0f, 0] ++ behind) = file := ⟨_, rfl⟩
  rw [hfile] at hends
  have hfour : file.length = 1000094 := by
    rw [← hfile, length_append, length_append, hlength]
    rfl
  have hroom : file.length + 65525 ≤ 2 ^ 32 := by omega
  have hbehind4 : file.drop 4 = [0x96, 0x42, 0x0f, 0] ++ behind := by
    rw [← hfile]
    exact drop_left' rfl
  -- The marker is found, the size is too great, and the search goes on behind the marker.
  let start : LoadState Nat := loadStart 0 fun _ => false
  have hstart : loadStep sampleBlockSizes false file countBlock start =
      .inl { start with fScanning := true } := loadStep_check rfl rfl (by decide)
  rw [ends_iff_of_inl hstart] at hends
  obtain ⟨nPos, hpos, hfound⟩ := ends_of_marker (k := 0) (s := { start with fScanning := true })
    hroom rfl rfl
    (fun i hi => absurd hi (Nat.not_lt_zero i)) (by
      show (pchMessageStart false).toList <+: file
      rw [← hfile]
      exact prefix_append _ _) (by
      show 0 + 8 < file.length
      omega)
  have hat : nPos.toNat = 4 := hpos
  let behindMarker : LoadState Nat := { start with nPos := nPos }
  have hskip : readRecord sampleBlockSizes file countBlock { behindMarker with fScanning := true } =
      .inl behindMarker := by
    have hne : nPos ≠ 0xFFFFFFFF := by
      intro heq
      rw [heq] at hat
      exact absurd hat (by decide)
    have hget : getUInt32 (file.drop nPos.toNat) = some (1000086, behind) := by
      rw [hat, hbehind4]
      exact (exact_uint32 _ _ _).mpr ⟨trivial, rfl⟩
    rw [readRecord, if_neg hne, hget]
    rfl
  have hends' := (hfound r).mp hends
  rw [hskip] at hends'
  have hagain : loadStep sampleBlockSizes false file countBlock behindMarker =
      .inl { behindMarker with fScanning := true } := loadStep_check rfl rfl (by
    show nPos.toNat < 2 ^ 32 - 1
    omega)
  obtain ⟨r', hends'', hnothing⟩ := ends_of_none (s := { behindMarker with fScanning := true }) hroom
    rfl rfl (by
      show NoneBefore (pchMessageStart false).toList (file.drop nPos.toNat).length
        (file.drop nPos.toNat)
      rw [hat, hbehind4]
      exact noneBefore_of_not_isInfix fun hin => hplain (hin.subset (by decide)))
  have hsame := Ends.unique ((ends_iff_of_inl hagain).mpr hends'') hends'
  rw [hsame, hprocessed] at hnothing
  cases hnothing

theorem pchMessageStart_ne_zero : ∀ fTestNet, (pchMessageStart fTestNet)[0] ≠ 0 := by decide

/-- **A file of zeros that is long enough is looked through for ever.** -/
theorem load_zeros_forever {node : σ} {r : LoadState σ} {n : Nat} (hn : 2 ^ 32 + 8 ≤ n) :
    ¬Ends (loadStep sizes fTestNet (List.replicate n 0) processBlock) (loadStart node fun _ => false) r := by
  rw [ends_iff_of_inl (loadStep_check (s := loadStart node fun _ => false) rfl rfl (by
    show (0 : UInt32).toNat < 2 ^ 32 - 1
    decide))]
  refine not_ends (fun s => s.fScanning = true ∧ Undisturbed s) ?_ ⟨rfl, rfl⟩
  intro s ⟨hin, hquiet⟩
  have hlast := s.nPos.toNat_lt
  have hfirst : ∀ place : Nat, ((List.replicate n (0 : UInt8)).drop s.nPos.toNat)[place]? ≠
      some (pchMessageStart fTestNet)[0] := by
    intro place heq
    exact pchMessageStart_ne_zero fTestNet
      (eq_of_mem_replicate (mem_of_mem_drop (mem_of_getElem? heq)))
  have hbytes : (List.replicate n (0 : UInt8)).drop s.nPos.toNat =
      (List.replicate n (0 : UInt8)).drop s.nPos.toNat := rfl
  rcases scan_cases fTestNet hbytes with ⟨hfew, -⟩ | ⟨-, nFind, -, -, hat, -⟩ | ⟨-, hnext, -⟩
  · rw [length_drop, length_replicate] at hfew
    omega
  · exact absurd hat (hfirst nFind)
  · obtain ⟨nPos, hnext⟩ : ∃ nPos, scan fTestNet (List.replicate n 0) s.nPos = .next nPos := ⟨_, hnext⟩
    exact ⟨{ s with nPos := nPos }, loadStep_next hin hquiet hnext, hin, hquiet⟩

theorem load_zeros_forever_count :
    ¬∃ r, Ends (loadStep sampleBlockSizes false (List.replicate (2 ^ 32 + 8) 0) countBlock)
      (loadStart 0 fun _ => false) r :=
  fun ⟨_, hends⟩ => load_zeros_forever le_rfl hends

end Bootstrap

end MaryJaneCoin
