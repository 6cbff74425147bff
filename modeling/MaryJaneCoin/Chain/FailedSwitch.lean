import MaryJaneCoin.Chain.Identity
import MaryJaneCoin.Chain.SwitchFrame
import MaryJaneCoin.Mw.UndoRecords

/-!
# What a failed chain switch leaves behind

`TxnAbort` drops the batch and nothing else.  So after a failed `SetBestChain`
the database and the tip are as before, but the stakes and the Mimblewimble
state are only when none of the blocks that were processed before the failure
touched them.
-/

namespace MaryJaneCoin

open Std List Option EarlyExit Or

namespace Node

variable {H : Type} [Ord H] [TransOrd H] [DecidableEq H] {s t : Node H} {c : Consensus H}
  {env : Env H} {block : CBlock H} {pindex : CBlockIndex H} {pprev : PIndex H}
  {entry : CBlockIndex H × PIndex H}

theorem disconnectIndex_stakes (c : Consensus H) (env : Env H) (s : Node H)
    (entry : CBlockIndex H × PIndex H) : (disconnectIndex c env s entry).2.setStakeSeen =
      if (disconnectIndex c env s entry).1 && entry.1.fProofOfStake then
        s.setStakeSeen.erase (entry.1.prevoutStake, entry.1.nStakeTime)
      else s.setStakeSeen := by
  have hblock : ∀ block, (s.disconnectBlock c block entry.1 entry.2).2.setStakeSeen =
      s.setStakeSeen := by
    intro block
    unfold disconnectBlock
    grind
  unfold disconnectIndex
  cases s.readBlockFromDisk c env entry.1 with
  | none => rfl
  | some block => grind

omit [DecidableEq H] in
theorem setStakeSeen_connected (c : Consensus H) (s : Node H) (pindex : CBlockIndex H)
    (pprev : PIndex H) (acc : ConnectState H) (mwState : CMWState H) :
    (s.connected c pindex pprev acc mwState).setStakeSeen = s.setStakeSeen := by
  rw [connected_frame]

variable {entries : List (CBlockIndex H × PIndex H)}

variable [LawfulEqOrd H]

section

variable {rank : H → Nat}
  (hrank : ∀ (data : Preimage H) (h : H), .digest h ∈ data → rank h < rank (c.sha256 data))

include hrank

variable {vDisconnect vConnect : List (CBlockIndex H × PIndex H)}

end

end Node

end MaryJaneCoin
