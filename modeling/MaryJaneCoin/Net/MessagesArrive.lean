import MaryJaneCoin.Chain.Bootstrap
import MaryJaneCoin.Net.FramesReceived

/-!
# Messages arrive

The bytes that one node writes reach another in chunks.  However they are cut, what
`ProcessMessages` has passed on at the end is what was sent.
-/

namespace MaryJaneCoin

open List hiding Vector
open Codec FirstMatch CDataStream SendSide Option

/-- The bytes that a step of the receiving side brings. -/
def ReceiveOp.bytes : ReceiveOp → Bytes
  | .recv chunk => chunk
  | .processMessages _ => []

/-- The bytes of a stream, as it arrives. -/
def arriving (ops : List ReceiveOp) : Bytes := ops.flatMap ReceiveOp.bytes

/-- The node does not shut down in the meantime. -/
def Running (ops : List ReceiveOp) : Prop :=
  ∀ env, .processMessages env ∈ ops → ∀ i, env.fShutdown i = false

/-- `vRecv` stays within its limit while the steps are taken. -/
def ReceiveSide.Below (wire : Wire) (limits : BufferLimits) (ops : List ReceiveOp)
    (side : ReceiveSide) : Prop :=
  ∀ done, done <+: ops → ∀ mid, side.run wire limits done = some mid →
    mid.vRecv.size ≤ limits.nReceiveBufferSize.toNat

namespace ReceiveSide

variable {wire : Wire} {limits : BufferLimits} {nGarbage : Nat}
    {side : ReceiveSide} {todo : List (Bytes × Bytes)}

/-- What arrives stands behind what waits. -/
theorem recv_eq (chunk : Bytes) (hsize : side.vRecv.size ≤ limits.nReceiveBufferSize.toNat) :
    ∃ after, side.recv limits chunk = some after ∧ after.vRecv.unread = side.vRecv.unread ++ chunk ∧
      after.vRecv.nReadPos = side.vRecv.nReadPos ∧ after.passed = side.passed := by
  have hlt : side.vRecv.size < UInt32.size := Nat.lt_of_le_of_lt hsize limits.nReceiveBufferSize.toNat_lt
  have hpos : (UInt32.ofNat side.vRecv.size).toNat = side.vRecv.size := UInt32.toNat_ofNat_of_lt' hlt
  have hflood : ¬UInt32.ofNat side.vRecv.size > limits.nReceiveBufferSize := by
    rw [gt_iff_lt, UInt32.lt_iff_toNat_lt, hpos]
    exact Nat.not_lt.mpr hsize
  simp only [recv, if_neg hflood, hpos]
  refine ⟨_, rfl, ?_, rfl, rfl⟩
  have hresized := unread_resize_add (s := side.vRecv) chunk.length
  rw [← append_nil (side.vRecv.unread ++ _)] at hresized
  have hwritten := unread_overwrite_eq (b := chunk) hresized length_replicate.symm
  rwa [length_unread, append_nil] at hwritten

/-- A stream that has been compacted is as long as what is left of it. -/
theorem length_vch_eq (hcompact : side.vRecv.nReadPos = 0) : side.vRecv.vch.length = side.vRecv.size := by
  rw [size, hcompact]
  rfl

theorem unread_eq_nil (hempty : side.vRecv.size = 0) : side.vRecv.unread = [] := by
  rw [← length_unread] at hempty
  exact eq_nil_of_length_eq_zero hempty

/-- **`ProcessMessages`** on a stream of frames. -/
theorem processMessages_eq {future : Bytes} {env : LoopEnv} (hshutdown : ∀ i,
    env.fShutdown i = false) (hcompact : side.vRecv.nReadPos = 0) (hsize : side.vRecv.size ≤
    limits.nReceiveBufferSize.toNat) (hvalid : ∀ message ∈ todo, ValidMessage message)
    (hawaits : Awaits wire nGarbage todo (side.vRecv.unread ++ future)) :
    ∃ messages after, side.step wire limits (.processMessages env) = some ⟨after, side.passed ++ messages⟩ ∧
      Processed wire nGarbage limits.nSendBufferSize env todo future messages after := by
  have hlt : side.vRecv.vch.length < 2 ^ 32 := by
    rw [length_vch_eq hcompact]
    exact Nat.lt_of_le_of_lt hsize limits.nReceiveBufferSize.toNat_lt
  simp only [step, processMessages]
  split
  · rename_i hempty
    refine ⟨[], side.vRecv, ?_, ⟨todo, rfl, hawaits, fun _ hend => ?_⟩, hcompact⟩
    · simp only [map_some, append_nil]
    · -- nothing is left of the stream
      obtain ⟨garbage, -, hstream, -⟩ := hawaits
      rw [unread_eq_nil hempty, hend] at hstream
      cases todo with
      | nil => rfl
      | cons message todo =>
        have hlength := congrArg List.length hstream
        have hheader := length_frames_cons wire message todo
        simp only [append_nil, length_append, length_nil, nHeaderSize] at hlength hheader
        omega
  · obtain ⟨messages, after, hloop, hprocessed⟩ :=
      messageLoop_eq limits.nSendBufferSize hshutdown 0
        (by rw [length_unread]; exact Nat.lt_succ_self _) hlt hvalid hawaits
    exact ⟨messages, after, by rw [hloop]; rfl, hprocessed⟩

/-- **A run of the receiving side** on a stream of frames. -/
theorem receive_run {ops : List ReceiveOp} (hcompact : side.vRecv.nReadPos = 0)
    (hvalid : ∀ message ∈ todo, ValidMessage message) (hrunning : Running ops)
    (hbelow : Below wire limits ops side)
    (hawaits : Awaits wire nGarbage todo (side.vRecv.unread ++ arriving ops)) :
    ∃ after messages left, side.run wire limits ops = some after ∧ after.passed = side.passed ++ messages ∧
      todo = messages ++ left ∧ after.vRecv.nReadPos = 0 ∧ Awaits wire nGarbage left after.vRecv.unread := by
  induction ops generalizing side todo with
  | nil =>
    rw [arriving, flatMap_nil, append_nil] at hawaits
    exact ⟨side, [], todo, rfl, (append_nil _).symm, rfl, hcompact, hawaits⟩
  | cons op ops ih =>
    have hsize := hbelow [] nil_prefix side rfl
    have hrest : Running ops := fun env hmem => hrunning env (mem_cons_of_mem _ hmem)
    have hnext : ∀ mid, side.step wire limits op = some mid → (∀ done, side.run wire limits
        (op :: done) = mid.run wire limits done) ∧ Below wire limits ops mid := by
      intro mid hmid
      have hrun : ∀ done, side.run wire limits (op :: done) = mid.run wire limits done := by
        intro done
        rw [run, List.foldlM_cons, hmid]
        rfl
      refine ⟨hrun, fun done hdone last hlast => ?_⟩
      exact hbelow (op :: done) (cons_prefix_cons.mpr ⟨rfl, hdone⟩) last (by rw [hrun]; exact hlast)
    cases op with
    | recv chunk =>
      obtain ⟨mid, hmid, hunread, hread, hpassed⟩ := recv_eq chunk hsize
      obtain ⟨hrun, hmidBelow⟩ := hnext mid hmid
      have hmidAwaits : Awaits wire nGarbage todo (mid.vRecv.unread ++ arriving ops) := by
        rw [hunread, append_assoc]
        exact hawaits
      obtain ⟨after, messages, left, hafter, hafterPassed, hleft, hlast⟩ :=
        ih (hread.trans hcompact) hvalid hrest hmidBelow hmidAwaits
      exact ⟨after, messages, left, (hrun ops).trans hafter, hpassed ▸ hafterPassed, hleft, hlast⟩
    | processMessages env =>
      obtain ⟨first, stream, hmid, ⟨left, htodo, hleftAwaits, -⟩, hstream⟩ :=
        processMessages_eq (hrunning env mem_cons_self) hcompact hsize hvalid hawaits
      obtain ⟨hrun, hmidBelow⟩ := hnext _ hmid
      have hleftValid : ∀ message ∈ left, ValidMessage message := by
        intro message hmem
        exact hvalid message (htodo ▸ mem_append_right first hmem)
      obtain ⟨after, messages, last, hafter, hpassed, hlast, hend⟩ :=
        ih hstream hleftValid hrest hmidBelow hleftAwaits
      refine ⟨after, first ++ messages, last, (hrun ops).trans hafter, ?_, ?_, hend⟩
      · rw [hpassed, append_assoc]
      · rw [htodo, hlast, append_assoc]

theorem run_append (ops : List ReceiveOp) (op : ReceiveOp) : side.run wire limits (ops ++ [op]) =
    (side.run wire limits ops).bind fun mid => mid.step wire limits op := by
  rw [run, List.foldlM_append]
  cases hmid : List.foldlM (step wire limits) side ops with
  | none =>
    rw [run, hmid]
    rfl
  | some mid =>
    rw [run, hmid]
    show List.foldlM _ _ _ = step wire limits mid op
    rw [List.foldlM_cons]
    cases step wire limits mid op with
    | none => rfl
    | some _ => rfl

end ReceiveSide

/-- **Message framing.**  What `ProcessMessages` has passed on after a stream of messages has
arrived is what was sent: whatever was begun, dropped and aborted on the way, however the bytes are
cut, and behind garbage in which no header starts. -/
theorem messages_arrive (wire : Wire) (limits : BufferLimits) {nSendBufferSize : UInt32} {ops : List SendOp}
    {box : Outbox} (hbox : Outbox.empty.run ops = some box) (hended : box.current = none)
    (hvalid : ∀ message ∈ box.sent, ValidMessage message) (hlimit : nSendBufferSize.toNat ≤ 2 ^ 31)
    (hsend : SendSide.Below wire nSendBufferSize.toNat ops fresh) :
    ∃ sender, fresh.run wire ops = some sender ∧
      ∀ (garbage : Bytes) (receiveOps : List ReceiveOp) (env : LoopEnv),
        arriving receiveOps = garbage ++ (sender.taken ++ sender.vSend.unread) →
        NoneBefore wire.pchMessageStart.toList garbage.length (arriving receiveOps) →
        Running (receiveOps ++ [.processMessages env]) →
        (∀ i, env.vSendSize i < limits.nSendBufferSize.toNat) →
        ReceiveSide.Below wire limits receiveOps ReceiveSide.fresh →
          ∃ receiver, ReceiveSide.fresh.run wire limits (receiveOps ++ [.processMessages env]) =
            some receiver ∧ receiver.passed = box.sent := by
  have hbelow : SendSide.Below wire (2 ^ 31) ops fresh := by
    intro done hdone mid hmid
    exact Nat.lt_of_lt_of_le (hsend done hdone mid hmid) hlimit
  obtain ⟨sender, hsender, hagrees⟩ := agrees_run (agrees_fresh wire) hbelow hbox
  have hstream : sender.taken ++ sender.vSend.unread = wire.frames box.sent := by
    obtain ⟨current, sent⟩ := box
    simp only at hended
    subst hended
    exact hagrees.2.2
  refine ⟨sender, hsender, ?_⟩
  intro garbage receiveOps env harriving hnone hrunning hopen hreceive
  have hawaits : Awaits wire garbage.length box.sent
      (ReceiveSide.fresh.vRecv.unread ++ arriving receiveOps) := by
    refine ⟨garbage, le_rfl, ?_, hnone⟩
    rw [← hstream]
    exact harriving
  have hbefore : Running receiveOps := fun env hmem => hrunning env (mem_append_left _ hmem)
  obtain ⟨mid, messages, left, hmid, hpassed, hleft, hcompact, hmidAwaits⟩ :=
    ReceiveSide.receive_run rfl hvalid hbefore hreceive hawaits
  have hmidSize := hreceive receiveOps (prefix_refl _) mid hmid
  have hleftValid : ∀ message ∈ left, ValidMessage message := by
    intro message hmem
    exact hvalid message (hleft ▸ mem_append_right messages hmem)
  rw [← append_nil mid.vRecv.unread] at hmidAwaits
  obtain ⟨last, stream, hlast, ⟨rest, hrest, -, hdrained⟩, -⟩ := ReceiveSide.processMessages_eq
    (hrunning env (mem_append_right _ mem_cons_self)) hcompact hmidSize hleftValid hmidAwaits
  refine ⟨⟨stream, mid.passed ++ last⟩, ?_, ?_⟩
  · rw [ReceiveSide.run_append, hmid]
    exact hlast
  · rw [hpassed, hleft, hrest, hdrained hopen rfl, append_nil]
    rfl

/-- The main network, with a hash that is always the same. -/
def mainWire : Wire where
  pchMessageStart := pchMessageStart false
  hash _ := Vector.replicate 32 1

/-- `ProcessMessages` with nothing to send. -/
def openEnv : LoopEnv := ⟨fun _ => 0, fun _ => false⟩

/-- The limits that are set when no option is given. -/
def defaultLimits : BufferLimits := ⟨1000 * 1000, 1000 * (5 * 1000)⟩

theorem SendSide.below_of_all {wire : Wire} {limit : Nat} {ops : List SendOp} {side : SendSide}
    (h : (ops.inits.all fun done => (side.run wire done).all fun mid => mid.vSend.size < limit) = true) :
    Below wire limit ops side := by
  intro done hdone mid hmid
  have hall := all_eq_true.mp h done ((mem_inits _ _).mpr hdone)
  rw [hmid] at hall
  exact of_decide_eq_true hall

theorem ReceiveSide.below_of_all {wire : Wire} {limits : BufferLimits} {ops : List ReceiveOp}
    {side : ReceiveSide} (h : (ops.inits.all fun done => (side.run wire limits done).all fun mid =>
      mid.vRecv.size ≤ limits.nReceiveBufferSize.toNat) = true) : Below wire limits ops side := by
  intro done hdone mid hmid
  have hall := all_eq_true.mp h done ((mem_inits _ _).mpr hdone)
  rw [hmid] at hall
  exact of_decide_eq_true hall

/-- A message that is aborted, one without a payload, and one that carries the start of a header. -/
def sampleOps : List SendOp :=
  [.beginMessage [0x61], .append [7], .pushMessage [0x70, 0x69, 0x6e, 0x67] [] false,
    .socketSend 10, .pushMessage [0x74, 0x78] [0x44, 0x45, 0x52, 0x50, 9] false]

/-- What `sampleOps` writes, behind two bytes of garbage. -/
def sampleStream : Bytes :=
  [0x44, 0x45] ++ mainWire.frames [([0x70, 0x69, 0x6e, 0x67], []),
    ([0x74, 0x78], [0x44, 0x45, 0x52, 0x50, 9])]

/-- A chunk ends inside of the first header, and another inside of the last payload. -/
def sampleArrival : List ReceiveOp :=
  [.recv (sampleStream.take 20), .processMessages openEnv, .recv ((sampleStream.drop 20).take 33),
    .processMessages openEnv, .recv (sampleStream.drop 53)]

theorem messages_arrive_sample :
    ∃ receiver, ReceiveSide.fresh.run mainWire defaultLimits (sampleArrival ++ [.processMessages openEnv]) =
        some receiver ∧ receiver.passed =
      [([0x70, 0x69, 0x6e, 0x67], []), ([0x74, 0x78], [0x44, 0x45, 0x52, 0x50, 9])] := by
  have hvalid : ∀ message ∈ [(([0x70, 0x69, 0x6e, 0x67] : Bytes), ([] : Bytes)),
      ([0x74, 0x78], [0x44, 0x45, 0x52, 0x50, 9])], ValidMessage message := by
    intro message hmem
    rcases List.mem_cons.mp hmem with rfl | hmem
    · exact ⟨by simp, by decide, by decide⟩
    · rw [mem_singleton.mp hmem]
      exact ⟨by simp, by decide, by decide⟩
  have hbox : Outbox.empty.run sampleOps =
      some ⟨none, [([0x70, 0x69, 0x6e, 0x67], []), ([0x74, 0x78], [0x44, 0x45, 0x52, 0x50, 9])]⟩ := rfl
  have hlimit : defaultLimits.nSendBufferSize.toNat ≤ 2 ^ 31 := by decide
  obtain ⟨sender, hsender, harrive⟩ := messages_arrive mainWire defaultLimits hbox rfl hvalid hlimit
    (below_of_all (by decide +kernel))
  have hwritten : (fresh.run mainWire sampleOps).map (fun side => side.taken ++ side.vSend.unread) =
      some (sampleStream.drop 2) := by decide +kernel
  rw [hsender, map_some, Option.some.injEq] at hwritten
  apply harrive [0x44, 0x45] sampleArrival openEnv
  · rw [hwritten]
    decide +kernel
  · decide +kernel
  · intro env hmem i
    have henv : env = openEnv := by simpa [sampleArrival] using hmem
    rw [henv]
    rfl
  · intro i
    show 0 < defaultLimits.nSendBufferSize.toNat
    decide
  · exact ReceiveSide.below_of_all (by decide +kernel)

def pushes (n : Nat) (message : Bytes × Bytes) : List SendOp :=
  List.replicate n (.pushMessage message.1 message.2 false)

/-- Limits of four gigabytes. -/
def largeLimits : BufferLimits := ⟨4000000000, 4000000000⟩

section

variable {wire : Wire} {message : Bytes × Bytes}

theorem length_frames_replicate (wire : Wire) (n : Nat) (message : Bytes × Bytes) :
    (wire.frames (List.replicate n message)).length = n * (nHeaderSize + message.2.length) := by
  have hframe : (wire.frame message).length = nHeaderSize + message.2.length := by
    rw [Wire.frame, length_append, length_header]
  rw [Wire.frames, length_flatMap, map_replicate, hframe, sum_replicate_nat]

theorem SendSide.taken_pushMessage {side after : SendSide} {pszCommand data : Bytes}
    (hopen : side.nHeaderStart = -1)
    (h : side.pushMessage wire pszCommand data false = some after) : after.taken = side.taken := by
  have hbegin : (side.beginMessage wire pszCommand).taken = side.taken := by
    rw [beginMessage, hopen]
    rfl
  simp only [pushMessage, endMessage, Bool.false_eq_true, if_false] at h
  split at h
  · cases h
    exact hbegin
  · split at h
    · cases h
    · cases h
      exact hbegin

/-- **Messages of the largest size**, up to two gigabytes, wait as their frames. -/
theorem pushes_run (wire : Wire) (hmessage : message.2.length = 33554432) {n : Nat} (hn : n ≤ 64) :
    ∃ side, fresh.run wire (pushes n message) = some side ∧ side.nHeaderStart = -1 ∧
      side.taken = [] ∧ side.vSend.unread = wire.frames (List.replicate n message) := by
  have hrun : ∃ side, fresh.run wire (pushes n message) = some side ∧ side.taken = [] ∧
      side.Agrees wire ⟨none, List.replicate n message⟩ := by
    induction n with
    | zero => exact ⟨_, rfl, rfl, rfl, rfl, rfl⟩
    | succ n ih =>
      obtain ⟨side, hside, htaken, hagrees⟩ := ih (Nat.le_of_succ_le hn)
      have hsize : side.vSend.size = n * (nHeaderSize + message.2.length) := by
        have hunread := hagrees.2.2
        rw [htaken, nil_append] at hunread
        rw [← length_unread, hunread, length_frames_replicate]
      have hlt : side.vSend.size + nHeaderSize < 2 ^ 31 := by
        rw [hsize, nHeaderSize, hmessage]
        omega
      have hclosed : side.vSend.size < 2 ^ 31 := Nat.lt_of_le_of_lt (Nat.le_add_right _ _) hlt
      obtain ⟨after, hafter, hnext⟩ := agrees_pushMessage hagrees hclosed message.1 message.2 false
      have hwritten : ((side.beginMessage wire message.1).append message.2).vSend.size <
          2 ^ 31 + message.2.length := by
        obtain ⟨before, hle, -, hunread⟩ := exists_waiting hagrees hclosed message.1 message.2
        rw [← length_unread, hunread, length_append, length_append, length_ofCommand]
        omega
      have hfits : message.2.length < 2 ^ 32 := by
        rw [hmessage]
        decide
      refine ⟨after, ?_, ?_, ?_⟩
      · have hstep : SendSide.step wire side (.pushMessage message.1 message.2 false) = some after := hafter
        rw [pushes, replicate_succ', SendSide.run, List.foldlM_append]
        show (fresh.run wire (pushes n message)).bind _ = _
        rw [hside, bind_some, List.foldlM_cons]
        show (SendSide.step wire side (.pushMessage message.1 message.2 false)).bind _ = _
        rw [hstep]
        rfl
      · rw [taken_pushMessage hagrees.1 hafter, htaken]
      · rw [replicate_succ']
        exact hnext fun _ => ⟨hfits, hwritten⟩
  obtain ⟨side, hside, htaken, hstart, -, hsent⟩ := hrun
  rw [htaken, nil_append] at hsent
  exact ⟨side, hside, hstart, htaken, hsent⟩

/-- An empty message, whose header starts beyond two gigabytes. -/
def lastPush : SendOp := .pushMessage [0x78] [] false

/-- The header of it, which is never filled in. -/
def lastHeader : Bytes := (CMessageHeader.ofCommand mainWire [0x78] 0).serialize

/-- The large messages arrive at once, and then the last header. -/
def largeArrival (message : Bytes × Bytes) : List ReceiveOp :=
  [.recv (mainWire.frames (List.replicate 64 message)), .processMessages openEnv, .recv lastHeader,
    .processMessages openEnv]

/-- The end of a message gives up where the `int` of its start has become negative. -/
theorem lastPush_run (hmessage : message.2.length = 33554432) :
    ∃ sender, fresh.run mainWire (pushes 64 message ++ [lastPush]) = some sender ∧ sender.taken =
      [] ∧ sender.vSend.unread = mainWire.frames (List.replicate 64 message) ++ lastHeader := by
  obtain ⟨side, hside, hstart, htaken, hunread⟩ := pushes_run mainWire hmessage (Nat.le_refl 64)
  have hsize : side.vSend.size = 2147485184 := by
    rw [← length_unread, hunread, length_frames_replicate, hmessage, nHeaderSize]
  have hneg : Int32.ofNat 2147485184 < 0 := by decide
  have hbegin : side.beginMessage mainWire [0x78] =
      ⟨side.vSend.write lastHeader, Int32.ofNat 2147485184, Int32.ofNat
        (side.vSend.write lastHeader).size, side.taken⟩ := by
    have hopen : ¬side.nHeaderStart ≠ -1 := not_not.mpr hstart
    simp only [SendSide.beginMessage, if_neg hopen, hsize, lastHeader]
  have hstep : SendSide.step mainWire side lastPush =
      some ((side.beginMessage mainWire [0x78]).append []) := by
    show (((side.beginMessage mainWire [0x78]).append []).endMessage mainWire false) = _
    rw [hbegin, SendSide.endMessage, if_neg Bool.false_ne_true]
    exact if_pos hneg
  refine ⟨(side.beginMessage mainWire [0x78]).append [], ?_, ?_, ?_⟩
  · rw [SendSide.run, List.foldlM_append]
    show (fresh.run mainWire (pushes 64 message)).bind _ = _
    rw [hside, bind_some, List.foldlM_cons]
    show (SendSide.step mainWire side lastPush).bind _ = _
    rw [hstep]
    rfl
  · rw [hbegin]
    exact htaken
  · rw [hbegin]
    show ((side.vSend.write lastHeader).write []).unread = _
    rw [unread_write, unread_write, append_nil, hunread]

theorem lastPush_below (hmessage : message.2.length = 33554432) :
    SendSide.Below mainWire largeLimits.nSendBufferSize.toNat (pushes 64 message ++ [lastPush]) fresh := by
  have hlimit : largeLimits.nSendBufferSize.toNat = 4000000000 := rfl
  intro done hdone mid hmid
  rcases prefix_concat_iff.mp hdone with rfl | hdone
  · obtain ⟨sender, hsender, -, hunread⟩ := lastPush_run hmessage
    obtain rfl := Option.some.inj (hsender.symm.trans hmid)
    have hheader : lastHeader.length = 24 := length_ofCommand _ _ _
    rw [← length_unread, hunread, length_append, length_frames_replicate, hmessage, hheader,
      hlimit, nHeaderSize]
    decide
  · obtain ⟨hle, heq⟩ := prefix_replicate_iff.mp hdone
    have hn : done.length ≤ 64 := hle
    have hdone' : done = pushes done.length message := heq
    obtain ⟨side, hside, -, -, hunread⟩ := pushes_run mainWire hmessage hn
    rw [hdone', hside] at hmid
    cases hmid
    rw [← length_unread, hunread, length_frames_replicate, hmessage, hlimit, nHeaderSize]
    omega

theorem lastHeader_skipped :
    ∃ after, processMessages mainWire largeLimits.nSendBufferSize openEnv ⟨lastHeader, 0,
        Nat.zero_le _⟩ = some ([], after) ∧ after.size = 0 := by
  have hmap :
      (processMessages mainWire largeLimits.nSendBufferSize openEnv ⟨lastHeader,
        0, Nat.zero_le _⟩).map
      (fun result => (result.1, result.2.size)) = some ([], 0) := by decide +kernel
  obtain ⟨⟨messages, after⟩, hresult, heq⟩ := map_eq_some_iff.mp hmap
  obtain ⟨rfl, hsize⟩ := Prod.mk.inj heq
  exact ⟨after, hresult, hsize⟩

theorem largeArrival_run (hvalid : ValidMessage message) (hmessage : message.2.length = 33554432) :
    ReceiveSide.Below mainWire largeLimits (largeArrival message) ReceiveSide.fresh ∧
      ∃ receiver, ReceiveSide.fresh.run mainWire largeLimits (largeArrival message) =
        some receiver ∧ receiver.passed = List.replicate 64 message := by
  have hlimit : largeLimits.nReceiveBufferSize.toNat = 4000000000 := rfl
  have hclear : ReceiveSide.fresh.vRecv.size ≤ largeLimits.nReceiveBufferSize.toNat := Nat.zero_le _
  obtain ⟨s₁, h₁, hunread₁, hread₁, hpassed₁⟩ :=
    ReceiveSide.recv_eq (mainWire.frames (List.replicate 64 message)) hclear
  have hsize₁ : s₁.vRecv.size ≤ largeLimits.nReceiveBufferSize.toNat := by
    rw [← length_unread, hunread₁]
    show (mainWire.frames (List.replicate 64 message)).length ≤ _
    rw [length_frames_replicate, hmessage, hlimit, nHeaderSize]
    decide
  have hawaits : Awaits mainWire 0 (List.replicate 64 message) (s₁.vRecv.unread ++ []) := by
    rw [append_nil, hunread₁]
    exact Awaits.frames mainWire 0 _
  have hshutdown : ∀ i, openEnv.fShutdown i = false := fun _ => rfl
  obtain ⟨messages, v₂, h₂, ⟨left, hsplit, hleft, hdrained⟩, hread₂⟩ := ReceiveSide.processMessages_eq
    hshutdown hread₁ hsize₁ (fun other hmem => eq_of_mem_replicate hmem ▸ hvalid) hawaits
  obtain rfl := hdrained (fun _ => by show 0 < largeLimits.nSendBufferSize.toNat; decide) rfl
  have hunread₂ : v₂.unread = [] := by
    have hframes := hleft.eq_frames
    rwa [append_nil] at hframes
  have hsize₂ : (ReceiveSide.mk v₂ (s₁.passed ++ messages)).vRecv.size ≤
      largeLimits.nReceiveBufferSize.toNat := by
    rw [← length_unread, hunread₂]
    exact Nat.zero_le _
  obtain ⟨s₃, h₃, hunread₃, hread₃, hpassed₃⟩ := ReceiveSide.recv_eq lastHeader hsize₂
  have hsize₃ : s₃.vRecv.size ≤ largeLimits.nReceiveBufferSize.toNat := by
    have hheader : lastHeader.length = 24 := length_ofCommand _ _ _
    rw [← length_unread, hunread₃, length_append, hunread₂, hheader, hlimit]
    decide
  obtain ⟨s₄, h₄, hsize₄, hpassed₄⟩ : ∃ s₄, s₃.step mainWire largeLimits
      (.processMessages openEnv) = some s₄ ∧ s₄.vRecv.size = 0 ∧ s₄.passed = s₃.passed := by
    obtain ⟨⟨vch, nReadPos, hle⟩, passed⟩ := s₃
    have hzero : nReadPos = 0 := hread₃.trans hread₂
    subst hzero
    have hvch : vch = lastHeader := by
      have hunread : vch = v₂.unread ++ lastHeader := hunread₃
      rwa [hunread₂] at hunread
    subst hvch
    obtain ⟨after, hafter, hsize⟩ := lastHeader_skipped
    refine ⟨⟨after, passed ++ []⟩, ?_, hsize, append_nil _⟩
    simp only [ReceiveSide.step, hafter, map_some]
  have hone : ReceiveSide.fresh.step mainWire largeLimits
      (.recv (mainWire.frames (List.replicate 64 message))) = some s₁ := h₁
  have hthree : ReceiveSide.step mainWire largeLimits ⟨v₂,
    s₁.passed ++ messages⟩ (.recv lastHeader) = some s₃ := h₃
  have hrun : ReceiveSide.fresh.run mainWire largeLimits (largeArrival message) = some s₄ := by
    simp only [ReceiveSide.run, largeArrival, List.foldlM_cons, foldlM_nil, hone, h₂, hthree, h₄,
      bind, bind_some, pure]
  refine ⟨?_, s₄, hrun, ?_⟩
  · intro done hdone mid hmid
    have hinits := (mem_inits _ _).mpr hdone
    simp only [largeArrival, List.inits, map_cons, map_nil, List.mem_cons, not_mem_nil, or_false] at hinits
    rcases hinits with rfl | rfl | rfl | rfl | rfl
    · cases hmid
      exact hclear
    · simp only [ReceiveSide.run, List.foldlM_cons, foldlM_nil, hone, bind, bind_some, pure] at hmid
      cases hmid
      exact hsize₁
    · simp only [ReceiveSide.run, List.foldlM_cons, foldlM_nil, hone, h₂, bind, bind_some,
        pure] at hmid
      cases hmid
      exact hsize₂
    · simp only [ReceiveSide.run, List.foldlM_cons, foldlM_nil, hone, h₂, hthree, bind, bind_some,
        pure] at hmid
      cases hmid
      exact hsize₃
    · obtain rfl := Option.some.inj (hrun.symm.trans hmid)
      rw [hsize₄]
      exact Nat.zero_le _
  · rw [hpassed₄, hpassed₃, hsplit, append_nil]
    show s₁.passed ++ messages = messages
    rw [hpassed₁]
    rfl

end

/-- A node sends messages with a payload and then one without, within its limits and those of the
node that receives them, and the last one is not passed on. -/
def LosesLast (data : Bytes) : Prop :=
  ∃ sender receiver, fresh.run mainWire (pushes 64 ([0x78], data) ++ [lastPush]) = some sender ∧
    SendSide.Below mainWire largeLimits.nSendBufferSize.toNat
      (pushes 64 ([0x78], data) ++ [lastPush]) fresh ∧
    arriving (largeArrival ([0x78], data)) = sender.taken ++ sender.vSend.unread ∧
    ReceiveSide.Below mainWire largeLimits (largeArrival ([0x78], data)) ReceiveSide.fresh ∧
    ReceiveSide.fresh.run mainWire largeLimits (largeArrival ([0x78], data)) = some receiver ∧
    receiver.passed ≠ List.replicate 64 ([0x78], data) ++ [([0x78], [])]

theorem losesLast_of_length {data : Bytes} (hdata : data.length = 33554432) : LosesLast data := by
  have hmax : MAX_MESSAGE_SIZE.toNat = 33554432 := rfl
  have hvalid : ValidMessage ([0x78], data) := by
    refine ⟨?_, ?_, ?_⟩
    · show ∀ b ∈ ([0x78] : Bytes), 0x20 ≤ b ∧ b ≤ 0x7e
      simp
    · show ([0x78] : Bytes).length ≤ COMMAND_SIZE
      decide
    · show data.length ≤ MAX_MESSAGE_SIZE.toNat
      rw [hdata, hmax]
  have hmessage : (([0x78], data) : Bytes × Bytes).2.length = 33554432 := hdata
  obtain ⟨sender, hsender, htaken, hunread⟩ := lastPush_run hmessage
  obtain ⟨hbelow, receiver, hreceiver, hpassed⟩ := largeArrival_run hvalid hmessage
  refine ⟨sender, receiver, hsender, lastPush_below hmessage, ?_, hbelow, hreceiver, ?_⟩
  · rw [htaken, hunread]
    simp only [arriving, largeArrival, flatMap_cons, flatMap_nil, ReceiveOp.bytes, nil_append, append_nil]
  · rw [hpassed]
    intro heq
    have hlength := congrArg List.length heq
    rw [length_append, length_replicate, length_singleton] at hlength
    omega

/-- **A send buffer of more than two gigabytes** loses a message: the `int` that holds the start of
its header is negative, so that the header is never filled in. -/
theorem message_lost_large : LosesLast (List.replicate 33554432 0) := losesLast_of_length length_replicate

end MaryJaneCoin
