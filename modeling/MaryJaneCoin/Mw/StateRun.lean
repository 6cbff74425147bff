import MaryJaneCoin.Mw.StateInvariant

/-!
# A Mimblewimble state in use

Blocks are applied and the latest one disconnected, the state is saved to and loaded
from databases, and cleared.  `run_represented` is about every such run: the
representation invariant holds in each state, loads that fail included, when every
step meets `Fits`.
-/

namespace MaryJaneCoin

open Std FinMap CMWState Function

/-- A block that is connected: what it was applied to, and what the commitments stood
for then. -/
structure MWLink where
  before : CMWState uint256
  names : Commitment → Option CMWOutput
  call : ApplyCall uint256

/-- A state with the outputs that its commitments stand for and the blocks that it
was built from, latest first. -/
structure MWSnapshot where
  state : CMWState uint256
  names : Commitment → Option CMWOutput
  chain : List MWLink

/-- A `CMWState` object, the databases by their path, and what was saved to each,
latest first. -/
structure MWSession where
  now : MWSnapshot
  disk : String → Option MWStateDB
  saved : String → List MWSnapshot

inductive MWSessionEvent where
  | applyBlock (call : ApplyCall uint256)
  | disconnectBlock (fNoMWChange : Bool)
  | saveToDB (strPath : String)
  | loadFromDB (strPath : String)
  | clear

variable (sha : Sha256 uint256)

/-- A cleared object. -/
def MWSnapshot.cleared : MWSnapshot where
  state := CMWState.empty sha
  names _ := none
  chain := []

namespace MWSession

/-- A new object, and no database yet. -/
def start : MWSession where
  now := MWSnapshot.cleared sha
  disk _ := none
  saved _ := []

/-- One operation.  `DisconnectBlock` is given the latest block, which stays the
latest one when there is no record of it.  A load that returns false leaves an object
that is built from no block. -/
def step (session : MWSession) : MWSessionEvent → MWSession
  | .applyBlock call =>
    match session.now.state.apply sha call with
    | none => session
    | some state =>
      { session with
        now :=
          { state
            names := session.now.state.namesAfter sha call.mwBlock.body session.now.names
            chain := ⟨session.now.state, session.now.names, call⟩ :: session.now.chain } }
  | .disconnectBlock fNoMWChange =>
    match session.now.chain with
    | [] => session
    | link :: chain =>
      let undone := session.now.state.disconnectBlock link.call.hashBlock fNoMWChange
      if session.now.state.hasUndo link.call.hashBlock && undone.1 then
        { session with now := { state := undone.2, names := link.names, chain } }
      else { session with now := { session.now with state := undone.2 } }
  | .saveToDB strPath =>
    { session with
      disk := Function.update session.disk strPath
        (some (CMWState.saveToDB ((session.disk strPath).getD ∅) session.now.state))
      saved := Function.update session.saved strPath (session.now :: session.saved strPath) }
  | .loadFromDB strPath =>
    match session.disk strPath, session.saved strPath with
    | some db, last :: _ =>
      let loaded := CMWState.reload db session.now.state
      { session with
        now :=
          { state := loaded.2
            names := last.names
            chain := if loaded.1 then last.chain else [] } }
    | _, _ => session
  | .clear => { session with now := MWSnapshot.cleared sha }

def run (session : MWSession) (events : List MWSessionEvent) : MWSession :=
  events.foldl (step sha) session

/-- **The condition on a step.**  A block that is applied creates nothing that is
spent, and the sizes fit in 64 bits.  A record that is found for the latest block is
its own.  A database that is loaded has from its earlier saves no output and no spent
mark that the last one did not write. -/
def Fits (session : MWSession) : MWSessionEvent → Prop
  | .applyBlock call => call.hashBlock ∉ session.now.state.mapBlockUndo →
      session.now.state.FreshBlock call.mwBlock.body ∧
        session.now.state.Sized call.mwBlock.body
  | .disconnectBlock _ =>
    match session.now.chain with
    | [] => True
    | link :: _ => ∀ undo, session.now.state.mapBlockUndo[link.call.hashBlock]? = some undo →
        undo = (link.before.applyBody sha link.call.mwBlock.body link.call.nSupplyDelta).2
  | .saveToDB _ => True
  | .loadFromDB strPath =>
    match session.saved strPath with
    | [] => True
    | last :: older => CMWState.Keeps (older.reverse.map MWSnapshot.state) last.state
  | .clear => True

/-- Every step of a run meets its condition. -/
def AllFit : MWSession → List MWSessionEvent → Prop
  | _, [] => True
  | session, event :: events =>
    session.Fits sha event ∧ AllFit (session.step sha event) events

end MWSession

/-- The state is what applying the blocks of the chain gives. -/
def Chained : CMWState uint256 → List MWLink → Prop
  | _, [] => True
  | state, link :: chain =>
    (link.before.WF ∧ link.before.Represented sha link.names ∧ link.before.Representable ∧
      link.before.FreshBlock link.call.mwBlock.body) ∧
    (∃ applied, link.before.apply sha link.call = some applied ∧
      CMWState.SameSaved state applied) ∧
    Chained link.before chain

/-- What holds of the object and of everything that was saved. -/
structure MWSnapshot.Sound (snapshot : MWSnapshot) : Prop where
  wf : snapshot.state.WF
  represented : snapshot.state.Represented sha snapshot.names
  representable : snapshot.state.Representable
  chained : Chained sha snapshot.state snapshot.chain

/-- The invariant of a run. -/
structure MWSession.Sound (session : MWSession) : Prop where
  now : session.now.Sound sha
  saved : ∀ strPath, ∀ snapshot ∈ session.saved strPath, snapshot.Sound sha
  disk : ∀ strPath, session.disk strPath =
    if session.saved strPath = [] then none
    else some (CMWState.saveAll ((session.saved strPath).reverse.map MWSnapshot.state))

variable {sha} {session : MWSession} {snapshot : MWSnapshot}

theorem Chained.same {state ideal : CMWState uint256} {chain : List MWLink}
    (hsame : CMWState.SameSaved state ideal) (h : Chained sha ideal chain) : Chained sha state chain := by
  cases chain with
  | nil => trivial
  | cons link chain =>
    obtain ⟨hbefore, ⟨applied, happly, hideal⟩, hrest⟩ := h
    exact ⟨hbefore, ⟨applied, happly, hsame.trans hideal⟩, hrest⟩

theorem MWSnapshot.cleared_sound : (MWSnapshot.cleared sha).Sound sha where
  wf := CMWState.wf_empty
  represented := by
    refine ⟨?_, ?_, ?_⟩
    · intro c hmem
      simp [cleared, CMWState.empty] at hmem
    · intro c out hlook
      simp [cleared, CMWState.empty] at hlook
    · intro c hused
      simp [cleared, CMWState.empty] at hused
  representable := by
    refine ⟨by simp [cleared, CMWState.empty, CMMR.empty],
      by simp [cleared, CMWState.empty, CMMR.empty], by simp [cleared, CMWState.empty], ?_⟩
    intro c out hlook
    simp [cleared, CMWState.empty] at hlook
  chained := trivial

theorem MWSnapshot.Sound.apply (h : snapshot.Sound sha) {call : ApplyCall uint256}
    {state : CMWState uint256} (happly : snapshot.state.apply sha call = some state)
    (hfresh : snapshot.state.FreshBlock call.mwBlock.body)
    (hsized : snapshot.state.Sized call.mwBlock.body) : MWSnapshot.Sound sha
      { state
        names := snapshot.state.namesAfter sha call.mwBlock.body snapshot.names
        chain := ⟨snapshot.state, snapshot.names, call⟩ :: snapshot.chain } := by
  have hbound : snapshot.state.mmr.nLeaves + call.mwBlock.body.vOutputs.length ≤ 2 ^ 64 := by
    have hleaves := hsized.leaves
    omega
  refine ⟨(h.wf.apply happly).1, ?_, hsized.representable h.representable h.wf happly, ?_⟩
  · have hbody := h.represented.applyBody h.wf.mmrSize hfresh hbound call.nSupplyDelta
    rw [(CMWState.apply_cases happly (Prod.eta _).symm).2]
    exact hbody.congr rfl rfl rfl fun _ _ => rfl
  · exact ⟨⟨h.wf, h.represented, h.representable, hfresh⟩,
      ⟨state, happly, rfl, rfl, rfl, fun _ _ => rfl, rfl, rfl, rfl, rfl⟩, h.chained⟩

theorem MWSnapshot.Sound.disconnect (h : snapshot.Sound sha) {link : MWLink}
    {chain : List MWLink} (hchain : snapshot.chain = link :: chain)
    (hrecord : snapshot.state.mapBlockUndo[link.call.hashBlock]? =
      some (link.before.applyBody sha link.call.mwBlock.body link.call.nSupplyDelta).2)
    (fNoMWChange : Bool) :
    (snapshot.state.disconnectBlock link.call.hashBlock fNoMWChange).1 = true ∧
      MWSnapshot.Sound sha
        { state := (snapshot.state.disconnectBlock link.call.hashBlock fNoMWChange).2
          names := link.names
          chain } := by
  have hchained := h.chained
  rw [hchain] at hchained
  obtain ⟨⟨hwf, hrep, hsizes, hfresh⟩, ⟨applied, happly, hsame⟩, hrest⟩ := hchained
  obtain ⟨htrue, hback⟩ := hsame.disconnect hwf happly hfresh hrecord fNoMWChange
  exact ⟨htrue, h.wf.disconnect _ _, hback.represented hrep, hback.representable hsizes, hrest.same hback⟩

/-- A record that is missing changes nothing. -/
theorem disconnectBlock_of_not_hasUndo {state : CMWState uint256} {hashBlock : uint256}
    (hnone : state.mapBlockUndo[hashBlock]? = none) (fNoMWChange : Bool) :
    state.disconnectBlock hashBlock fNoMWChange = (fNoMWChange, state) := by
  simp only [CMWState.disconnectBlock, hnone]

theorem MWSnapshot.Sound.reload {last : MWSnapshot} (h : snapshot.Sound sha)
    (hlast : last.Sound sha) {older : List (CMWState uint256)}
    (hkeeps : CMWState.Keeps older last.state) : MWSnapshot.Sound sha
      { state := (CMWState.reload (CMWState.saveAll (older ++ [last.state])) snapshot.state).2
        names := last.names
        chain :=
          if (CMWState.reload (CMWState.saveAll (older ++ [last.state])) snapshot.state).1 then
            last.chain
          else [] } := by
  have hremnant := hkeeps.reload_remnant hlast.representable snapshot.state
  have hundo := CMWState.reload_undo (CMWState.saveAll older) hlast.representable snapshot.state
  rw [← CMWState.saveAll_concat] at hundo
  refine ⟨hremnant.wf hlast.wf h.wf hundo, hremnant.represented hlast.represented,
    hremnant.representable hlast.representable, ?_⟩
  show Chained sha _ (if _ then _ else _)
  split
  · rename_i hok
    have hindexed : ∀ c, c ∈ last.state.mapOutputs ∨ c ∈ last.state.setSpent →
        c ∈ last.state.mapMMRIndex := by
      intro c hused
      obtain ⟨_, _, nIdx, hidx, _⟩ := hlast.represented.indexed c hused
      exact (mem_iff_exists _ _).mpr ⟨nIdx, hidx⟩
    exact hlast.chained.same (hkeeps.reload_same hlast.representable hindexed hok)
  · trivial

namespace MWSession

theorem start_sound : (start sha).Sound sha where
  now := MWSnapshot.cleared_sound
  saved strPath snapshot hmem := by simp [start] at hmem
  disk strPath := rfl

/-- **Step lemma.** -/
theorem Sound.after_step (h : session.Sound sha) {event : MWSessionEvent}
    (hfits : session.Fits sha event) : (session.step sha event).Sound sha := by
  cases event with
  | applyBlock call =>
    simp only [MWSession.step]
    cases happly : session.now.state.apply sha call with
    | none => exact h
    | some state =>
      obtain ⟨hfresh, hsized⟩ := hfits (CMWState.apply_cases happly (Prod.eta _).symm).1
      exact ⟨h.now.apply happly hfresh hsized, h.saved, h.disk⟩
  | disconnectBlock fNoMWChange =>
    simp only [MWSession.step]
    cases hchain : session.now.chain with
    | nil => exact h
    | cons link chain =>
      simp only [Fits, hchain] at hfits
      cases hrecord : session.now.state.mapBlockUndo[link.call.hashBlock]? with
      | none =>
        have hnot : session.now.state.hasUndo link.call.hashBlock = false := by
          rw [CMWState.hasUndo, decide_eq_false_iff_not, mem_iff_exists, hrecord]
          simp
        simp only [hnot, disconnectBlock_of_not_hasUndo hrecord, Bool.false_and, Bool.false_eq_true, if_false]
        rw [← hchain]
        exact h
      | some undo =>
        rw [hfits undo hrecord] at hrecord
        obtain ⟨htrue, hsound⟩ := h.now.disconnect hchain hrecord fNoMWChange
        have hhas : session.now.state.hasUndo link.call.hashBlock = true := by
          rw [CMWState.hasUndo, decide_eq_true_iff, mem_iff_exists]
          exact ⟨_, hrecord⟩
        simp only [hhas, htrue, Bool.and_true, if_true]
        exact ⟨hsound, h.saved, h.disk⟩
  | saveToDB strPath =>
    refine ⟨h.now, fun path snapshot hmem => ?_, fun path => ?_⟩
    · by_cases hpath : path = strPath
      · subst hpath
        simp only [MWSession.step, update_self] at hmem
        rcases List.mem_cons.mp hmem with rfl | hold
        · exact h.now
        · exact h.saved path snapshot hold
      · simp only [MWSession.step, update_of_ne hpath] at hmem
        exact h.saved path snapshot hmem
    · by_cases hpath : path = strPath
      · subst hpath
        have hbefore : (session.disk path).getD ∅ =
            CMWState.saveAll ((session.saved path).reverse.map MWSnapshot.state) := by
          rw [h.disk path]
          split
          · rename_i hnil
            rw [hnil]
            rfl
          · rfl
        simp only [MWSession.step, update_self, hbefore, List.reverse_cons,
          List.map_append, List.map_cons, List.map_nil, CMWState.saveAll_concat]
        rw [if_neg (List.cons_ne_nil _ _)]
      · simp only [MWSession.step, update_of_ne hpath]
        exact h.disk path
  | loadFromDB strPath =>
    have hdisk := h.disk strPath
    simp only [MWSession.step]
    cases hsaved : session.saved strPath with
    | nil =>
      rw [hsaved, if_pos rfl] at hdisk
      rw [hdisk]
      exact h
    | cons last older =>
      rw [hsaved, if_neg (List.cons_ne_nil _ _), List.reverse_cons, List.map_append,
        List.map_singleton] at hdisk
      rw [hdisk]
      simp only [Fits, hsaved] at hfits
      have hlast := h.saved strPath last (by simp [hsaved])
      exact ⟨h.now.reload hlast hfits, h.saved, h.disk⟩
  | clear => exact ⟨MWSnapshot.cleared_sound, h.saved, h.disk⟩

/-- **Run lemma.** -/
theorem Sound.after_run (events : List MWSessionEvent) (h : session.Sound sha)
    (hfit : session.AllFit sha events) : (session.run sha events).Sound sha := by
  induction events generalizing session with
  | nil => exact h
  | cons event events ih => exact ih (h.after_step hfit.1) hfit.2

/-- **Every state that is reached is represented**: nothing is unspent and spent, and
every commitment that is either has the leaf of its output. -/
theorem run_represented (events : List MWSessionEvent) (hfit : (start sha).AllFit sha events) :
    ((start sha).run sha events).now.state.Represented sha ((start sha).run sha events).now.names :=
  (start_sound.after_run events hfit).now.represented

end MWSession

/-- A block with this body, under this hash. -/
def blockCall (hashBlock : uint256) (vInputs : List CMWInput) (vOutputs : List CMWOutput) :
    ApplyCall uint256 where
  mwBlock :=
    { hashPrevMWBlock := 0
      body := { vInputs, vOutputs, vKernels := [] }
      vCutThrough := []
      nHeight := 1
      offset := Vector.replicate 32 0 }
  nBlockHeight := 1
  hashBlock
  nSupplyDelta := 0

/-- The same commitment is created and spent. -/
def createCall (hashBlock : uint256) : ApplyCall uint256 := blockCall hashBlock [] [sampleOutput 5]
def spendCall (hashBlock : uint256) : ApplyCall uint256 := blockCall hashBlock [sampleInput 5] []

namespace MWSession

/-- A block creates the commitment, another spends it, and the state is saved and loaded. -/
def restartRun : List MWSessionEvent :=
  [.applyBlock (createCall 7), .applyBlock (spendCall 8), .saveToDB "mwstate",
    .loadFromDB "mwstate"]
/-- A commitment is created again after it was spent. -/
def recreateRun : List MWSessionEvent :=
  [.applyBlock (createCall 7), .applyBlock (spendCall 8), .applyBlock (createCall 9)]

/-- The state is saved before and after a spend, and loaded. -/
def staleRun : List MWSessionEvent :=
  [.applyBlock (createCall 7), .saveToDB "mwstate", .applyBlock (spendCall 8),
    .saveToDB "mwstate", .loadFromDB "mwstate"]

theorem createCall_sized {state : CMWState uint256} (hashBlock : uint256)
    (hleaves : state.mmr.nLeaves = 0) (hkernels : state.vKernelExcesses = []) :
    state.Sized (createCall hashBlock).mwBlock.body where
  leaves := by simp [hleaves, createCall, blockCall]
  kernels := by simp [hkernels, createCall, blockCall]
  proofs out hout := by
    rw [List.mem_singleton.mp hout]
    decide

theorem saved_applyBlock (sha : Sha256 uint256) (session : MWSession) (call : ApplyCall uint256) :
    (session.step sha (.applyBlock call)).saved = session.saved := by
  simp only [step]
  split
  · rfl
  · rfl

theorem fits_loadFromDB (sha : Sha256 uint256) {session : MWSession} {strPath : String}
    (hsaved : session.saved strPath = []) :
    (session.step sha (.saveToDB strPath)).Fits sha (.loadFromDB strPath) := by
  simp only [Fits, step, update_self, hsaved]
  exact ⟨by simp, by simp⟩

theorem restartRun_fits : (start countingSha).AllFit countingSha restartRun := by
  refine ⟨fun _ => ⟨?_, createCall_sized 7 rfl rfl⟩, ?_, trivial, fits_loadFromDB _ ?_, trivial⟩
  · intro out _ _
    exact ExtTreeSet.not_mem_empty
  · intro _
    refine ⟨?_, ?_, ?_, ?_⟩
    · intro out hout
      cases hout
    · decide +kernel
    · decide +kernel
    · intro out hout
      cases hout
  · rw [saved_applyBlock, saved_applyBlock]
    rfl

theorem run_represented_restart :
    sampleCommitment 5 ∈ ((start countingSha).run countingSha restartRun).now.state.setSpent ∧
      ((start countingSha).run countingSha restartRun).now.state.Represented countingSha
        ((start countingSha).run countingSha restartRun).now.names :=
  ⟨by decide +kernel, run_represented restartRun restartRun_fits⟩

/-- **A commitment that is unspent and spent**: created again after it was spent, or
loaded from a database that has the spent output still. -/
theorem unspent_and_spent :
    (sampleCommitment 5 ∈ ((start countingSha).run countingSha recreateRun).now.state.mapOutputs ∧
      sampleCommitment 5 ∈ ((start countingSha).run countingSha recreateRun).now.state.setSpent) ∧
    sampleCommitment 5 ∈ ((start countingSha).run countingSha staleRun).now.state.mapOutputs ∧
      sampleCommitment 5 ∈ ((start countingSha).run countingSha staleRun).now.state.setSpent :=
  ⟨⟨by decide +kernel, by decide +kernel⟩, by decide +kernel, by decide +kernel⟩

end MWSession

end MaryJaneCoin
