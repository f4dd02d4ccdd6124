import Rxrpl.ConsensusEngine

/-!
# What a call does to a round

The part of the engine that decides a round is its `core`: the phase, the positions, the
tracker and the accepted close time. `Core.Inv` holds in every state that calls lead to:
the tracker and the peer positions hold the same proposals, under the ids of their senders
and on the parent of the round, and an accepted round has the close time that its positions
give.
-/

namespace Rxrpl.Consensus

open HashMap

structure Core where
  phase : ConsensusPhase
  ourPosition : Option Proposal
  peerPositions : HashMap NodeId Proposal
  proposalTracker : ProposalTracker
  prevLedger : Hash256
  adaptiveCloseTime : AdaptiveCloseTime
  priorCloseTime : ℕ
  acceptedCloseTime : Option ℕ
  unl : TrustedValidatorList

namespace Core

/-- The core after a proposal that passed the gates of `peer_proposal_at`. -/
def track (c : Core) (p : Proposal) : Core :=
  { c with proposalTracker := (c.proposalTracker.track p).1
           peerPositions := if (c.proposalTracker.track p).2 then c.peerPositions.insert p.nodeId p
             else c.peerPositions }

def move (c : Core) (pos : Option Proposal) : Core := { c with ourPosition := pos }

def accept (o : IterOrder) (c : Core) : Core :=
  { c with
    phase := .accepted
    acceptedCloseTime := some (effectiveCloseTime o c.adaptiveCloseTime.resolution c.priorCloseTime
      c.ourPosition c.peerPositions).1 }

end Core

namespace Engine

def core (e : Engine) : Core :=
  ⟨e.phase,e.ourPosition,e.peerPositions,e.proposalTracker,e.prevLedger,e.adaptiveCloseTime,
    e.priorCloseTime,e.acceptedCloseTime,e.unl⟩

variable (sha : Sha512Half) (env : Env) (e : Engine)

/-! ## The calls on the core -/

theorem createDisputes_eq : ∃ disputes blobs,
    e.createDisputes env={ e with disputes := disputes, txBlobs := blobs } := by
  unfold createDisputes
  split <;> exact ⟨_,_,rfl⟩

@[simp] theorem core_createDisputes : (e.createDisputes env).core=e.core := by
  obtain ⟨_,_,h⟩ := e.createDisputes_eq env
  rw [h]
  rfl

@[simp] theorem core_divert (p : Proposal) : (e.divert env p).core=e.core := rfl

@[simp] theorem core_bufferProposal (p : Proposal) (now : ℕ) :
    (e.bufferProposal p now).core=e.core := by
  unfold bufferProposal
  split
  · rfl
  · split
    · rfl
    · split <;> rfl

theorem core_admitProposal (p : Proposal) : (e.admitProposal env p).core=e.core.track p := by
  unfold admitProposal
  cases h : e.proposalTracker.track p with
  | mk tracker accepted =>
    have htrack : e.core.track p={ e.core with
        proposalTracker := tracker
        peerPositions := if accepted then e.peerPositions.insert p.nodeId p
          else e.peerPositions } := by
      simp [Core.track,core,h]
    rw [htrack]
    cases accepted with
    | true => exact core_createDisputes ..
    | false => rfl

/-- A proposal that `peer_proposal_at` passes on to the tracker. -/
structure Qualifies (e : Engine) (p : Proposal) (now : ℕ) : Prop where
  phase_eq : e.phase=.establish
  trusted : e.untrusted p=false
  fresh : stale p now=false
  prevLedger_eq : p.prevLedger=e.prevLedger
  seq : e.seqMismatch p=false

theorem core_peerProposalAt (p : Proposal) (now : ℕ) :
    (e.Qualifies p now ∧ (e.peerProposalAt env p now).core=e.core.track p) ∨
      (¬ e.Qualifies p now ∧ (e.peerProposalAt env p now).core=e.core) := by
  have hobs : ∀ q, (e.observe q).phase=e.phase ∧ (e.observe q).untrusted p=e.untrusted p ∧
      (e.observe q).prevLedger=e.prevLedger ∧ (e.observe q).seqMismatch p=e.seqMismatch p :=
        fun _ => ⟨rfl,rfl,rfl,rfl⟩
  obtain ⟨h₁,h₂,h₃,h₄⟩ := hobs p
  unfold peerProposalAt
  simp only [h₁,h₂,h₃,h₄]
  by_cases hphase : e.phase=.establish
  · rw [if_neg (not_not.mpr hphase)]
    by_cases hu : e.untrusted p=true
    · rw [if_pos hu]
      exact .inr ⟨fun h => by simp [h.trusted] at hu,rfl⟩
    rw [if_neg hu]
    by_cases hs : stale p now=true
    · rw [if_pos hs]
      exact .inr ⟨fun h => by simp [h.fresh] at hs,rfl⟩
    rw [if_neg hs]
    by_cases hl : p.prevLedger=e.prevLedger
    · rw [if_neg (not_not.mpr hl)]
      by_cases hm : e.seqMismatch p=true
      · rw [if_pos hm]
        exact .inr ⟨fun h => by simp [h.seq] at hm,rfl⟩
      · rw [if_neg hm,core_admitProposal]
        exact .inl ⟨⟨hphase,by simpa using hu,by simpa using hs,hl,by simpa using hm⟩,rfl⟩
    · rw [if_pos hl,core_divert]
      exact .inr ⟨fun h => hl h.prevLedger_eq,rfl⟩
  · rw [if_pos hphase,core_bufferProposal]
    exact .inr ⟨fun h => hphase h.phase_eq,rfl⟩

theorem alignCloseTimeWithPeers_eq (o : IterOrder) : ∃ closeTime : Proposal → ℕ,
    (e.alignCloseTimeWithPeers o).1 =
    { e with ourPosition := e.ourPosition.map fun pos =>
      { pos with closeTime := closeTime pos } } := by
  have hsame : e={ e with ourPosition := e.ourPosition.map fun pos =>
    { pos with closeTime := pos.closeTime } } := by
    cases e
    simp
  unfold alignCloseTimeWithPeers
  split
  · exact ⟨_,hsame⟩
  rename_i pos hpos
  split
  · exact ⟨_,hsame⟩
  dsimp only
  split
  · exact ⟨_,hsame⟩
  split
  · exact ⟨_,hsame⟩
  · split
    · exact ⟨fun _ => _,by rw [hpos]; rfl⟩
    · exact ⟨_,hsame⟩

/-- What comes before the count of the agreement changes our position, our set and the disputes. -/
theorem reposition_eq : ∃ pos set disputes share, e.reposition sha env =
    { e with ourPosition := pos, ourSet := set, disputes := disputes, lastShareAt := share } := by
  have hresolve : ∀ e : Engine, ∃ pos set disputes share, (e.resolveDisputes sha env).1 =
      { e with ourPosition := pos, ourSet := set, disputes := disputes, lastShareAt := share } := by
    intro e
    unfold resolveDisputes
    split
    · exact ⟨_,_,_,_,rfl⟩
    · dsimp only
      split <;> exact ⟨_,_,_,_,rfl⟩
  have hrefresh : ∀ (e : Engine) (b b' : Bool), ∃ pos share, e.refreshPosition env b b' =
      { e with ourPosition := pos, lastShareAt := share } := by
    intro e b b'
    unfold refreshPosition
    split
    · split <;> exact ⟨_,_,rfl⟩
    · exact ⟨_,_,rfl⟩
  obtain ⟨t,h₁⟩ := e.alignCloseTimeWithPeers_eq env.iter
  obtain ⟨_,set,disputes,_,h₂⟩ := hresolve (e.alignCloseTimeWithPeers env.iter).1
  obtain ⟨pos,share,h₃⟩ :=
    hrefresh ((e.alignCloseTimeWithPeers env.iter).1.resolveDisputes sha env).1
    (e.alignCloseTimeWithPeers env.iter).2
      ((e.alignCloseTimeWithPeers env.iter).1.resolveDisputes sha env).2
  exact ⟨pos,set,disputes,share,by rw [show e.reposition sha env=_ from h₃,h₂,h₁]⟩

theorem core_reposition : ∃ pos, (e.reposition sha env).core=e.core.move pos := by
  obtain ⟨pos,_,_,_,h⟩ := e.reposition_eq sha env
  exact ⟨pos,by rw [h]; rfl⟩

theorem core_accept : (e.accept env).core=e.core.accept env.iter := by
  unfold accept
  dsimp only
  split <;> rfl

theorem core_advanceRound :
    (e.advanceRound env).1.core=e.core ∨ (e.advanceRound env).1.core=e.core.accept env.iter := by
  unfold advanceRound
  split
  · exact .inl rfl
  dsimp only
  split
  · split
    · exact .inl rfl
    · exact .inr (core_accept ..)
  · exact .inl rfl

/-- `converge` does nothing outside the establish phase; in it, it moves our position and may
then accept. -/
theorem core_converge : (e.converge sha env).1.core=e.core ∨ (e.phase=.establish ∧ ∃ pos,
      ((e.converge sha env).1.core=e.core.move pos ∨
        (e.converge sha env).1.core=(e.core.move pos).accept env.iter)) := by
  unfold converge
  split
  · exact .inl rfl
  rename_i hphase
  right
  refine ⟨not_not.mp hphase,?_⟩
  obtain ⟨pos,hpos⟩ := core_reposition sha env e
  refine ⟨pos,?_⟩
  dsimp only
  split
  · exact .inl hpos
  split
  · split
    · rw [core_accept,hpos]
      exact .inr rfl
    · exact .inl hpos
  · rw [← hpos]
    exact core_advanceRound ..

theorem converge_eq : e.phase≠.establish ∧ (e.converge sha env).1=e ∨ e.phase=.establish ∧
    ∃ phase round advance closeTime flags agreed validation,
      (e.converge sha env).1={ e.reposition sha env with
        phase := phase, round := round, lastRoundAdvance := advance, acceptedCloseTime := closeTime
        acceptedCloseFlags := flags, previousCloseAgreed := agreed, acceptedValidation :=
          validation } := by
  have haccept : ∀ e : Engine, ∃ phase closeTime flags agreed validation, e.accept env =
      { e with phase := phase, acceptedCloseTime := closeTime, acceptedCloseFlags := flags
               previousCloseAgreed := agreed, acceptedValidation := validation } := by
    intro e
    unfold accept
    dsimp only
    split <;> exact ⟨_,_,_,_,_,rfl⟩
  unfold converge
  split <;> rename_i hphase
  · exact .inl ⟨hphase,rfl⟩
  refine .inr ⟨not_not.mp hphase,?_⟩
  dsimp only
  split
  · exact ⟨_,_,_,_,_,_,_,rfl⟩
  split
  · split
    · obtain ⟨_,_,_,_,_,h⟩ := haccept (e.reposition sha env)
      exact ⟨_,_,_,_,_,_,_,h⟩
    · exact ⟨_,_,_,_,_,_,_,rfl⟩
  · unfold advanceRound
    split
    · exact ⟨_,_,_,_,_,_,_,rfl⟩
    dsimp only
    split
    · split
      · exact ⟨_,_,_,_,_,_,_,rfl⟩
      · obtain ⟨_,_,_,_,_,h⟩ := haccept _
        exact ⟨_,_,_,_,_,_,_,h⟩
    · exact ⟨_,_,_,_,_,_,_,rfl⟩

end Engine

/-! ## The invariant -/

structure Core.Inv (c : Core) : Prop where
  anchored : c.proposalTracker.Anchored c.prevLedger
  lockstep : ∀ id, c.peerPositions.lookup id=c.proposalTracker.get id c.prevLedger
  length_eq : c.peerPositions.entries.length=c.proposalTracker.proposals.entries.length
  length_le : c.peerPositions.entries.length ≤ maxProposalsPerPrev
  nodeId_eq : ∀ id p, c.peerPositions.lookup id=some p → p.nodeId=id
  closeTime_eq : c.phase=.accepted → ∃ o, c.acceptedCloseTime=some
    (effectiveCloseTime o c.adaptiveCloseTime.resolution c.priorCloseTime c.ourPosition
      c.peerPositions).1

namespace Core.Inv

variable {c : Core}

theorem of_empty (htracker : c.proposalTracker.proposals=∅)
    (horder : c.proposalTracker.prevLedgerOrder=[]) (hpeers : c.peerPositions=∅)
    (hphase : c.phase≠.accepted) : c.Inv where
  anchored := ⟨by simp [htracker],.inl ⟨horder,by simp [htracker]⟩⟩
  lockstep := by simp [hpeers,ProposalTracker.get,htracker]
  length_eq := by simp [hpeers,htracker]
  length_le := by simp [hpeers]
  nodeId_eq := by simp [hpeers]
  closeTime_eq h := absurd h hphase

theorem move (h : c.Inv) (hphase : c.phase≠.accepted) (pos : Option Proposal) : (c.move pos).Inv :=
  ⟨h.anchored,h.lockstep,h.length_eq,h.length_le,h.nodeId_eq,fun ha => absurd ha hphase⟩

theorem withUnl (h : c.Inv) (u : TrustedValidatorList) : ({ c with unl := u } : Core).Inv :=
  ⟨h.anchored,h.lockstep,h.length_eq,h.length_le,h.nodeId_eq,h.closeTime_eq⟩

theorem accept (h : c.Inv) (o : IterOrder) : (c.accept o).Inv :=
  ⟨h.anchored,h.lockstep,h.length_eq,h.length_le,h.nodeId_eq,fun _ => ⟨o,rfl⟩⟩

theorem track (h : c.Inv) {p : Proposal} (hp : p.prevLedger=c.prevLedger)
    (hphase : c.phase≠.accepted) : (c.track p).Inv := by
  rcases h.anchored.track_eq hp with ⟨hacc,hb,hprop,-⟩ | ⟨-,hb,hprop,-⟩
  · have hmem : p.nodeId∈c.peerPositions ↔ (p.nodeId,c.prevLedger)∈c.proposalTracker.proposals := by
      rw [← AList.lookup_isSome,← AList.lookup_isSome,h.lockstep]; rfl
    have hpeers : (c.track p).peerPositions=c.peerPositions.insert p.nodeId p := by
      simp [Core.track,hb]
    refine ⟨h.anchored.track hp,?_,?_,?_,?_,fun ha => absurd ha hphase⟩
    · intro id
      change (c.track p).peerPositions.lookup id =
        (c.proposalTracker.track p).1.proposals.lookup (id,c.prevLedger)
      rw [hpeers,hprop,HashMap.lookup_insert_eq,HashMap.lookup_insert_eq,h.lockstep]
      simp [ProposalTracker.get]
    · change (c.track p).peerPositions.entries.length=(c.proposalTracker.track
        p).1.proposals.entries.length
      rw [hpeers,hprop]
      by_cases hk : p.nodeId∈c.peerPositions
      · rw [HashMap.length_insert_of_mem hk,HashMap.length_insert_of_mem (hmem.mp hk),h.length_eq]
      · rw [HashMap.length_insert_of_notMem hk,HashMap.length_insert_of_notMem (hk ∘ hmem.mpr),
          h.length_eq]
    · rw [hpeers]
      by_cases hk : p.nodeId∈c.peerPositions
      · rw [HashMap.length_insert_of_mem hk]
        exact h.length_le
      rw [HashMap.length_insert_of_notMem hk,h.length_eq]
      have hnone : c.proposalTracker.get p.nodeId p.prevLedger=none := by
        rw [hp,← h.lockstep]
        exact AList.lookup_eq_none.mpr hk
      have hroom : c.proposalTracker.proposals.entries.length < maxProposalsPerPrev := by
        simpa [ProposalTracker.Accepts,hnone] using hacc
      exact hroom
    · intro id q hq
      rw [hpeers,HashMap.lookup_insert_eq] at hq
      split at hq
      · cases hq; symm; assumption
      · exact h.nodeId_eq id q hq
  · have hpeers : (c.track p).peerPositions=c.peerPositions := by simp [Core.track,hb]
    refine ⟨h.anchored.track hp,?_,?_,?_,?_,fun ha => absurd ha hphase⟩
    · intro id
      change (c.track p).peerPositions.lookup id =
        (c.proposalTracker.track p).1.proposals.lookup (id,c.prevLedger)
      rw [hpeers,hprop]
      exact h.lockstep id
    · change (c.track p).peerPositions.entries.length=(c.proposalTracker.track
        p).1.proposals.entries.length
      rw [hpeers,hprop]
      exact h.length_eq
    · rw [hpeers]; exact h.length_le
    · rw [hpeers]; exact h.nodeId_eq

end Core.Inv

namespace Engine

variable {sha : Sha512Half} {e : Engine}

theorem inv_peerProposalAt (h : e.core.Inv) (env : Env) (p : Proposal) (now : ℕ) :
    (e.peerProposalAt env p now).core.Inv := by
  rcases core_peerProposalAt env e p now with ⟨hq,hc⟩ | ⟨-,hc⟩
  · rw [hc]
    exact h.track hq.prevLedger_eq (by rw [show e.core.phase=e.phase from rfl,hq.phase_eq]; decide)
  · rw [hc]; exact h

theorem inv_closeLedger (h : e.core.Inv) (env : Env) (ourSet : TxSet) (closeTime ledgerSeq : ℕ) :
    (e.closeLedger env ourSet closeTime ledgerSeq).1.core.Inv := by
  unfold closeLedger
  split
  · exact h
  -- the replay of the buffered proposals keeps the invariant one by one
  have hreplay : ∀ (l : List Proposal) (e : Engine), e.core.Inv →
      (l.foldl (fun e p => e.peerProposalAt env p closeTime) e).core.Inv := by
    intro l
    induction l with
    | nil => exact fun e he => he
    | cons p l ih => exact fun e he => ih _ (inv_peerProposalAt he env p closeTime)
  apply hreplay
  exact ⟨h.anchored,h.lockstep,h.length_eq,h.length_le,h.nodeId_eq,fun ha => by cases ha⟩

theorem inv_converge (h : e.core.Inv) (env : Env) : (e.converge sha env).1.core.Inv := by
  rcases core_converge sha env e with hc | ⟨hphase,pos,hc | hc⟩
  · rw [hc]; exact h
  · rw [hc]
    exact h.move (by rw [show e.core.phase=e.phase from rfl,hphase]; decide) pos
  · rw [hc]
    exact (h.move (by rw [show e.core.phase=e.phase from rfl,hphase]; decide) pos).accept env.iter

theorem inv_step (h : e.core.Inv) (event : Event) : (e.step sha event).core.Inv := by
  cases event with
  | startRound prev seq prior =>
    obtain ⟨hprop,horder⟩ := h.anchored.clearFor
    exact .of_empty hprop horder rfl (by simp [step,startRoundWithPrior,core])
  | closeLedger env set t seq => exact inv_closeLedger h env set t seq
  | peerProposal env p now => exact inv_peerProposalAt h env p now
  | converge env => exact inv_converge h env
  | setSelfTrusted b => exact h
  | setTrustedMasterKeys keys =>
    simp only [step,setTrustedMasterKeys]
    split
    · exact h
    · exact h.withUnl _
  | changeUnl c => exact h.withUnl _

theorem Reachable.inv (h : Reachable sha e) : e.core.Inv :=
  h.induction (P := fun e => e.core.Inv) (fun _ _ _ _ => .of_empty rfl rfl rfl (by simp [new,core]))
    fun _ event he => inv_step he event

end Engine

end Rxrpl.Consensus
