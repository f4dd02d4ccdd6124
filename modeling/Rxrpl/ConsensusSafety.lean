import Rxrpl.ConsensusRounds

/-!
# Safety of consensus rounds

Three results about every state that calls on an engine lead to: when an accepted close time
lies above the parent's, when the votes counted for the quorum are votes of different
validators, and when a trusted proposal becomes the stored position of its sender.
-/

namespace Rxrpl.Consensus

open HashMap List

namespace Engine

variable {sha : Sha512Half} {e : Engine}

def sampleEnv : Env := ⟨fun _ => none,fun _ _ _ => .zero,fun _ => 0,.listed⟩

def sampleProposal (node : NodeId) (closeTime : ℕ) : Proposal :=
    ⟨node,[],.zero,closeTime,0,2,.zero,none⟩

def sampleOpening (priorCloseTime closeTime : ℕ) : List Event :=
  [.startRound .zero 2 priorCloseTime,.closeLedger sampleEnv ⟨.zero,[],∅⟩ closeTime 2]

/-! ## Close times -/

/-- The buckets of the close times of our position and of the peers that the vote counts. -/
def closeTimeBuckets (e : Engine) (pos : Proposal) : List ℕ :=
  survivingBuckets e.adaptiveCloseTime.resolution e.priorCloseTime
    (pos.closeTime::e.peerPositions.values.map (·.closeTime))

/-- In an accepted round the close time is above the parent's, and just above it after a split
vote, exactly if the vote was not split: a split vote closes the round at the sentinel `0`. -/
theorem accepted_close_time_increases_iff (h : Reachable sha e) (hphase : e.phase=.accepted)
    {pos : Proposal} (hpos : e.ourPosition=some pos) (hct : pos.closeTime≠0)
    (hprior : e.priorCloseTime < u32Max) :
    (∃ t, e.acceptedCloseTime=some t ∧ e.priorCloseTime < t ∧
      (Split (e.closeTimeBuckets pos) → t=e.priorCloseTime+1)) ↔
        ¬ Split (e.closeTimeBuckets pos) := by
  obtain ⟨o,ho⟩ := h.inv.closeTime_eq hphase
  change e.acceptedCloseTime=some
    (effectiveCloseTime o e.adaptiveCloseTime.resolution e.priorCloseTime
    e.ourPosition e.peerPositions).1 at ho
  rw [hpos] at ho
  rcases effectiveCloseTime_cases o hct with ⟨hsplit,heq⟩ | ⟨hsplit,t,ht,heq⟩
  · rw [heq] at ho
    refine iff_of_false ?_ (not_not.mpr hsplit)
    rintro ⟨t,ht,hlt,-⟩
    rw [ho] at ht
    cases ht
    exact Nat.not_lt_zero _ hlt
  · rw [heq] at ho
    refine iff_of_true ⟨_,ho,lt_effCloseTime ht hprior,fun hs => absurd hs hsplit⟩ hsplit

/-- Two engines whose close times, ours and those of the peers, are the same up to their order, and
of which one counts, come to the same close time, and they agree on it exactly if a strict majority
of the votes that count is for one bucket. -/
theorem close_time_same_votes {e' : Engine} {pos pos' : Proposal}
    (hresolution : e.adaptiveCloseTime.resolution=e'.adaptiveCloseTime.resolution)
    (hprior : e.priorCloseTime=e'.priorCloseTime) (hpos : e.ourPosition=some pos)
    (hpos' : e'.ourPosition=some pos') (hpeers : e.peerPositions.entries≠[])
    (hpeers' : e'.peerPositions.entries≠[])
    (hsame : (pos.closeTime::e.peerPositions.values.map (·.closeTime)).Perm
      (pos'.closeTime::e'.peerPositions.values.map (·.closeTime)))
    (hreal : ∃ t∈pos.closeTime::e.peerPositions.values.map (·.closeTime),
      t≠0 ∧ e.priorCloseTime < roundCloseTime t e.adaptiveCloseTime.resolution) (o o' : IterOrder) :
    e.closeTime o=e'.closeTime o' ∧ ((e.closeTime o).2=true ↔
      ∃ b, (e.closeTimeBuckets pos).length < 2*(e.closeTimeBuckets pos).count b) := by
  have hperm : (survivingBuckets e.adaptiveCloseTime.resolution e.priorCloseTime
      (pos'.closeTime::e'.peerPositions.values.map (·.closeTime))).Perm (e.closeTimeBuckets pos) :=
    (hsame.filterMap _).symm
  have hne : e.closeTimeBuckets pos≠[] := by
    obtain ⟨t,ht,hzero,hlt⟩ := hreal
    refine ne_nil_of_mem (a := roundCloseTime t e.adaptiveCloseTime.resolution)
      (mem_filterMap.mpr ⟨t,ht,?_⟩)
    rw [survivingBucket,if_neg hzero,if_neg]
    simp only [saturatingAdd]
    omega
  rw [closeTime,closeTime,hpos,hpos',← hresolution,← hprior]
  obtain ⟨hall,heq⟩ | ⟨b,-,hlt,heq⟩ := effectiveCloseTime_of_votes o hpeers (.refl _) hne <;>
    obtain ⟨hall',heq'⟩ | ⟨b',-,hlt',heq'⟩ := effectiveCloseTime_of_votes o' hpeers' hperm hne <;>
    rw [heq,heq']
  · exact ⟨rfl,iff_of_false (by simp) fun h => h.elim fun b hb => absurd (hall b) (not_le.mpr hb)⟩
  · exact absurd (hall b') (not_le.mpr hlt')
  · exact absurd (hall' b) (not_le.mpr hlt)
  · rw [majority_unique hlt hlt']
    exact ⟨rfl,iff_of_true rfl ⟨b',hlt'⟩⟩

/-- A round in which we and a peer have sent a close time each. -/
def twoCloseTimes (ours theirs : ℕ) : Engine :=
  run (.ofTable []) (new ⟨.ofNat 1⟩ [] .default (.new ∅))
    (sampleOpening 100 ours++[.peerProposal sampleEnv (sampleProposal ⟨.ofNat 2⟩ theirs) theirs])

theorem two_close_times_swapped :
    (twoCloseTimes 130 133).closeTime .listed=(twoCloseTimes 133 130).closeTime .listed ∧
      ((twoCloseTimes 130 133).closeTime .listed).2=true := by
  obtain ⟨hsame,hagreed⟩ := @close_time_same_votes (twoCloseTimes 130 133) (twoCloseTimes 133 130)
    (sampleProposal ⟨.ofNat 1⟩ 130) (sampleProposal ⟨.ofNat 1⟩ 133) (by decide) (by decide)
    (by decide) (by decide) (by decide) (by decide) (by decide) (by decide)
    .listed .listed
  exact ⟨hsame,hagreed.mpr ⟨120,by decide⟩⟩

def splitRound : Engine :=
  run (.ofTable []) (new ⟨.ofNat 1⟩ [] .default (.new ∅))
    (sampleOpening 100 130++[.peerProposal sampleEnv (sampleProposal ⟨.ofNat 2⟩ 170) 170,
      .converge sampleEnv])

theorem split_round_closes_at_zero :
    splitRound.phase=.accepted ∧ splitRound.priorCloseTime=100 ∧
      splitRound.ourPosition.map (·.closeTime)=some 130 ∧
      splitRound.ourPosition.map splitRound.closeTimeBuckets=some [120,180] ∧
      splitRound.acceptedCloseTime=some 0 := by
  decide

def unanimousRound : Engine :=
  run (.ofTable []) (new ⟨.ofNat 1⟩ [] .default (.new ∅))
    (sampleOpening 100 130++[.peerProposal sampleEnv (sampleProposal ⟨.ofNat 2⟩ 133) 133,
      .converge sampleEnv])

theorem unanimous_round_close_time_increases :
    ∃ t, unanimousRound.acceptedCloseTime=some t ∧ unanimousRound.priorCloseTime < t := by
  obtain ⟨pos,hp⟩ : ∃ pos, pos=({ sampleProposal ⟨.ofNat 1⟩ 120 with propSeq := 1 } : Proposal) :=
    ⟨_,rfl⟩
  have hpos : unanimousRound.ourPosition=some pos := by rw [hp]; decide
  have hbuckets : unanimousRound.closeTimeBuckets pos=[120,120] := by rw [hp]; decide
  have hsplit : ¬ Split (unanimousRound.closeTimeBuckets pos) := by
    rw [hbuckets]
    exact fun h => absurd h.1 (by decide)
  obtain ⟨t,ht,hlt,-⟩ := (accepted_close_time_increases_iff (e := unanimousRound) ⟨_,_,_,_,_,rfl⟩
    (by decide) hpos (by rw [hp]; decide) (by decide)).mpr hsplit
  exact ⟨t,ht,hlt⟩

/-! ## Votes for the quorum -/

/-- The master id under which the UNL files the sender of a position. -/
def master (e : Engine) (p : Proposal) : NodeId := e.unl.resolveToMaster p.nodeId

/-- The trusted validators behind the votes that `converge` counts, where `me` is the master id
of this node. -/
def voters (sha : Sha512Half) (e : Engine) (me : NodeId) (pos : Proposal) : Finset NodeId :=
  ((e.agreeingUnl pos).map e.master).toFinset ∪ if e.selfInUnl sha && decide
    (me∈e.unl.trusted) then {me} else ∅

/-- No two counted positions are of one validator, and our own vote is of a trusted validator
without a counted position. -/
structure DistinctVoters (sha : Sha512Half) (e : Engine) (me : NodeId) (pos : Proposal) : Prop where
  peers : ∀ p∈e.agreeingUnl pos, ∀ q∈e.agreeingUnl pos, e.master p=e.master q → p.nodeId=q.nodeId
  self : e.selfInUnl sha=true → me∈e.unl.trusted ∧ ∀ p∈e.agreeingUnl pos, e.master p≠me

theorem master_mem_trusted {pos p : Proposal} (hp : p∈e.agreeingUnl pos) :
    e.master p∈e.unl.trusted := by
  have htrusted : e.unl.isTrusted p.nodeId=true := by
    have := (mem_filter.mp hp).2
    simp only [Bool.and_eq_true] at this
    exact this.1
  simp only [TrustedValidatorList.isTrusted,Bool.and_eq_true,decide_eq_true_eq] at htrusted
  exact htrusted.1

theorem voters_subset_trusted (me : NodeId) (pos : Proposal) :
    e.voters sha me pos⊆e.unl.trusted := by
  intro id hid
  rcases Finset.mem_union.mp hid with hid | hid
  · obtain ⟨p,hp,rfl⟩ := mem_map.mp (mem_toFinset.mp hid)
    exact master_mem_trusted hp
  split at hid
  · rename_i hself
    simp only [Bool.and_eq_true,decide_eq_true_eq] at hself
    rw [Finset.mem_singleton.mp hid]
    exact hself.2
  · cases hid

/-- In a round whose positions are stored under the ids of their senders, the counted masters
are pairwise different exactly if no two counted senders have one master. -/
theorem nodup_masters_iff (h : e.core.Inv) (pos : Proposal) :
    ((e.agreeingUnl pos).map e.master).Nodup ↔
      ∀ p∈e.agreeingUnl pos, ∀ q∈e.agreeingUnl pos, e.master p=e.master q → p.nodeId=q.nodeId := by
  have hids : e.peerPositions.values.map (·.nodeId)=e.peerPositions.keys := by
    simp only [values,AList.keys,keys,map_map]
    apply map_congr_left
    rintro ⟨id,p⟩ hp
    exact h.nodeId_eq id p (HashMap.mem_entries_iff.mp hp)
  have hnodup : (e.peerPositions.values.map (·.nodeId)).Nodup := by
    rw [hids]
    exact e.peerPositions.keys_nodup
  have hinj : ∀ p∈e.agreeingUnl pos, ∀ q∈e.agreeingUnl pos, p.nodeId=q.nodeId → p=q := by
    intro p hp q hq
    exact inj_on_of_nodup_map hnodup (mem_of_mem_filter hp) (mem_of_mem_filter hq)
  have hagreeing : (e.agreeingUnl pos).Nodup := (Nodup.of_map _ hnodup).filter _
  rw [nodup_map_iff_inj_on hagreeing]
  constructor
  · intro hall p hp q hq heq
    rw [hall p hp q hq heq]
  · intro hall p hp q hq heq
    exact hinj p hp q hq (hall p hp q hq heq)

theorem card_masters_eq_iff (pos : Proposal) :
    ((e.agreeingUnl pos).map e.master).toFinset.card=(e.agreeingUnl pos).length ↔
      ((e.agreeingUnl pos).map e.master).Nodup := by
  have := @Multiset.toFinset_card_eq_card_iff_nodup _ _
    (Multiset.ofList ((e.agreeingUnl pos).map e.master))
  simpa using this

/-- Each counted vote is of another validator exactly if the voters are distinct. -/
theorem quorumVotes_eq_card_iff (sha : Sha512Half) (h : e.core.Inv) (me : NodeId) (pos : Proposal) :
    e.quorumVotes sha pos=(e.voters sha me pos).card ↔ e.DistinctVoters sha me pos := by
  have hmasters := (card_masters_eq_iff pos).trans (nodup_masters_iff h pos)
  have hle : ((e.agreeingUnl pos).map e.master).toFinset.card ≤ (e.agreeingUnl pos).length := by
    simpa using toFinset_card_le ((e.agreeingUnl pos).map e.master)
  have hme : me∈((e.agreeingUnl pos).map e.master).toFinset ↔ ∃ p∈e.agreeingUnl pos,
    e.master p=me := by simp
  unfold quorumVotes voters
  by_cases hself : e.selfInUnl sha=true
  · by_cases htrusted : me∈e.unl.trusted
    · simp only [hself,htrusted,decide_true,Bool.and_self,if_true]
      by_cases hin : me∈((e.agreeingUnl pos).map e.master).toFinset
      · rw [Finset.union_eq_left.mpr (Finset.singleton_subset_iff.mpr hin)]
        refine iff_of_false (by omega) ?_
        intro hd
        obtain ⟨p,hp,hpm⟩ := hme.mp hin
        exact (hd.self hself).2 p hp hpm
      · rw [Finset.card_union_of_disjoint (Finset.disjoint_singleton_right.mpr hin),
          Finset.card_singleton]
        constructor
        · intro heq
          exact ⟨hmasters.mp (by omega),fun _ =>
            ⟨htrusted,fun p hp hpm => hin (hme.mpr ⟨p,hp,hpm⟩)⟩⟩
        · intro hd
          rw [hmasters.mpr hd.peers]
    · simp only [hself,htrusted,decide_false,Bool.and_false,Bool.false_eq_true,if_true,if_false,
        Finset.union_empty]
      exact iff_of_false (by omega) fun hd => htrusted (hd.self hself).1
  · simp only [hself,Bool.false_and,Bool.false_eq_true,if_false,Finset.union_empty,Nat.add_zero]
    constructor
    · intro heq
      exact ⟨hmasters.mp heq.symm,fun hs => absurd hs hself⟩
    · intro hd
      exact (hmasters.mpr hd.peers).symm

/-- In UNL mode the number that `converge` compares with the quorum is the number of validators
behind it, and so at most the number of trusted validators, exactly if the voters are
distinct. -/
theorem quorum_votes_count_validators_iff (h : Reachable sha e) (hphase : e.phase=.establish)
    (hunl : e.unl.isEmpty=false) (env : Env) (me : NodeId) (pos : Proposal) :
    (e.reposition sha env).agreementReached sha pos =
        decide ((e.reposition sha env).quorumVotes sha pos ≥ e.unl.quorumThreshold) ∧
      (((e.reposition sha env).quorumVotes sha pos=((e.reposition sha env).voters sha me pos).card ∧
          (e.reposition sha env).quorumVotes sha pos ≤ e.unl.trusted.card) ↔
        (e.reposition sha env).DistinctVoters sha me pos) := by
  obtain ⟨q,hq⟩ := core_reposition sha env e
  have hsame : (e.reposition sha env).unl=e.unl := congrArg Core.unl hq
  have hinv : (e.reposition sha env).core.Inv := by
    rw [hq]
    exact h.inv.move (by rw [show e.core.phase=e.phase from rfl,hphase]; decide) q
  have hcount := quorumVotes_eq_card_iff sha hinv me pos
  refine ⟨?_,fun hp => hcount.mp hp.1,fun hd => ⟨hcount.mpr hd,?_⟩⟩
  · rw [agreementReached,hsame,hunl]
    rfl
  · rw [hcount.mpr hd,← hsame]
    exact Finset.card_le_card (voters_subset_trusted me pos)

def masterKey : Bytes := 0xED::List.replicate 32 0x01

def ephemeralKey : Bytes := 0xED::List.replicate 32 0x02

def keySha : Sha512Half :=
  .ofTable [(masterKey,.ofNat 0xa0bbc29f38d6366447b307badae57bf144063c2c42aa14c000cbef1d8422246c),
    (ephemeralKey,.ofNat 0x67884b9f4cecad632e192c5197f20b8b14d4dd69fba0caa9ad8f0e9c6c10ce97)]

def masterId : NodeId := .fromPublicKey keySha masterKey

def ephemeralId : NodeId := .fromPublicKey keySha ephemeralKey

/-- A round of the node `node` with the given UNL, in which one validator has registered an
ephemeral key, after a proposal under each of the given ids. -/
def validatorRound (trusted : Finset NodeId) (node : NodeId) (ids : List NodeId) : Engine :=
  run keySha (new node [] .default (.new trusted))
    (.changeUnl (.registerEphemeralKey masterKey ephemeralKey none)::sampleOpening 100 130 ++
      ids.map fun id => .peerProposal sampleEnv (sampleProposal id 130) 130)

def oneValidatorRound : NodeId → List NodeId → Engine := validatorRound {masterId}

/-- The one trusted validator has two votes: by a proposal under each of its ids, or by our own
vote and an echo of our proposal. -/
theorem one_validator_votes_twice :
    (oneValidatorRound ⟨.ofNat 1⟩ [masterId,ephemeralId]).phase=.establish ∧
      (oneValidatorRound ⟨.ofNat 1⟩ [masterId,ephemeralId]).unl.trusted.card=1 ∧
      ((oneValidatorRound ⟨.ofNat 1⟩ [masterId,ephemeralId]).reposition keySha
        sampleEnv).quorumVotes keySha
        (sampleProposal ⟨.ofNat 1⟩ 130)=2 ∧
      ((oneValidatorRound masterId [masterId]).reposition keySha sampleEnv).quorumVotes keySha
        (sampleProposal masterId 130)=2 := by
  decide

/-- Our own round with three other validators, one of which proposes under its ephemeral key. -/
def fourValidatorRound : Engine :=
  (validatorRound {masterId,⟨.ofNat 1⟩,⟨.ofNat 2⟩,⟨.ofNat 3⟩} ⟨.ofNat 1⟩
    [ephemeralId,⟨.ofNat 2⟩,⟨.ofNat 3⟩]).reposition keySha sampleEnv

theorem four_validators_vote_once :
    fourValidatorRound.quorumVotes keySha (sampleProposal ⟨.ofNat 1⟩ 130)=4 ∧
      (fourValidatorRound.voters keySha ⟨.ofNat 1⟩ (sampleProposal ⟨.ofNat 1⟩ 130)).card=4 := by
  have hdistinct :
      fourValidatorRound.DistinctVoters keySha ⟨.ofNat 1⟩ (sampleProposal ⟨.ofNat 1⟩ 130) :=
    ⟨by decide,by decide⟩
  have hvotes : fourValidatorRound.quorumVotes keySha (sampleProposal ⟨.ofNat 1⟩ 130)=4 := by decide
  exact ⟨hvotes,
    ((quorum_votes_count_validators_iff ⟨_,_,_,_,_,rfl⟩ (by decide) (by decide) sampleEnv
    ⟨.ofNat 1⟩ (sampleProposal ⟨.ofNat 1⟩ 130)).2.mpr hdistinct).1.symm.trans hvotes⟩

/-! ## Trusted proposals -/

/-- A fresh trusted proposal on our parent that advances its sender's position is stored exactly
if the sender has a stored position already or fewer than 16 senders have one. -/
theorem trusted_proposal_stored_iff (h : Reachable sha e) (hphase : e.phase=.establish) (env : Env)
    (p : Proposal) (now : ℕ) (htrusted : e.unl.isTrusted p.nodeId=true)
    (hfresh : absDiff now p.closeTime ≤ proposalFreshnessSecs) (hprev : p.prevLedger=e.prevLedger)
    (hseq : ∀ pos, e.ourPosition=some pos → p.ledgerSeq=0 ∨ p.ledgerSeq=pos.ledgerSeq)
    (hnew : ∀ q, e.peerPositions.lookup p.nodeId=some q → q.propSeq < p.propSeq) :
    (e.peerProposalAt env p now).peerPositions.lookup p.nodeId=some p ↔
      p.nodeId∈e.peerPositions ∨ e.peerPositions.entries.length < maxProposalsPerPrev := by
  have hqual : e.Qualifies p now := by
    refine ⟨hphase,by simp [untrusted,htrusted],by simpa [stale] using hfresh,hprev,?_⟩
    unfold seqMismatch
    split
    · rename_i pos hpos
      rcases hseq pos hpos with h0 | h0 <;> simp [h0]
    · rfl
  have hcore : (e.peerProposalAt env p now).core=e.core.track p := by
    rcases core_peerProposalAt env e p now with ⟨-,hc⟩ | ⟨hn,-⟩
    · exact hc
    · exact absurd hqual hn
  have hinv := h.inv
  have hlookup : e.proposalTracker.get p.nodeId p.prevLedger=e.peerPositions.lookup p.nodeId := by
    rw [hprev]
    exact (hinv.lockstep p.nodeId).symm
  have haccepts : e.proposalTracker.Accepts p ↔
      p.nodeId∈e.peerPositions ∨ e.peerPositions.entries.length < maxProposalsPerPrev := by
    rw [ProposalTracker.Accepts,hlookup,← AList.lookup_isSome,
      show e.peerPositions.entries.length=e.proposalTracker.proposals.entries.length
        from hinv.length_eq]
    cases hk : e.peerPositions.lookup p.nodeId with
    | some q => simp [hnew q hk]
    | none => simp
  have hpeers := congrArg Core.peerPositions hcore
  change (e.peerProposalAt env p now).peerPositions=if (e.proposalTracker.track p).2 then
    e.peerPositions.insert p.nodeId p else e.peerPositions at hpeers
  rw [hpeers,← haccepts]
  rcases hinv.anchored.track_eq hprev with ⟨hacc,hb,-,-⟩ | ⟨hacc,hb,-,-⟩
  · rw [show (e.proposalTracker.track p).2=true from hb]
    simpa using show e.proposalTracker.Accepts p from hacc
  rw [show (e.proposalTracker.track p).2=false from hb]
  refine iff_of_false ?_ hacc
  intro hsome
  -- a position equal to the proposal would not have been older than it
  exact Nat.lt_irrefl _ (hnew p (by simpa using hsome))

/-- A round with 17 trusted validators, after the proposals of the first `n` of them. -/
def crowdedRound (n : ℕ) : Engine :=
  run (.ofTable [])
    (new ⟨.ofNat 100⟩ [] .default (.new ((List.range 17).map fun i => ⟨.ofNat i⟩).toFinset))
    (sampleOpening 100 130++(List.range n).map fun i =>
      .peerProposal sampleEnv (sampleProposal ⟨.ofNat i⟩ 130) 130)

theorem crowded_round_drops_proposal :
    (crowdedRound 16).phase=.establish ∧ (crowdedRound 16).unl.isTrusted ⟨.ofNat 16⟩=true ∧
      (crowdedRound 16).prevLedger=.zero ∧ (crowdedRound 16).peerPositions.lookup ⟨.ofNat 16⟩=none ∧
      ((crowdedRound 16).peerProposalAt sampleEnv (sampleProposal ⟨.ofNat 16⟩ 130)
        130).peerPositions.lookup
        ⟨.ofNat 16⟩=none := by
  decide +kernel

/-- Five positions are stored, and a sixth trusted validator proposes. -/
theorem sixth_trusted_proposal_stored :
    ((crowdedRound 5).peerProposalAt sampleEnv (sampleProposal ⟨.ofNat 8⟩ 130)
      130).peerPositions.lookup ⟨.ofNat 8⟩=some (sampleProposal ⟨.ofNat 8⟩ 130) := by
  have hnone : (crowdedRound 5).peerPositions.lookup
    (sampleProposal ⟨.ofNat 8⟩ 130).nodeId=none := by
    decide +kernel
  have hposition : (crowdedRound 5).ourPosition=some (sampleProposal ⟨.ofNat 100⟩ 130) := by
    decide +kernel
  exact (trusted_proposal_stored_iff (e := crowdedRound 5) ⟨_,_,_,_,_,rfl⟩ (by decide +kernel)
    sampleEnv (sampleProposal ⟨.ofNat 8⟩ 130) 130 (by decide +kernel) (by decide +kernel)
    (by decide +kernel) (fun pos hpos => by rw [hposition] at hpos; cases hpos; exact .inr rfl)
    (fun q hq => by rw [hnone] at hq; cases hq)).mpr (.inr (by decide +kernel))

end Engine

end Rxrpl.Consensus
