import Rxrpl.ConsensusSafety
import Rxrpl.Newest

/-!
# The buffers for proposals

Proposals that come before their time are kept in `pending_proposals` if they are on our parent, and
else in the holding pen `future_proposals`. The pen and the tracker keep to their caps in every
state. The pending buffer checks its cap where a proposal comes in, but takes over what the pen
holds for a new parent without a check. The full pen drops its oldest entry also for a node that is
in it, and replaces the entry of a node whatever its `prop_seq`.
-/

namespace Rxrpl.Consensus

open HashMap
open List hiding length_insert_of_mem

/-- What is left of the entries for one parent when room is made for one more. -/
def trimmed (held : List Proposal) : List Proposal :=
  if held.length ≥ futureProposalsMaxPerKey then held.tail else held

/-- The entries of the pen for one parent after a proposal on it. -/
def penAfter (held : List Proposal) (p : Proposal) : List Proposal :=
  (trimmed held).filter (fun q => q.nodeId≠p.nodeId)++[p]

namespace Engine

variable {sha : Sha512Half} {e : Engine}

def held (e : Engine) (prev : Hash256) : List Proposal := (e.futureProposals.lookup prev).getD []

/-- A proposal goes into the pen, and one parent goes out if there are too many. -/
theorem holdFutureProposal_cases (o : IterOrder) (e : Engine) (p : Proposal) :
    ∃ future, future=e.futureProposals.insert p.prevLedger (penAfter (e.held p.prevLedger) p) ∧
      (future.entries.length ≤ futureProposalsMaxKeys ∧
        (e.holdFutureProposal o p).futureProposals=future ∨
        futureProposalsMaxKeys < future.entries.length ∧
          ∃ x∈future.entries, (e.holdFutureProposal o p).futureProposals=future.erase x.1) := by
  refine ⟨_,rfl,?_⟩
  obtain hfull | hfits := lt_or_ge futureProposalsMaxKeys
    (e.futureProposals.insert p.prevLedger (penAfter (e.held p.prevLedger) p)).entries.length
  · refine .inr ⟨hfull,?_⟩
    rw [show (e.holdFutureProposal o p).futureProposals=_ from if_pos hfull]
    generalize hvictim : argmin (fun x : Σ _ : Hash256,List Proposal =>
      ((x.2.map (·.ledgerSeq)).min?).getD u32Max) _=victim
    cases victim with
    | some victim => exact ⟨victim,(o.perm _).mem_iff.mp (argmin_mem hvictim),rfl⟩
    | none =>
      have hempty := congrArg length (argmin_eq_none.mp hvictim)
      rw [(o.perm _).length_eq] at hempty
      exact absurd hempty (Nat.ne_of_gt (Nat.zero_lt_of_lt hfull))
  · exact .inl ⟨hfits,if_neg (not_lt.mpr hfits)⟩

/-! ## Caps -/

structure FutureBounded (future : HashMap Hash256 (List Proposal)) : Prop where
  keys : future.entries.length ≤ futureProposalsMaxKeys
  perKey : ∀ prev held, future.lookup prev=some held → held.length ≤ futureProposalsMaxPerKey

theorem FutureBounded.held_length_le (h : FutureBounded e.futureProposals) (prev : Hash256) :
    (e.held prev).length ≤ futureProposalsMaxPerKey := by
  rw [held]
  cases hlookup : e.futureProposals.lookup prev with
  | none => simp
  | some held => exact h.perKey prev held hlookup

theorem length_penAfter_le {held : List Proposal} (h : held.length ≤ futureProposalsMaxPerKey)
    (p : Proposal) : (penAfter held p).length ≤ futureProposalsMaxPerKey := by
  have hroom : (trimmed held).length < futureProposalsMaxPerKey := by
    rw [trimmed]
    split
    · rw [length_tail,futureProposalsMaxPerKey] at *
      omega
    · exact not_le.mp ‹_›
  rw [penAfter,length_append,length_singleton]
  exact (Nat.add_le_add_right (length_filter_le _ _) 1).trans hroom

theorem FutureBounded.hold (h : FutureBounded e.futureProposals) (o : IterOrder) (p : Proposal) :
    FutureBounded (e.holdFutureProposal o p).futureProposals := by
  obtain ⟨future,hfuture,hcases⟩ := holdFutureProposal_cases o e p
  have hperKey : ∀ prev held, future.lookup prev=some held →
    held.length ≤ futureProposalsMaxPerKey := by
    intro prev held hheld
    rw [hfuture,lookup_insert_eq] at hheld
    split at hheld
    · cases hheld
      exact length_penAfter_le (h.held_length_le _) p
    · exact h.perKey prev held hheld
  obtain ⟨hroom,heq⟩ | ⟨hfull,x,hx,heq⟩ := hcases <;> rw [heq]
  · exact ⟨hroom,hperKey⟩
  refine ⟨?_,fun prev held hheld => ?_⟩
  · have hle : future.entries.length ≤ futureProposalsMaxKeys+1 := by
      have := h.keys
      rw [hfuture]
      by_cases hmem : p.prevLedger∈e.futureProposals
      · rw [length_insert_of_mem hmem]
        omega
      · rw [length_insert_of_notMem hmem]
        omega
    rw [(entries_perm_cons_erase (mem_entries_iff.mp hx)).length_eq,length_cons] at hle
    omega
  · rw [lookup_erase_eq] at hheld
    split_ifs at hheld
    exact hperKey prev held hheld

theorem FutureBounded.startRound (h : FutureBounded e.futureProposals) (prev : Hash256)
    (seq prior : ℕ) : FutureBounded (e.startRoundWithPrior prev seq prior).futureProposals := by
  refine ⟨?_,fun prev' held hheld => ?_⟩
  · exact (length_filterMap_le _ _).trans ((kerase_sublist ..).length_le.trans h.keys)
  · obtain ⟨props,hprops,hkept⟩ := mem_filterMap_entries.mp (mem_entries_iff.mpr hheld)
    rw [mem_entries_iff,lookup_erase_eq] at hprops
    split at hprops
    · cases hprops
    dsimp only at hkept
    split at hkept
    · cases hkept
    cases hkept
    exact (length_filter_le _ _).trans (h.perKey prev' props hprops)

/-- A proposal goes into the pen, or into the pending buffer if that has room, or neither. -/
theorem buffers_peerProposalAt (env : Env) (e : Engine) (p : Proposal) (now : ℕ) :
    ((e.peerProposalAt env p now).futureProposals=e.futureProposals ∨
      (e.peerProposalAt env p now).futureProposals=(e.holdFutureProposal env.iter
        p).futureProposals) ∧
    ((e.peerProposalAt env p now).pendingProposals=e.pendingProposals ∨ e.phase≠.establish ∧
      e.pendingProposals.length < pendingProposalsMax ∧
      (e.peerProposalAt env p now).pendingProposals=e.pendingProposals++[p]) := by
  have hadmit : ∀ e : Engine, (e.admitProposal env p).futureProposals=e.futureProposals ∧
      (e.admitProposal env p).pendingProposals=e.pendingProposals := by
    intro e
    unfold admitProposal
    dsimp only
    split
    · obtain ⟨_,_,h⟩ := createDisputes_eq env { e with
        proposalTracker := (e.proposalTracker.track p).1, peerPositions :=
          e.peerPositions.insert p.nodeId p }
      rw [h]
      exact ⟨rfl,rfl⟩
    · exact ⟨rfl,rfl⟩
  unfold peerProposalAt
  dsimp only
  split
  · rename_i hphase
    unfold bufferProposal
    repeat' split
    any_goals exact ⟨.inl rfl,.inl rfl⟩
    exact ⟨.inl rfl,.inr ⟨hphase,not_le.mp ‹_›,rfl⟩⟩
  · repeat' split
    any_goals exact ⟨.inl rfl,.inl rfl⟩
    · exact ⟨.inr rfl,.inl rfl⟩
    · obtain ⟨hfuture,hpending⟩ := hadmit (e.observe p)
      exact ⟨.inl hfuture,.inl hpending⟩

theorem FutureBounded.peerProposalAt (h : FutureBounded e.futureProposals) (env : Env)
    (p : Proposal) (now : ℕ) : FutureBounded (e.peerProposalAt env p now).futureProposals := by
  obtain ⟨heq | heq,-⟩ := buffers_peerProposalAt env e p now <;> rw [heq]
  · exact h
  · exact h.hold env.iter p

/-- In the establish phase `peer_proposal_at` leaves the phase and the pending buffer alone. -/
theorem buffers_replay (env : Env) (now : ℕ) (proposals : List Proposal)
    (hphase : e.phase=.establish) (h : FutureBounded e.futureProposals)
    (hpending : e.pendingProposals=[]) :
    FutureBounded (proposals.foldl (fun e p => e.peerProposalAt env p now) e).futureProposals ∧
      (proposals.foldl (fun e p => e.peerProposalAt env p now) e).pendingProposals=[] := by
  induction proposals generalizing e with
  | nil => exact ⟨h,hpending⟩
  | cons p proposals ih =>
    refine ih ?_ (h.peerProposalAt env p now) ?_
    · obtain ⟨-,hcore⟩ | ⟨-,hcore⟩ :=
        core_peerProposalAt env e p now <;> exact (congrArg Core.phase hcore).trans hphase
    · obtain ⟨-,heq | ⟨hopen,-⟩⟩ := buffers_peerProposalAt env e p now
      · rw [heq,hpending]
      · exact absurd hphase hopen

theorem buffers_converge (sha : Sha512Half) (env : Env) (e : Engine) :
    (e.converge sha env).1.futureProposals=e.futureProposals ∧
      (e.converge sha env).1.pendingProposals=e.pendingProposals := by
  obtain ⟨-,h⟩ | ⟨-,_,_,_,_,_,_,_,h⟩ := e.converge_eq sha env
  · rw [h]
    exact ⟨rfl,rfl⟩
  · obtain ⟨_,_,_,_,hpos⟩ := e.reposition_eq sha env
    rw [h,hpos]
    exact ⟨rfl,rfl⟩

/-- What one call does to the two buffers: the pen keeps to its caps, and the pending buffer grows
past its cap only where a round starts. -/
theorem buffers_step (h : FutureBounded e.futureProposals) (event : Event) :
    FutureBounded (e.step sha event).futureProposals ∧
      ((∃ prev seq prior, event=.startRound prev seq prior) ∨
      (e.pendingProposals.length ≤ pendingProposalsMax →
        (e.step sha event).pendingProposals.length ≤ pendingProposalsMax)) := by
  cases event with
  | startRound prev seq prior => exact ⟨h.startRound prev seq prior,.inl ⟨prev,seq,prior,rfl⟩⟩
  | closeLedger env set t seq =>
    simp only [step,closeLedger]
    split
    · exact ⟨h,.inr id⟩
    · obtain ⟨hfuture,hpending⟩ :=
        buffers_replay env t e.pendingProposals (e := e.establish env set t seq) rfl h rfl
      exact ⟨hfuture,.inr fun _ => by simp [hpending]⟩
  | peerProposal env p now =>
    refine ⟨h.peerProposalAt env p now,.inr fun hle => ?_⟩
    simp only [step]
    obtain ⟨-,heq | ⟨-,hroom,heq⟩⟩ := buffers_peerProposalAt env e p now <;> rw [heq]
    · exact hle
    · rwa [length_append]
  | converge env =>
    simp only [step,buffers_converge]
    exact ⟨h,.inr id⟩
  | setTrustedMasterKeys keys =>
    simp only [step,setTrustedMasterKeys]
    split <;> exact ⟨h,.inr id⟩
  | setSelfTrusted _ | changeUnl _ => exact ⟨h,.inr id⟩

theorem Reachable.futureBounded (h : Reachable sha e) : FutureBounded e.futureProposals :=
  h.induction (P := fun e => FutureBounded e.futureProposals)
    (fun _ _ _ _ => ⟨by simp [new],by simp [new]⟩)
    fun _ event h => (buffers_step h event).1

structure BuffersBounded (e : Engine) : Prop where
  pending : e.pendingProposals.length ≤ pendingProposalsMax
  future : FutureBounded e.futureProposals
  parents : e.proposalTracker.prevLedgerOrder.length ≤ maxDistinctPrevLedgers
  perParent : ∀ prev, e.proposalTracker.countFor prev ≤ maxProposalsPerPrev
  total : e.proposalTracker.proposals.entries.length ≤ maxDistinctPrevLedgers*maxProposalsPerPrev

theorem BuffersBounded.of_pending (h : Reachable sha e)
    (hpending : e.pendingProposals.length ≤ pendingProposalsMax) : e.BuffersBounded := by
  have hcount : e.proposalTracker.proposals.entries.length ≤ maxProposalsPerPrev :=
    h.inv.length_eq ▸ h.inv.length_le
  refine ⟨hpending,h.futureBounded,?_,fun prev => ?_,?_⟩
  · obtain ⟨horder,-⟩ | horder := h.inv.anchored.order_eq <;>
      simp [show e.proposalTracker.prevLedgerOrder=_ from horder,maxDistinctPrevLedgers]
  · refine (length_filter_le _ _).trans (le_trans (le_of_eq ?_) hcount)
    simp [AList.keys,keys]
  · exact hcount.trans (by decide)

/-- Along every run the buffers and the tracker keep to their caps exactly if each new round finds
room in the pending buffer for what the pen holds for its parent. -/
theorem buffers_bounded_iff (sha : Sha512Half) (nodeId : NodeId) (publicKey : Bytes)
    (params : ConsensusParams) (unl : TrustedValidatorList) (events : List Event) :
    (∀ n, (run sha (new nodeId publicKey params unl) (events.take n)).BuffersBounded) ↔
      ∀ n prev seq prior, events[n]?=some (.startRound prev seq prior) →
        (run sha (new nodeId publicKey params unl) (events.take n)).pendingProposals.length +
          ((run sha (new nodeId publicKey params unl) (events.take n)).held
            prev).length ≤ pendingProposalsMax := by
  have hreachable : ∀ n, Reachable sha
    (run sha (new nodeId publicKey params unl) (events.take n)) :=
    fun n => ⟨_,_,_,_,_,rfl⟩
  have hnew : (new nodeId publicKey params unl).pendingProposals=[] := rfl
  generalize new nodeId publicKey params unl=start at hreachable hnew ⊢
  have hnext : ∀ n event, events[n]?=some event →
      run sha start (events.take (n+1))=(run sha start (events.take n)).step sha event := by
    intro n event hevent
    rw [take_add_one,hevent,run,foldl_append]
    rfl
  constructor
  · intro h n prev seq prior hevent
    have hpending := (h (n+1)).pending
    rw [hnext n _ hevent] at hpending
    exact length_append.symm.trans_le hpending
  · intro h n
    refine .of_pending (hreachable n) ?_
    induction n with
    | zero => simp [run,hnew]
    | succ n ih =>
      cases hevent : events[n]? with
      | none => rwa [take_add_one,hevent,Option.toList_none,append_nil]
      | some event =>
        rw [hnext n event hevent]
        obtain ⟨-,⟨prev,seq,prior,rfl⟩ | hkept⟩ := buffers_step (hreachable n).futureBounded event
        · exact length_append.trans_le (h n prev seq prior hevent)
        · exact hkept ih

theorem run_flood {p : Proposal} {now : ℕ} (env : Env) (n : ℕ) (hphase : e.phase≠.establish)
    (htrusted : e.untrusted p=false) (hfresh : stale p now=false)
    (hroom : e.pendingProposals.length+n ≤ pendingProposalsMax) : (run sha e
      (replicate n (.peerProposal env p now))).pendingProposals.length=e.pendingProposals.length+n ∧
      (run sha e (replicate n (.peerProposal env p now))).futureProposals=e.futureProposals := by
  induction n generalizing e with
  | zero => exact ⟨rfl,rfl⟩
  | succ n ih =>
    have hstep : e.step sha (.peerProposal env p now) =
        { e.observe p with pendingProposals := e.pendingProposals++[p] } := by
      have hphase' : (e.observe p).phase≠.establish := hphase
      have htrusted' : (e.observe p).untrusted p=false := htrusted
      have hroom' : ¬ (e.observe p).pendingProposals.length ≥ pendingProposalsMax := by
        change ¬ e.pendingProposals.length ≥ pendingProposalsMax
        omega
      simp only [step,peerProposalAt,bufferProposal,htrusted',hfresh,if_pos hphase',if_neg hroom']
      rfl
    rw [replicate_succ,run,foldl_cons,hstep]
    obtain ⟨hlength,hfuture⟩ :=
      ih (e := { e.observe p with pendingProposals := e.pendingProposals++[p] }) hphase htrusted
      (by simp; omega)
    exact ⟨hlength.trans (by simp; omega),hfuture⟩

/-- A round that starts after one proposal was held for another parent. -/
def heldRound : Engine :=
  run (.ofTable []) (new ⟨.ofNat 1⟩ [] .default (.new ∅)) (sampleOpening 0 100 ++
    [.peerProposal sampleEnv { sampleProposal ⟨.ofNat 2⟩ 100 with prevLedger := .ofNat 1 } 100,
      .startRound .zero 2 0])

/-- A full buffer takes over the held proposal. -/
theorem flooded_round_overfull :
    (run (.ofTable []) heldRound
      (List.replicate 1024 (.peerProposal sampleEnv (sampleProposal ⟨.ofNat 2⟩ 100) 100) ++
      [.startRound (.ofNat 1) 3 0])).pendingProposals.length=pendingProposalsMax+1 := by
  obtain ⟨hlength,hfuture⟩ := @run_flood (.ofTable []) heldRound (sampleProposal ⟨.ofNat 2⟩ 100) 100
    sampleEnv 1024
    (by decide) (by decide) (by decide) (by decide)
  generalize replicate 1024 _=flood at hlength hfuture ⊢
  rw [run] at hlength hfuture
  rw [run,foldl_append]
  refine length_append.trans ?_
  rw [hlength,hfuture]
  decide

/-! ## The newest position of each node -/

end Engine

/-- The entries of the pen for one parent after the proposals on it. -/
def pen (arrivals : List Proposal) : List Proposal := arrivals.foldl penAfter []

/-- The last proposal of each node, in the order in which they came. -/
def lastOfEach (arrivals : List Proposal) : List Proposal :=
  arrivals.foldl (fun last p => last.filter (fun q => q.nodeId≠p.nodeId)++[p]) []

def nodes (arrivals : List Proposal) : Finset NodeId := (arrivals.map (·.nodeId)).toFinset

section

variable {arrivals : List Proposal} {p q : Proposal}

theorem pen_concat (arrivals : List Proposal) (p : Proposal) :
    pen (arrivals++[p])=penAfter (pen arrivals) p := by
  rw [pen,foldl_append]
  rfl

theorem lastOfEach_concat (arrivals : List Proposal) (p : Proposal) :
    lastOfEach (arrivals++[p])=(lastOfEach arrivals).filter (fun q => q.nodeId≠p.nodeId)++[p] := by
  rw [lastOfEach,foldl_append]
  rfl

theorem lastOfEach_pairwise (arrivals : List Proposal) : (lastOfEach arrivals).Pairwise fun p q =>
    p.nodeId≠q.nodeId := by
  induction arrivals using reverseRecOn with
  | nil => exact .nil
  | append_singleton arrivals p ih =>
    rw [lastOfEach_concat]
    refine pairwise_append.mpr ⟨ih.filter _,pairwise_singleton ..,fun q hq r hr => ?_⟩
    rw [mem_singleton.mp hr]
    simpa using (mem_filter.mp hq).2

theorem nodes_lastOfEach (arrivals : List Proposal) :
    nodes (lastOfEach arrivals)=nodes arrivals := by
  induction arrivals using reverseRecOn with
  | nil => rfl
  | append_singleton arrivals p ih =>
    rw [lastOfEach_concat]
    ext n
    have hn := Finset.ext_iff.mp ih n
    simp only [nodes,mem_toFinset,mem_map,mem_append,mem_filter] at hn ⊢
    by_cases hp : n=p.nodeId
    · exact iff_of_true ⟨p,by simp,hp.symm⟩ ⟨p,by simp,hp.symm⟩
    · grind

theorem length_lastOfEach (arrivals : List Proposal) :
    (lastOfEach arrivals).length=(nodes arrivals).card := by
  have hnodup : ((lastOfEach arrivals).map (·.nodeId)).Nodup :=
    pairwise_map.mpr (lastOfEach_pairwise arrivals)
  rw [← nodes_lastOfEach,nodes,toFinset_card_of_nodup hnodup,length_map]

theorem nodes_subset_concat (arrivals : List Proposal) (p : Proposal) :
    nodes arrivals⊆nodes (arrivals++[p]) := by
  intro n hn
  simp only [nodes,map_append,mem_toFinset,mem_append] at hn ⊢
  exact .inl hn

/-- The node that has been silent longest. -/
def silentLongest (arrivals : List Proposal) : Option NodeId :=
    (lastOfEach arrivals).head?.map (·.nodeId)

/-- When sixteen nodes have been heard, the pen stays complete exactly if the one that was silent
longest speaks. -/
theorem pen_concat_cases (htrim : trimmed (pen arrivals)=trimmed (lastOfEach arrivals))
    (h : (nodes (arrivals++[p])).card ≤ futureProposalsMaxPerKey) :
      pen (arrivals++[p])=lastOfEach (arrivals++[p]) ∧
      ((lastOfEach arrivals).length=futureProposalsMaxPerKey →
        silentLongest arrivals=some p.nodeId) ∨
    pen (arrivals++[p])=(lastOfEach (arrivals++[p])).tail ∧
      (lastOfEach (arrivals++[p])).length=futureProposalsMaxPerKey ∧
      ¬ ((lastOfEach arrivals).length=futureProposalsMaxPerKey →
        silentLongest arrivals=some p.nodeId) := by
  have hcard := Finset.card_le_card (nodes_subset_concat arrivals p)
  rw [← length_lastOfEach] at h
  rw [← length_lastOfEach,← length_lastOfEach] at hcard
  have hpen : pen (arrivals++[p])=(trimmed (lastOfEach arrivals)).filter
    (fun q => q.nodeId≠p.nodeId)++[p] := by
    rw [pen_concat,← htrim]
    rfl
  rw [hpen,trimmed]
  by_cases hfull : (lastOfEach arrivals).length ≥ futureProposalsMaxPerKey
  · have hlength : (lastOfEach arrivals).length=futureProposalsMaxPerKey :=
      le_antisymm (hcard.trans h) hfull
    rw [if_pos hfull,silentLongest,lastOfEach_concat] at *
    cases hlast : lastOfEach arrivals with
    | nil =>
      rw [hlast] at hlength
      cases hlength
    | cons first rest =>
      by_cases hfirst : first.nodeId=p.nodeId
      · left
        simp [hfirst]
      · right
        rw [hlast] at hlength hcard h
        refine ⟨by simp [hfirst],le_antisymm h (hlength ▸ hcard),fun hsilent => hfirst ?_⟩
        simpa using hsilent hlength
  · rw [if_neg hfull,lastOfEach_concat]
    exact .inl ⟨rfl,fun hlength => absurd hlength.ge hfull⟩

theorem trimmed_pen (h : (nodes arrivals).card ≤ futureProposalsMaxPerKey) :
    trimmed (pen arrivals)=trimmed (lastOfEach arrivals) := by
  induction arrivals using reverseRecOn with
  | nil => rfl
  | append_singleton arrivals p ih =>
    have hcard := Finset.card_le_card (nodes_subset_concat arrivals p)
    obtain ⟨hpen,-⟩ | ⟨hpen,hlength,-⟩ := pen_concat_cases (ih (hcard.trans h)) h
    · rw [hpen]
    · rw [hpen,trimmed,trimmed,if_neg,if_pos hlength.ge]
      rw [length_tail,hlength,futureProposalsMaxPerKey]
      omega

theorem filter_node_eq {l : List Proposal} (hl : l.Pairwise fun p q => p.nodeId≠q.nodeId)
    (hq : q∈l) : l.filter (fun r => r.nodeId=q.nodeId)=[q] := by
  induction l with
  | nil => simp at hq
  | cons r l ih =>
    obtain ⟨hr,hl⟩ := pairwise_cons.mp hl
    obtain rfl | hq := mem_cons.mp hq
    · rw [filter_cons_of_pos (by simp),filter_eq_nil_iff.mpr fun x hx => by
        simpa using (hr x hx).symm]
    · rw [filter_cons_of_neg (by simpa using hr q hq),ih hl hq]

/-- The newest proposal of a node, the first of equal ones. -/
def newestFrom (n : NodeId) (arrivals : List Proposal) : Option Proposal :=
  Newest.newest (·.propSeq) (arrivals.filter fun p => p.nodeId=n)

theorem newestFrom_isSome {n : NodeId} (hn : n∈nodes arrivals) :
    (newestFrom n arrivals).isSome := by
  obtain ⟨p,hp,rfl⟩ := mem_map.mp (mem_toFinset.mp hn)
  obtain ⟨-,hnil⟩ | ⟨q,hq,-⟩ :=
    Newest.newest_spec (·.propSeq) (arrivals.filter fun q => q.nodeId=p.nodeId)
  · simpa using filter_eq_nil_iff.mp hnil p hp
  · rw [newestFrom,hq]
    rfl

/-- Each node that has been heard has one entry, its newest proposal. -/
def HoldsNewest (held arrivals : List Proposal) : Prop :=
  ∀ n∈nodes arrivals, held.filter (fun p => p.nodeId=n)=(newestFrom n arrivals).toList

/-- The last proposal of each node is its newest, and if sixteen nodes have been heard already, the
last proposal of all is of the node that was silent longest. -/
structure InOrder (arrivals : List Proposal) : Prop where
  newest_last : ∀ p∈lastOfEach arrivals, newestFrom p.nodeId arrivals=some p
  silent_speaks : ∀ before p, arrivals=before++[p] →
    (lastOfEach before).length=futureProposalsMaxPerKey →
    silentLongest before=some p.nodeId

theorem pen_holdsNewest_iff (h : (nodes arrivals).card ≤ futureProposalsMaxPerKey) :
    HoldsNewest (pen arrivals) arrivals ↔ InOrder arrivals := by
  obtain rfl | ⟨before,p,rfl⟩ := arrivals.eq_nil_or_concat'
  · exact iff_of_true (by simp [HoldsNewest,nodes]) ⟨by simp [lastOfEach],by simp⟩
  have hcard := Finset.card_le_card (nodes_subset_concat before p)
  have hpairwise := lastOfEach_pairwise (before++[p])
  have hmem : ∀ q∈lastOfEach (before++[p]), q.nodeId∈nodes (before++[p]) := by
    intro q hq
    rw [← nodes_lastOfEach]
    exact mem_toFinset.mpr (mem_map_of_mem hq)
  have hcases := pen_concat_cases (trimmed_pen (hcard.trans h)) h
  constructor
  · intro hholds
    obtain ⟨hpen,hsilent⟩ | ⟨hpen,hlength,-⟩ := hcases
    · refine ⟨fun q hq => ?_,fun before' p' heq => ?_⟩
      · have hone := hholds _ (hmem q hq)
        rw [hpen,filter_node_eq hpairwise hq] at hone
        cases hnewest : newestFrom q.nodeId (before++[p]) <;> simp_all
      · obtain ⟨rfl,hp⟩ := append_inj' heq rfl
        cases hp
        exact hsilent
    · -- the node whose entry was dropped has none
      cases hlast : lastOfEach (before++[p]) with
      | nil => simp [hlast,futureProposalsMaxPerKey] at hlength
      | cons first rest =>
        rw [hlast] at hpairwise hpen hmem
        have hnone := hholds _ (hmem first (by simp))
        rw [hpen,tail_cons,filter_eq_nil_iff.mpr fun x hx => by
          simpa using ((pairwise_cons.mp hpairwise).1 x hx).symm] at hnone
        have hsome := newestFrom_isSome (hmem first (by simp))
        rw [Option.toList_eq_nil_iff.mp hnone.symm] at hsome
        cases hsome
  · intro hin n hn
    obtain ⟨hpen,-⟩ | ⟨-,-,hsilent⟩ := hcases
    · rw [← nodes_lastOfEach] at hn
      obtain ⟨q,hq,rfl⟩ := mem_map.mp (mem_toFinset.mp hn)
      rw [hpen,filter_node_eq hpairwise hq,hin.newest_last q hq]
      rfl
    · exact absurd (hin.silent_speaks before p rfl) hsilent

end

namespace Engine

variable {e : Engine}

def holdAll (e : Engine) (calls : List (IterOrder × Proposal)) : Engine :=
  calls.foldl (fun e call => e.holdFutureProposal call.1 call.2) e

def arrivalsOn (prev : Hash256) (calls : List (IterOrder × Proposal)) : List Proposal :=
  (calls.map (·.2)).filter fun p => p.prevLedger=prev

theorem held_holdAll (he : e.futureProposals=∅) {calls : List (IterOrder × Proposal)}
    (hkeys : (calls.map (·.2.prevLedger)).toFinset.card ≤ futureProposalsMaxKeys) :
    (∀ k∈(e.holdAll calls).futureProposals, k∈calls.map (·.2.prevLedger)) ∧
      ∀ prev, (e.holdAll calls).held prev=pen (arrivalsOn prev calls) := by
  induction calls using reverseRecOn with
  | nil => exact ⟨by simp [holdAll,he],fun prev => by simp [holdAll,held,he,arrivalsOn,pen]⟩
  | append_singleton calls call ih =>
    have hsub :
      (calls.map (·.2.prevLedger)).toFinset⊆((calls++[call]).map (·.2.prevLedger)).toFinset := by
      intro k hk
      simp only [map_append,mem_toFinset,mem_append] at hk ⊢
      exact .inl hk
    obtain ⟨hmem,hheld⟩ := ih ((Finset.card_le_card hsub).trans hkeys)
    have hlast : e.holdAll (calls++[call])=(e.holdAll calls).holdFutureProposal call.1 call.2 := by
      rw [holdAll,foldl_append]
      rfl
    obtain ⟨future,hfuture,hcases⟩ := holdFutureProposal_cases call.1 (e.holdAll calls) call.2
    have hkeys' : ∀ k∈future, k∈(calls++[call]).map (·.2.prevLedger) := by
      intro k hk
      rw [hfuture,AList.mem_insert] at hk
      obtain rfl | hk := hk
      · simp
      · exact mem_toFinset.mp (hsub (mem_toFinset.mpr (hmem k hk)))
    have heq : (e.holdAll (calls++[call])).futureProposals=future := by
      rw [hlast]
      obtain ⟨-,heq⟩ | ⟨hfull,-⟩ := hcases
      · exact heq
      · exact absurd ((length_le_card fun k hk => mem_toFinset.mpr (hkeys' k hk)).trans hkeys)
          (not_le.mpr hfull)
    refine ⟨heq ▸ hkeys',fun prev => ?_⟩
    rw [held,heq,hfuture,lookup_insert_eq]
    by_cases hprev : prev=call.2.prevLedger
    · rw [if_pos hprev,hheld,← hprev]
      simp [arrivalsOn,hprev,pen_concat]
    · rw [if_neg hprev]
      have := hheld prev
      simp [arrivalsOn,Ne.symm hprev,held] at this ⊢
      exact this

/-- From an empty pen that sees at most 64 parents, the entries for a parent on which at most
sixteen nodes propose are the newest proposals of those nodes exactly if the proposals come in
order. -/
theorem held_newest_iff (he : e.futureProposals=∅) {calls : List (IterOrder × Proposal)}
    (hkeys : (calls.map (·.2.prevLedger)).toFinset.card ≤ futureProposalsMaxKeys) {prev : Hash256}
    (hnodes : (nodes (arrivalsOn prev calls)).card ≤ futureProposalsMaxPerKey) :
    HoldsNewest ((e.holdAll calls).held prev) (arrivalsOn prev calls) ↔
      InOrder (arrivalsOn prev calls) := by
  rw [(held_holdAll he hkeys).2]
  exact pen_holdsNewest_iff hnodes

def sampleCall (node propSeq : ℕ) : IterOrder × Proposal :=
  (.listed,{ sampleProposal ⟨.ofNat node⟩ 100 with propSeq := propSeq })

/-- Two nodes that take turns, with a third one on another parent. -/
def sampleTurns : List (IterOrder × Proposal) :=
  [sampleCall 2 0,sampleCall 3 4,(.listed,{ (sampleCall 4 9).2 with prevLedger := .ofNat 1 }),
    sampleCall 2 1,
    sampleCall 3 5,sampleCall 2 3]

theorem newest_of_two_nodes_held :
    HoldsNewest (((new ⟨.ofNat 1⟩ [] .default (.new ∅)).holdAll sampleTurns).held .zero)
      (arrivalsOn .zero sampleTurns) := by
  refine (held_newest_iff rfl (by decide) (by decide)).mpr ⟨by decide,fun before p heq hfull => ?_⟩
  have hbefore : before=(arrivalsOn .zero sampleTurns).dropLast := by
    rw [heq,dropLast_concat]
  rw [hbefore] at hfull
  exact absurd hfull (by decide)

/-- A proposal with a lower `prop_seq` that comes later replaces the newest one. -/
theorem older_proposal_replaces :
    ¬ HoldsNewest
      (((new ⟨.ofNat 1⟩ [] .default (.new ∅)).holdAll [sampleCall 2 5,sampleCall 2 3]).held .zero)
      (arrivalsOn .zero [sampleCall 2 5,sampleCall 2 3]) := by
  intro h
  have hnode := h ⟨.ofNat 2⟩ (by decide)
  revert hnode
  decide

end Engine

end Rxrpl.Consensus
