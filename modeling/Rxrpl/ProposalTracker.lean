import Rxrpl.ConsensusTypes

/-!
# The proposal tracker

`ProposalTracker` keeps the latest proposal of each node for each parent ledger, with caps
on the parents and on the nodes of one parent. The engine clears the tracker at the start
of a round, so there its entries all have one parent; `track_eq` says what a call does in
that case.
-/

namespace Rxrpl.Consensus

def maxDistinctPrevLedgers : ℕ := 64

def maxProposalsPerPrev : ℕ := 16

structure ProposalTracker where
  proposals : HashMap (NodeId × Hash256) Proposal
  prevLedgerOrder : List Hash256
  proposalsDroppedDedupTotal : ℕ

namespace ProposalTracker

def new : ProposalTracker := ⟨∅,[],0⟩

variable (t : ProposalTracker)

def get (node : NodeId) (prev : Hash256) : Option Proposal :=
    t.proposals.lookup (node,prev)

/-- `count_for`: the number of nodes with a proposal on `prev`. -/
def countFor (prev : Hash256) : ℕ :=
    (t.proposals.keys.filter fun k => k.2 == prev).length

/-- `track`: the tracker after a proposal and whether it was accepted. -/
def track (p : Proposal) : ProposalTracker × Bool :=
  let key := (p.nodeId,p.prevLedger)
  match t.proposals.lookup key with
  | some existing =>
    if existing.propSeq ≥ p.propSeq then
      ({ t with proposalsDroppedDedupTotal := wrap64 (t.proposalsDroppedDedupTotal+1) },false)
    else ({ t with proposals := t.proposals.insert key p },true)
  | none =>
    if p.prevLedger∈t.prevLedgerOrder then
      if t.countFor p.prevLedger ≥ maxProposalsPerPrev then (t,false)
      else ({ t with proposals := t.proposals.insert key p },true)
    else
      -- a new parent evicts the oldest one if the tracker is full
      let t := if t.prevLedgerOrder.length ≥ maxDistinctPrevLedgers then
          { t with proposals := t.proposals.retain fun k _ => k.2 != t.prevLedgerOrder.headD .zero
                   prevLedgerOrder := t.prevLedgerOrder.tail }
        else t
      ({ t with proposals := t.proposals.insert key p, prevLedgerOrder :=
        t.prevLedgerOrder++[p.prevLedger] },true)

def clearFor (prev : Hash256) : ProposalTracker :=
  { t with proposals := t.proposals.retain fun k _ => k.2 != prev
           prevLedgerOrder := t.prevLedgerOrder.filter (· != prev) }

/-- All entries are for the parent `prev`. -/
structure Anchored (t : ProposalTracker) (prev : Hash256) : Prop where
  prev_eq : ∀ key∈t.proposals, key.2=prev
  order_eq : t.prevLedgerOrder=[] ∧ t.proposals.entries=[] ∨ t.prevLedgerOrder=[prev]

variable {t : ProposalTracker} {prev : Hash256}

theorem Anchored.countFor_eq (h : Anchored t prev) :
    t.countFor prev=t.proposals.entries.length := by
  have hall : ∀ k∈t.proposals.keys, (k.2 == prev)=true := by
    intro k hk
    simpa using h.prev_eq k (AList.mem_keys.mpr hk)
  rw [countFor,List.filter_eq_self.mpr hall]
  simp [AList.keys,List.keys]

theorem Anchored.clearFor (h : Anchored t prev) :
    (t.clearFor prev).proposals=∅ ∧ (t.clearFor prev).prevLedgerOrder=[] := by
  constructor
  · apply AList.ext
    refine List.filter_eq_nil_iff.mpr ?_
    rintro ⟨k,p⟩ he
    have hk : k∈t.proposals := AList.mem_keys.mpr (List.mem_keys_of_mem he)
    simp [h.prev_eq k hk]
  · rcases h.order_eq with ⟨ho,-⟩ | ho <;> simp [ProposalTracker.clearFor,ho]

/-- Whether the tracker takes a proposal: one of a known node if its `prop_seq` is new, one of
a new node if there is room. -/
def Accepts (p : Proposal) : Prop :=
  match t.get p.nodeId p.prevLedger with
  | some existing => existing.propSeq < p.propSeq
  | none => t.proposals.entries.length < maxProposalsPerPrev

theorem Anchored.track_eq (h : Anchored t prev) {p : Proposal} (hp : p.prevLedger=prev) :
    (t.Accepts p ∧ (t.track p).2=true ∧
      (t.track p).1.proposals=t.proposals.insert (p.nodeId,prev) p ∧
      (t.track p).1.prevLedgerOrder=[prev]) ∨
    (¬ t.Accepts p ∧ (t.track p).2=false ∧ (t.track p).1.proposals=t.proposals ∧
      (t.track p).1.prevLedgerOrder=t.prevLedgerOrder) := by
  subst hp
  simp only [Accepts,get,track]
  cases hk : t.proposals.lookup (p.nodeId,p.prevLedger) with
  | some existing =>
    have horder : t.prevLedgerOrder=[p.prevLedger] := by
      rcases h.order_eq with ⟨-,he⟩ | ho
      · have := HashMap.mem_entries_iff.mpr hk
        rw [he] at this
        cases this
      · exact ho
    by_cases hseq : existing.propSeq < p.propSeq
    · left; simp [hseq,Nat.not_le.mpr hseq,horder]
    · right; simp [hseq,Nat.not_lt.mp hseq]
  | none =>
    rcases h.order_eq with ⟨ho,he⟩ | ho
    · left; simp [ho,he,maxProposalsPerPrev,maxDistinctPrevLedgers]
    · by_cases hroom : t.proposals.entries.length < maxProposalsPerPrev
      · left; simp [ho,h.countFor_eq,hroom,Nat.not_le.mpr hroom]
      · right; simp [ho,h.countFor_eq,hroom,Nat.not_lt.mp hroom]

theorem Anchored.track (h : Anchored t prev) {p : Proposal} (hp : p.prevLedger=prev) :
    Anchored (t.track p).1 prev := by
  rcases h.track_eq hp with ⟨-,-,hprop,horder⟩ | ⟨-,-,hprop,horder⟩
  · refine ⟨?_,.inr horder⟩
    intro key hkey
    rw [hprop,AList.mem_insert] at hkey
    rcases hkey with rfl | hkey
    · rfl
    · exact h.prev_eq key hkey
  · exact ⟨by rw [hprop]; exact h.prev_eq,by rw [hprop,horder]; exact h.order_eq⟩

end ProposalTracker

end Rxrpl.Consensus
