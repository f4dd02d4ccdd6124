import Rxrpl.ConsensusSafety

/-!
# Detecting a wrong parent

`check_wrong_prev_ledger` compares the trusted peers that propose on another parent with those that
have a position on ours. The two are kept in maps that are filled on different paths of
`peer_proposal_at`, and nothing is taken out of either within a round: a peer that changes its
parent is in both.
-/

namespace Rxrpl.Consensus

open HashMap
open List hiding set

def wrongPrevLedgerThreshold : ℕ := 60

structure WrongPrevLedgerDetected where
  preferredLedger : Hash256
  peerCount : ℕ
  totalTrusted : ℕ
  deriving DecidableEq

/-- `max_by_key`: of the entries with the largest count, the last. -/
def maxByCount (entries : List (Σ _ : Hash256, ℕ)) : Option (Σ _ : Hash256, ℕ) :=
  entries.foldl (fun best x =>
    match best with
    | some b => if b.2 ≤ x.2 then some x else some b
    | none => some x) none

namespace Engine

/-- The parents that trusted peers have proposed on instead of ours, with the number of peers. -/
def ledgerCounts (o : IterOrder) (e : Engine) : HashMap Hash256 ℕ :=
  (o.order e.wrongPrevLedgerVotes.entries).foldl
    (fun counts x => if e.unl.isTrusted x.1 then counts.vote x.2 else counts) ∅

/-- The second stage of `check_wrong_prev_ledger`, on the proposals of the round. -/
def wrongPrevLedgerFromProposals (o : IterOrder) (e : Engine) : Option WrongPrevLedgerDetected :=
  if e.wrongPrevLedgerVotes.entries=[] then none
  else
    let counts := e.ledgerCounts o
    (maxByCount (o.order counts.entries)).bind fun best =>
      let agreeing := (e.peerPositions.values.filter fun p => e.unl.isTrusted p.nodeId).length
      let total := agreeing+counts.values.sum
      if total=0 then none
      else if wrap32 (wrap32 best.2*100)/wrap32 total ≥ wrongPrevLedgerThreshold then some
        ⟨best.1,best.2,total⟩
      else none

/-- `check_wrong_prev_ledger`, over what the stage on the validations found. -/
def checkWrongPrevLedger (o : IterOrder) (fromValidations : Option WrongPrevLedgerDetected)
    (e : Engine) : Option WrongPrevLedgerDetected :=
  if e.unl.isEmpty then none else fromValidations.or (e.wrongPrevLedgerFromProposals o)

def disagreeing (e : Engine) : List NodeId := e.wrongPrevLedgerVotes.keys.filter e.unl.isTrusted

theorem sum_ledgerCounts (o : IterOrder) (e : Engine) :
    (e.ledgerCounts o).values.sum=e.disagreeing.length := by
  have hcounts : Counts (e.ledgerCounts o)
      ([]++((o.order e.wrongPrevLedgerVotes.entries).filter fun x => e.unl.isTrusted x.1).map
        (·.2)) := by
    rw [ledgerCounts,← foldl_filter,← foldl_map]
    exact counts_empty.foldl_vote _
  rw [hcounts.sum_values,nil_append,length_map,((o.perm _).filter _).length_eq,disagreeing,
    AList.keys,
    keys,filter_map,length_map]
  rfl

/-! ## What is heard in a round -/

end Engine

/-- What `peer_proposal_at` does with a proposal: it is noted as one on another parent, stored as a
position on ours, or neither. -/
inductive Verdict
  | dropped | diverted | admitted
  deriving DecidableEq

structure Heard where
  node : NodeId
  verdict : Verdict
  deriving DecidableEq

namespace Engine

variable {sha : Sha512Half} {env : Env} {e : Engine} {p : Proposal} {now : ℕ}

def verdict (e : Engine) (p : Proposal) (now : ℕ) : Verdict :=
  if e.phase≠.establish then .dropped
  else if e.untrusted p then .dropped
  else if stale p now then .dropped
  else if p.prevLedger≠e.prevLedger then .diverted
  else if e.seqMismatch p then .dropped
  else if (e.proposalTracker.track p).2 then .admitted
  else .dropped

theorem peerProposalAt_cases (env : Env) (e : Engine) (p : Proposal) (now : ℕ) :
    (e.verdict p now=.dropped ∧ ∃ closeTime seq total pending tracker, e.peerProposalAt env p now =
      { e with latestPeerCloseTime :=
        closeTime, latestPeerLedgerSeq := seq, proposalDroppedStaleTotal := total
               pendingProposals := pending, proposalTracker := tracker }) ∨
    (e.verdict p now=.diverted ∧ ∃ closeTime seq total future, e.peerProposalAt env p now =
      { e with latestPeerCloseTime := closeTime, latestPeerLedgerSeq := seq, futureProposals :=
        future
               proposalsHeldPendingPrevLedgerTotal := total
               wrongPrevLedgerVotes := e.wrongPrevLedgerVotes.insert p.nodeId p.prevLedger }) ∨
    (e.verdict p now=.admitted ∧ ∃ closeTime seq tracker,
      e.peerProposalAt env p now=createDisputes env
      { e with latestPeerCloseTime := closeTime, latestPeerLedgerSeq := seq, proposalTracker :=
        tracker
               peerPositions := e.peerPositions.insert p.nodeId p }) := by
  have hobs : (e.observe p).phase=e.phase ∧ (e.observe p).untrusted p=e.untrusted p ∧
      (e.observe p).prevLedger=e.prevLedger ∧ (e.observe p).seqMismatch p=e.seqMismatch p :=
        ⟨rfl,rfl,rfl,rfl⟩
  unfold peerProposalAt verdict
  simp only [hobs]
  split
  · refine .inl ⟨rfl,?_⟩
    unfold bufferProposal
    split
    · exact ⟨_,_,_,_,_,rfl⟩
    · split
      · exact ⟨_,_,_,_,_,rfl⟩
      · split <;> exact ⟨_,_,_,_,_,rfl⟩
  · split
    · exact .inl ⟨rfl,_,_,_,_,_,rfl⟩
    · split
      · exact .inl ⟨rfl,_,_,_,_,_,rfl⟩
      · split
        · exact .inr (.inl ⟨rfl,_,_,_,_,rfl⟩)
        · split
          · exact .inl ⟨rfl,_,_,_,_,_,rfl⟩
          · unfold admitProposal
            dsimp only [observe]
            split
            · exact .inr (.inr ⟨rfl,_,_,_,rfl⟩)
            · exact .inl ⟨rfl,_,_,_,_,_,rfl⟩

variable (sha : Sha512Half)

theorem maps_converge (env : Env) (e : Engine) :
    (e.converge sha env).1.wrongPrevLedgerVotes=e.wrongPrevLedgerVotes ∧
      (e.converge sha env).1.peerPositions=e.peerPositions := by
  obtain ⟨-,h⟩ | ⟨-,_,_,_,_,_,_,_,h⟩ := e.converge_eq sha env
  · rw [h]
    exact ⟨rfl,rfl⟩
  · obtain ⟨_,_,_,_,hpos⟩ := e.reposition_eq sha env
    rw [h,hpos]
    exact ⟨rfl,rfl⟩

/-! ## The log of a round -/

/-- An engine with the proposals of the round that it has been given, oldest first. A proposal that
is buffered is listed again when it is replayed. -/
abbrev Logged := Engine × List Heard

def hear (env : Env) (now : ℕ) (x : Logged) (p : Proposal) : Logged :=
  (x.1.peerProposalAt env p now,x.2++[⟨p.nodeId,x.1.verdict p now⟩])

def stepLogged (x : Logged) (event : Event) : Logged :=
  match event with
  | .startRound .. => (x.1.step sha event,[])
  | .closeLedger env set closeTime seq =>
    if x.1.phase≠.open then x
    else x.1.pendingProposals.foldl (hear env closeTime) (x.1.establish env set closeTime seq,x.2)
  | .peerProposal env p now => hear env now x p
  | _ => (x.1.step sha event,x.2)

def runLogged (e : Engine) (events : List Event) : Logged :=
  events.foldl (stepLogged sha) (e,[])

theorem fst_foldl_hear (env : Env) (now : ℕ) (x : Logged) (l : List Proposal) :
    (l.foldl (hear env now) x).1=l.foldl (fun e p => e.peerProposalAt env p now) x.1 := by
  induction l generalizing x with
  | nil => rfl
  | cons p l ih => exact ih _

theorem fst_stepLogged (x : Logged) (event : Event) :
    (stepLogged sha x event).1=x.1.step sha event := by
  cases event with
  | closeLedger env set closeTime seq =>
    simp only [stepLogged,step,closeLedger]
    split
    · rfl
    · exact fst_foldl_hear ..
  | _ => rfl

theorem fst_runLogged (e : Engine) (events : List Event) :
    (runLogged sha e events).1=run sha e events := by
  have hrun : ∀ x : Logged, (events.foldl (stepLogged sha) x).1=events.foldl (step sha) x.1 := by
    induction events with
    | nil => exact fun x => rfl
    | cons event events ih => exact fun x => by rw [foldl_cons,ih,fst_stepLogged]; rfl
  exact hrun (e,[])

/-- The maps hold the nodes that the log says. -/
structure Told (x : Logged) : Prop where
  diverted : ∀ n, (x.1.wrongPrevLedgerVotes.lookup n).isSome ↔ ⟨n,.diverted⟩∈x.2
  admitted : ∀ n, (x.1.peerPositions.lookup n).isSome ↔ ⟨n,.admitted⟩∈x.2

variable {x : Logged}

variable {log : List Heard} {n : NodeId} {u : TrustedValidatorList} {v : Verdict}

private theorem isSome_insert_iff {ν : Type} {m : HashMap NodeId ν} {x : ν}
    (h : ∀ n, (m.lookup n).isSome ↔ ⟨n,v⟩∈log) (n' : NodeId) :
    ((m.insert n x).lookup n').isSome ↔ ⟨n',v⟩∈log++[⟨n,v⟩] := by
  rw [HashMap.lookup_insert_eq,mem_append,← h n']
  split <;> simp_all

private theorem isSome_iff_append {ν : Type} {m : HashMap NodeId ν} {v' : Verdict} (n : NodeId)
    (hv : v'≠v) (h : ∀ n, (m.lookup n).isSome ↔ ⟨n,v⟩∈log) (n' : NodeId) :
    (m.lookup n').isSome ↔
      ⟨n',v⟩∈log++[⟨n,v'⟩] := by
  simp [h n',hv.symm]

theorem Told.hear (h : Told x) (env : Env) (now : ℕ) (p : Proposal) :
    Told (Engine.hear env now x p) := by
  obtain ⟨hv,_,_,_,_,_,he⟩ | ⟨hv,_,_,_,_,he⟩ | ⟨hv,_,_,_,he⟩ := peerProposalAt_cases env x.1 p now
  · constructor <;> simp only [Engine.hear,he,hv]
    · exact isSome_iff_append _ (by decide) h.diverted
    · exact isSome_iff_append _ (by decide) h.admitted
  · constructor <;> simp only [Engine.hear,he,hv]
    · exact isSome_insert_iff h.diverted
    · exact isSome_iff_append _ (by decide) h.admitted
  · obtain ⟨_,_,hd⟩ := createDisputes_eq env { x.1 with
      latestPeerCloseTime := _, latestPeerLedgerSeq := _, proposalTracker := _
      peerPositions := x.1.peerPositions.insert p.nodeId p }
    rw [hd] at he
    constructor <;> simp only [Engine.hear,he,hv]
    · exact isSome_iff_append _ (by decide) h.diverted
    · exact isSome_insert_iff h.admitted

theorem Told.step (h : Told x) (sha : Sha512Half) (event : Event) :
    Told (stepLogged sha x event) := by
  cases event with
  | startRound prev seq prior => constructor <;> simp [stepLogged,Engine.step,startRoundWithPrior]
  | closeLedger env set closeTime seq =>
    simp only [stepLogged]
    split
    · exact h
    have hreplay : ∀ (l : List Proposal) (x : Logged), Told x →
      Told (l.foldl (Engine.hear env closeTime) x) := by
      intro l
      induction l with
      | nil => exact fun x hx => hx
      | cons p l ih => exact fun x hx => ih _ (hx.hear env closeTime p)
    exact hreplay _ _ ⟨h.diverted,h.admitted⟩
  | peerProposal env p now => exact h.hear env now p
  | converge env =>
    obtain ⟨hvotes,hpeers⟩ := maps_converge sha env x.1
    constructor <;> simp only [stepLogged,Engine.step,hvotes,hpeers]
    · exact h.diverted
    · exact h.admitted
  | setSelfTrusted b => exact ⟨h.diverted,h.admitted⟩
  | setTrustedMasterKeys keys =>
    simp only [stepLogged,Engine.step,setTrustedMasterKeys]
    split <;> exact ⟨h.diverted,h.admitted⟩
  | changeUnl c => exact ⟨h.diverted,h.admitted⟩

theorem told_runLogged (nodeId : NodeId) (publicKey : Bytes)
    (params : ConsensusParams) (unl : TrustedValidatorList) (events : List Event) :
      Told (runLogged sha (new nodeId publicKey params unl) events) := by
  have hrun : ∀ x : Logged, Told x → Told (events.foldl (stepLogged sha) x) := by
    induction events with
    | nil => exact fun x hx => hx
    | cons event events ih => exact fun x hx => ih _ (hx.step sha event)
  exact hrun _ (by constructor <;> simp [new])

/-! ## Counting a peer once -/

/-- The trusted nodes with a proposal of the given kind in the log. -/
def trustedWith (u : TrustedValidatorList) (v : Verdict) (log : List Heard) : Finset NodeId :=
  ((log.filter fun h => h.verdict=v).map (·.node)).toFinset.filter (u.isTrusted ·)

def trustedSenders (u : TrustedValidatorList) (log : List Heard) : Finset NodeId :=
  (log.map (·.node)).toFinset.filter (u.isTrusted ·)

/-- What became of the last proposal of a node that was not dropped. -/
def lastAccepted (log : List Heard) (n : NodeId) : Option Verdict :=
  ((log.filter fun h => h.node=n ∧ h.verdict≠.dropped).getLast?).map (·.verdict)

theorem mem_trustedWith : n∈trustedWith u v log ↔ u.isTrusted n ∧ ⟨n,v⟩∈log := by
  simp only [trustedWith,Finset.mem_filter,mem_toFinset,mem_map,mem_filter,decide_eq_true_eq]
  constructor
  · rintro ⟨⟨⟨n,v⟩,⟨hmem,rfl⟩,rfl⟩,hu⟩
    exact ⟨hu,hmem⟩
  · rintro ⟨hu,hmem⟩
    exact ⟨⟨_,⟨hmem,rfl⟩,rfl⟩,hu⟩

theorem length_filter_keys {ν : Type} {m : HashMap NodeId ν}
    (h : ∀ n, (m.lookup n).isSome ↔ ⟨n,v⟩∈log) :
    (m.keys.filter u.isTrusted).length=(trustedWith u v log).card := by
  rw [← toFinset_card_of_nodup (m.keys_nodup.filter _)]
  congr 1
  ext n
  rw [mem_trustedWith,← h n,AList.lookup_isSome,AList.mem_keys,mem_toFinset,mem_filter,and_comm]

theorem Told.totalTrusted_eq (h : Told x) (hinv : x.1.core.Inv) {o : IterOrder}
    {d : WrongPrevLedgerDetected} (hd : x.1.wrongPrevLedgerFromProposals o=some d) :
    d.totalTrusted=(trustedWith x.1.unl .admitted x.2).card+(trustedWith x.1.unl .diverted
      x.2).card := by
  have hagree : (x.1.peerPositions.values.filter fun p => x.1.unl.isTrusted p.nodeId).length =
      (x.1.peerPositions.keys.filter x.1.unl.isTrusted).length := by
    rw [values,AList.keys,keys,filter_map,filter_map,length_map,length_map]
    congr 1
    refine filter_congr fun y hy => ?_
    exact congrArg x.1.unl.isTrusted (hinv.nodeId_eq y.1 y.2 (mem_entries_iff.mp hy))
  unfold wrongPrevLedgerFromProposals at hd
  split at hd
  · cases hd
  obtain ⟨best,-,hd⟩ := Option.bind_eq_some_iff.mp hd
  dsimp only at hd
  split at hd
  · cases hd
  split_ifs at hd
  cases hd
  rw [sum_ledgerCounts,hagree,disagreeing,length_filter_keys h.admitted,
    length_filter_keys h.diverted]

/-- Each trusted peer is counted once, by its last accepted proposal, exactly if no trusted peer
came back to our parent from another one and, when a detection is reported, the trusted peers with
proposals on both sides are no more than those of which every proposal was dropped. -/
theorem wrong_parent_counted_once_iff (nodeId : NodeId) (publicKey : Bytes)
    (params : ConsensusParams) (unl : TrustedValidatorList) (events : List Event) :
    let x := runLogged sha (new nodeId publicKey params unl) events
    x.1=run sha (new nodeId publicKey params unl) events ∧
    (((∀ n, x.1.unl.isTrusted n → lastAccepted x.2 n=some .admitted → n∉x.1.disagreeing) ∧
      ∀ o d, x.1.wrongPrevLedgerFromProposals o=some d →
        d.totalTrusted ≤ (trustedSenders x.1.unl x.2).card) ↔
    ((∀ n, x.1.unl.isTrusted n → lastAccepted x.2 n=some .admitted → ⟨n,.diverted⟩∉x.2) ∧
      ∀ o d, x.1.wrongPrevLedgerFromProposals o=some d →
        (trustedWith x.1.unl .admitted x.2 ∩ trustedWith x.1.unl .diverted x.2).card ≤
          (trustedSenders x.1.unl x.2 \
            (trustedWith x.1.unl .admitted x.2 ∪ trustedWith x.1.unl .diverted x.2)).card)) := by
  intro x
  have hrun : x.1=run sha (new nodeId publicKey params unl) events := fst_runLogged ..
  have htold : Told x := told_runLogged ..
  have hinv : x.1.core.Inv := hrun ▸ Reachable.inv ⟨_,_,_,_,_,rfl⟩
  have hdisagree : ∀ n, x.1.unl.isTrusted n → (n∈x.1.disagreeing ↔ ⟨n,.diverted⟩∈x.2) := by
    intro n hn
    rw [← htold.diverted,disagreeing,mem_filter,AList.lookup_isSome,AList.mem_keys]
    simp [hn]
  refine ⟨hrun,and_congr ?_ ?_⟩
  · exact forall_congr' fun n => forall_congr' fun hn => forall_congr' fun _ =>
      not_congr (hdisagree n hn)
  refine forall_congr' fun o => forall_congr' fun d => forall_congr' fun hd => ?_
  have hsub : trustedWith x.1.unl .admitted x.2 ∪ trustedWith x.1.unl .diverted x.2⊆trustedSenders
    x.1.unl x.2 := by
    intro n hn
    have : x.1.unl.isTrusted n ∧ ∃ h∈x.2, h.node=n := by
      rcases Finset.mem_union.mp hn with hn | hn <;>
        exact ⟨(mem_trustedWith.mp hn).1,_,(mem_trustedWith.mp hn).2,rfl⟩
    simpa [trustedSenders,and_comm] using this
  have hunion := Finset.card_union_add_card_inter (trustedWith x.1.unl .admitted x.2)
    (trustedWith x.1.unl .diverted x.2)
  have hdiff := Finset.card_sdiff_add_card_eq_card hsub
  rw [htold.totalTrusted_eq hinv hd]
  omega

/-- Two trusted peers propose on another parent and one of them then on ours: it is counted on both
sides, and the detection reports three trusted peers where two have spoken. -/
theorem returned_peer_counted_twice :
    let other (n : ℕ) : Proposal := { sampleProposal ⟨.ofNat n⟩ 130 with prevLedger := .ofNat 9 }
    let x := runLogged (fun _ => .zero) (new ⟨.ofNat 1⟩ [] .default (.new {⟨.ofNat 2⟩, ⟨.ofNat 3⟩}))
      (sampleOpening 100 130++[.peerProposal sampleEnv (other 2) 130,
        .peerProposal sampleEnv (other 3) 130,
        .peerProposal sampleEnv (sampleProposal ⟨.ofNat 2⟩ 130) 130])
    x.1.phase=.establish ∧ x.1.unl.isTrusted ⟨.ofNat 2⟩ ∧
      lastAccepted x.2 ⟨.ofNat 2⟩=some .admitted ∧
      ⟨.ofNat 2⟩∈x.1.disagreeing ∧ x.1.checkWrongPrevLedger .listed none=some ⟨.ofNat 9,2,3⟩ ∧
      (trustedSenders x.1.unl x.2).card=2 := by
  decide

end Engine

end Rxrpl.Consensus
