import Rxrpl.CloseTime
import Rxrpl.ProposalTracker
import Mathlib.Data.List.MinMax

/-!
# The consensus engine

The state machine of `ConsensusEngine`: a round opens with `startRoundWithPrior`, enters the
establish phase with `closeLedger`, takes proposals of peers and ends when `converge`
accepts. What a call gets from outside (the clock, the answers of the adapter, the order in
which loops run over hash maps) is the `Env` of that call. What the engine sends is left
out.
-/

namespace Rxrpl.Consensus

open HashMap

def proposalFreshnessSecs : ℕ := 30

def pendingProposalsMax : ℕ := 1024

def futureProposalsMaxKeys : ℕ := 64

def futureProposalsMaxPerKey : ℕ := 16

def futureProposalsStaleLedgers : ℕ := 5

/-- What one call sees of its surroundings. `instants n` is the reading of the clock at the
`n`-th place of the call that reads it, in nanoseconds. -/
structure Env where
  acquireTxSet : Hash256 → Option TxSet
  onAcceptLedger : TxSet → ℕ → ℕ → Hash256
  instants : ℕ → ℕ
  iter : IterOrder

/-- `elapsed().as_millis() as u64`. -/
def elapsedMillis (now started : ℕ) : ℕ := wrap64 ((now-started)/1000000)

structure Engine where
  params : ConsensusParams
  phase : ConsensusPhase
  ourPosition : Option Proposal
  ourSet : Option TxSet
  peerPositions : HashMap NodeId Proposal
  proposalTracker : ProposalTracker
  disputes : HashMap Hash256 DisputedTx
  round : ℕ
  prevLedger : Hash256
  nodeId : NodeId
  publicKey : Bytes
  acceptedCloseTime : Option ℕ
  latestPeerCloseTime : Option ℕ
  latestPeerLedgerSeq : Option ℕ
  acceptedCloseFlags : ℕ
  acceptedValidation : Option Validation
  unl : TrustedValidatorList
  pendingProposals : List Proposal
  lastShareAt : Option ℕ
  wrongPrevLedgerVotes : HashMap NodeId Hash256
  prevLedgerSeq : ℕ
  futureProposals : HashMap Hash256 (List Proposal)
  adaptiveCloseTime : AdaptiveCloseTime
  previousCloseAgreed : Bool
  priorCloseTime : ℕ
  proposalDroppedStaleTotal : ℕ
  proposalsHeldPendingPrevLedgerTotal : ℕ
  establishStartedAt : Option ℕ
  lastRoundAdvance : Option ℕ
  selfTrusted : Bool
  txBlobs : HashMap Hash256 Bytes

namespace Engine

/-- `new_with_unl`. -/
def new (nodeId : NodeId) (publicKey : Bytes) (params : ConsensusParams)
    (unl : TrustedValidatorList) : Engine where
  params := params
  phase := .open
  ourPosition := none
  ourSet := none
  peerPositions := ∅
  proposalTracker := .new
  disputes := ∅
  round := 0
  prevLedger := .zero
  nodeId := nodeId
  publicKey := publicKey
  acceptedCloseTime := none
  latestPeerCloseTime := none
  latestPeerLedgerSeq := none
  acceptedCloseFlags := 0
  acceptedValidation := none
  unl := unl
  pendingProposals := []
  lastShareAt := none
  wrongPrevLedgerVotes := ∅
  prevLedgerSeq := 0
  futureProposals := ∅
  adaptiveCloseTime := .new params.closeTimeResolution
  previousCloseAgreed := true
  priorCloseTime := 0
  proposalDroppedStaleTotal := 0
  proposalsHeldPendingPrevLedgerTotal := 0
  establishStartedAt := none
  lastRoundAdvance := none
  selfTrusted := false
  txBlobs := ∅

/-! ## Opening and closing a round -/

def startRoundWithPrior (e : Engine) (prevLedger : Hash256) (ledgerSeq priorCloseTime : ℕ) :
    Engine :=
  { e with
    adaptiveCloseTime :=
      .new (nextResolution e.adaptiveCloseTime.resolution e.previousCloseAgreed ledgerSeq)
    phase := .open
    ourPosition := none
    ourSet := none
    peerPositions := ∅
    proposalTracker := e.proposalTracker.clearFor e.prevLedger
    disputes := ∅
    round := 0
    lastShareAt := none
    lastRoundAdvance := none
    prevLedger := prevLedger
    prevLedgerSeq := ledgerSeq-1
    priorCloseTime := priorCloseTime
    acceptedCloseTime := none
    acceptedCloseFlags := 0
    acceptedValidation := none
    wrongPrevLedgerVotes := ∅
    pendingProposals := e.pendingProposals++(e.futureProposals.lookup prevLedger).getD []
    futureProposals := HashMap.filterMap (fun _ props =>
      let kept := props.filter fun p => wrap32 (p.ledgerSeq+futureProposalsStaleLedgers) ≥ ledgerSeq
      if kept=[] then none else some kept) (e.futureProposals.erase prevLedger) }

def holdFutureProposal (o : IterOrder) (e : Engine) (p : Proposal) : Engine :=
  let held := (e.futureProposals.lookup p.prevLedger).getD []
  let held := if held.length ≥ futureProposalsMaxPerKey then held.tail else held
  let held := held.filter (fun q => q.nodeId≠p.nodeId)++[p]
  let future := e.futureProposals.insert p.prevLedger held
  let oldest (x : Σ _ : Hash256, List Proposal) : ℕ := ((x.2.map (·.ledgerSeq)).min?).getD u32Max
  { e with futureProposals :=
      if future.entries.length > futureProposalsMaxKeys then
        match (o.order future.entries).argmin oldest with
        | some victim => future.erase victim.1
        | none => future
      else future }

structure DisputeBook where
  disputes : HashMap Hash256 DisputedTx
  txBlobs : HashMap Hash256 Bytes

/-- The body of the loop of `create_disputes` for one peer position. -/
def disputePeer (env : Env) (ourSet : TxSet) (book : DisputeBook) (node : NodeId)
    (prop : Proposal) : DisputeBook :=
  let yes (d : HashMap Hash256 DisputedTx) (tx : Hash256) := d.modifyExisting tx (·.vote node true)
  if prop.txSetHash=ourSet.hash then { book with disputes := ourSet.txs.foldl yes book.disputes }
  else match env.acquireTxSet prop.txSetHash with
    | none => book
    | some peerSet =>
      let txBlobs := (env.iter.order peerSet.blobs.entries).foldl (fun m x =>
        if x.2=[] then m else m.modify x.1 x.2 fun blob => blob) book.txBlobs
      let disputes := (ourSet.txs.filter (· ∉ peerSet.txs)).foldl (fun d tx =>
        d.modify tx (.new tx true) (·.vote node false)) book.disputes
      let disputes := (peerSet.txs.filter (· ∉ ourSet.txs)).foldl (fun d tx =>
        d.modify tx (.new tx false) (·.vote node true)) disputes
      ⟨(ourSet.txs.filter (· ∈ peerSet.txs)).foldl yes disputes,txBlobs⟩

def createDisputes (env : Env) (e : Engine) : Engine :=
  match e.ourSet with
  | none => e
  | some ourSet =>
    let book := (env.iter.order e.peerPositions.entries).foldl
      (fun book x => disputePeer env ourSet book x.1 x.2) ⟨e.disputes,e.txBlobs⟩
    { e with disputes := book.disputes, txBlobs := book.txBlobs }

/-- The first lines of `peer_proposal_at`, which every proposal passes. -/
def observe (e : Engine) (p : Proposal) : Engine :=
  { e with
    latestPeerCloseTime := if p.closeTime > 0 then some p.closeTime else e.latestPeerCloseTime
    latestPeerLedgerSeq :=
      if p.ledgerSeq > 0 then some (match e.latestPeerLedgerSeq with
        | some s => max s p.ledgerSeq
        | none => p.ledgerSeq)
      else e.latestPeerLedgerSeq }

/-- The gates before buffering and before counting: the UNL and the age of the proposal. -/
def untrusted (e : Engine) (p : Proposal) : Bool := !e.unl.isEmpty && !e.unl.isTrusted p.nodeId

def stale (p : Proposal) (now : ℕ) : Bool :=
    decide (absDiff now p.closeTime > proposalFreshnessSecs)

def dropStale (e : Engine) : Engine :=
    { e with proposalDroppedStaleTotal := wrap64 (e.proposalDroppedStaleTotal+1) }

/-- The branch of `peer_proposal_at` outside the establish phase. -/
def bufferProposal (e : Engine) (p : Proposal) (now : ℕ) : Engine :=
  if e.untrusted p then e
  else if stale p now then e.dropStale
  else if e.pendingProposals.length ≥ pendingProposalsMax then e
  else { e with pendingProposals := e.pendingProposals++[p] }

/-- A proposal on another parent: it is noted and held for later. -/
def divert (env : Env) (e : Engine) (p : Proposal) : Engine :=
  holdFutureProposal env.iter { e with
    wrongPrevLedgerVotes := e.wrongPrevLedgerVotes.insert p.nodeId p.prevLedger
    proposalsHeldPendingPrevLedgerTotal := wrap64 (e.proposalsHeldPendingPrevLedgerTotal+1) } p

/-- The proposal names a ledger sequence other than ours; `0` stands for an unknown one. -/
def seqMismatch (e : Engine) (p : Proposal) : Bool :=
  match e.ourPosition with
  | some our => p.ledgerSeq != 0 && p.ledgerSeq != our.ledgerSeq
  | none => false

/-- The end of `peer_proposal_at`: the tracker decides, and an accepted proposal is stored. -/
def admitProposal (env : Env) (e : Engine) (p : Proposal) : Engine :=
  let (tracker,accepted) := e.proposalTracker.track p
  if accepted then
    createDisputes env
      { e with proposalTracker := tracker, peerPositions := e.peerPositions.insert p.nodeId p }
  else { e with proposalTracker := tracker }

def peerProposalAt (env : Env) (e : Engine) (p : Proposal) (now : ℕ) : Engine :=
  let e := e.observe p
  if e.phase≠.establish then e.bufferProposal p now
  else if e.untrusted p then e
  else if stale p now then e.dropStale
  else if p.prevLedger≠e.prevLedger then e.divert env p
  else if e.seqMismatch p then e
  else e.admitProposal env p

/-- The state of `close_ledger` before the buffered proposals are replayed. -/
def establish (env : Env) (e : Engine) (ourSet : TxSet) (closeTime ledgerSeq : ℕ) : Engine :=
  let proposal : Proposal :=
    { nodeId := e.nodeId, publicKey := e.publicKey, txSetHash := ourSet.hash, closeTime := closeTime
      propSeq := 0, ledgerSeq := ledgerSeq, prevLedger := e.prevLedger, signature := none }
  { e with
    ourPosition := some proposal
    txBlobs := ourSet.blobs
    ourSet := some ourSet
    phase := .establish
    establishStartedAt := some (env.instants 0)
    lastShareAt := some (env.instants 0)
    lastRoundAdvance := some (env.instants 0)
    pendingProposals := [] }

/-- `close_ledger`: the proposals received while the round was open are replayed against our
own close time. -/
def closeLedger (env : Env) (e : Engine) (ourSet : TxSet) (closeTime ledgerSeq : ℕ) :
    Engine × Except ConsensusError Unit :=
  if e.phase≠.open then (e,.error (.wrongPhase .open e.phase))
  else (e.pendingProposals.foldl (fun e p => e.peerProposalAt env p closeTime)
    (e.establish env ourSet closeTime ledgerSeq),.ok ())

/-! ## Converging -/

/-- `align_close_time_with_peers`: our close time moves to the bucket of a strict majority of
all positions, or to a tied one if the UNL leaves two positions. -/
def alignCloseTimeWithPeers (o : IterOrder) (e : Engine) : Engine × Bool :=
  match e.ourPosition with
  | none => (e,false)
  | some pos =>
    if e.peerPositions.entries=[] then (e,false)
    else
      let votes := closeTimeVotes o e.adaptiveCloseTime.resolution e.priorCloseTime pos.closeTime
        e.peerPositions
      if votes.entries=[] then (e,false)
      else
        let total := saturatingAdd (wrap32 e.peerPositions.entries.length) 1
        let best := bestBucket o votes
        let allowTieRealign := total=2 ∧ ¬ e.unl.isEmpty
        if best.2*2 < total ∨ (¬ allowTieRealign ∧ best.2*2=total) then (e,false)
        else if pos.closeTime≠best.1
          then ({ e with ourPosition := some { pos with closeTime := best.1 } },true)
        else (e,false)

def avalancheDisputeThreshold : ℕ → ℕ
  | 0 => 50
  | 1 => 65
  | 2 => 70
  | _ => 95

/-- One dispute of the loop of `converge`: our transactions after it and whether they changed. -/
def settleDispute (threshold : ℕ) (acc : List Hash256 × Bool) (d : DisputedTx) :
    List Hash256 × Bool :=
  let shouldInclude := d.shouldInclude threshold
  if shouldInclude=d.ourVote then acc
  else if shouldInclude then (if d.txHash∈acc.1 then acc.1 else acc.1++[d.txHash],true)
  else (acc.1.filter (· ≠ d.txHash),true)

variable (sha : Sha512Half)

/-- The dispute resolution of `converge`, with whether our set was rebuilt. -/
def resolveDisputes (env : Env) (e : Engine) : Engine × Bool :=
  match e.ourSet with
  | none => (e,false)
  | some ourSet =>
    let (newTxs,changed) := (e.disputes.iterValues env.iter).foldl
      (settleDispute (avalancheDisputeThreshold e.round)) (ourSet.txs,false)
    if changed then
      let newSet := TxSet.fromItems sha (newTxs.map fun id => (id,(e.txBlobs.lookup id).getD []))
      ({ e with
        ourSet := some newSet
        ourPosition := e.ourPosition.map fun pos =>
          { pos with txSetHash := newSet.hash, propSeq := wrap32 (pos.propSeq+1) }
        lastShareAt := if e.ourPosition.isSome then some (env.instants 0) else e.lastShareAt
        disputes := e.disputes.filterMap fun _ d =>
          some { d with ourVote := decide (d.txHash∈newSet.txs) } },true)
    else (e,false)

/-- A clock value is unset or at least an interval ago. -/
def due (last : Option ℕ) (now interval : ℕ) : Bool :=
  match last with
  | some t => decide (elapsedMillis now t ≥ interval)
  | none => true

def refreshPosition (env : Env) (e : Engine) (realigned setChanged : Bool) : Engine :=
  if (realigned || due e.lastShareAt (env.instants 1) e.params.proposeIntervalMs) && !setChanged
    then
    match e.ourPosition with
    | some pos => { e with ourPosition := some { pos with propSeq := saturatingAdd pos.propSeq 1 }
                           lastShareAt := some (env.instants 2) }
    | none => e
  else e

/-- A peer position has our transaction set and our close-time bucket. -/
def agrees (e : Engine) (pos p : Proposal) : Bool :=
  decide (p.txSetHash=pos.txSetHash) &&
    decide (roundCloseTime p.closeTime e.adaptiveCloseTime.resolution =
      roundCloseTime pos.closeTime e.adaptiveCloseTime.resolution)

/-- The peer positions that `converge` counts for the quorum. -/
def agreeingUnl (e : Engine) (pos : Proposal) : List Proposal :=
  e.peerPositions.values.filter fun p => e.unl.isTrusted p.nodeId && e.agrees pos p

def selfInUnl (e : Engine) : Bool :=
  e.selfTrusted || e.unl.isTrusted e.nodeId ||
    (e.publicKey != [] && e.unl.isTrusted (.fromPublicKey sha e.publicKey))

/-- The number that `converge` compares with the quorum threshold. -/
def quorumVotes (e : Engine) (pos : Proposal) : ℕ :=
  (e.agreeingUnl pos).length+if e.selfInUnl sha then 1 else 0

/-- Enough agreement to accept: a share of all positions in solo mode, else the quorum. -/
def agreementReached (e : Engine) (pos : Proposal) : Bool :=
  if e.unl.isEmpty then
    let total := e.peerPositions.entries.length+1
    let agreeing := (e.peerPositions.values.filter fun p => p.txSetHash=pos.txSetHash).length+1
    decide (wrap32 (wrap32 agreeing*100)/wrap32 total ≥ e.params.thresholdForRound e.round)
  else decide (e.quorumVotes sha pos ≥ e.unl.quorumThreshold)

def minConsensusTimeElapsed (e : Engine) (now : ℕ) : Bool :=
  e.params.minConsensusTimeMs=0 || due e.establishStartedAt now e.params.minConsensusTimeMs

def closeTime (o : IterOrder) (e : Engine) : ℕ × Bool :=
  effectiveCloseTime o e.adaptiveCloseTime.resolution e.priorCloseTime e.ourPosition e.peerPositions

def accept (env : Env) (e : Engine) : Engine :=
  let (closeTime,agreed) := e.closeTime env.iter
  let flags := if agreed then e.acceptedCloseFlags else 1
  let e := { e with phase := .accepted, acceptedCloseTime := some closeTime
                    acceptedCloseFlags := flags, previousCloseAgreed := agreed }
  match e.ourSet with
  | none => e
  | some ourSet =>
    let validation : Validation :=
      { nodeId := e.nodeId, publicKey := e.publicKey, ledgerHash :=
        env.onAcceptLedger ourSet closeTime flags
        ledgerSeq := (e.ourPosition.map (·.ledgerSeq)).getD 0, full := true
        closeTime := closeTime, signTime := closeTime }
    { e with acceptedValidation := some validation }

/-- The end of `converge` without agreement: the round counter advances once in an interval,
and after the last round we accept anyway, unless a UNL is set and no peer was heard. -/
def advanceRound (env : Env) (e : Engine) : Engine × Bool :=
  if !due e.lastRoundAdvance (env.instants 4) e.params.proposeIntervalMs then (e,false)
  else
    let e := { e with round := wrap32 (e.round+1), lastRoundAdvance := some (env.instants 5) }
    if e.round ≥ e.params.maxConsensusRounds then
      if e.peerPositions.entries=[] ∧
        ¬ e.unl.isEmpty then ({ e with round := e.params.maxConsensusRounds },false)
      else (e.accept env,true)
    else (e,false)

/-- The state of `converge` when it comes to count the agreement. -/
def reposition (env : Env) (e : Engine) : Engine :=
  let (e,realigned) := e.alignCloseTimeWithPeers env.iter
  let (e,setChanged) := e.resolveDisputes sha env
  e.refreshPosition env realigned setChanged

def converge (env : Env) (e : Engine) : Engine × Bool :=
  if e.phase≠.establish then (e,false)
  else
    let e := e.reposition sha env
    match e.ourPosition with
    | none => (e,false)
    | some pos =>
      if e.agreementReached sha pos then
        if e.minConsensusTimeElapsed (env.instants 3) then (e.accept env,true) else (e,false)
      else e.advanceRound env

/-! ## Runs -/

/-- `set_trusted_master_keys`: an empty list is ignored. -/
def setTrustedMasterKeys (e : Engine) (masterKeys : List Bytes) : Engine :=
  if masterKeys=[] then e else { e with unl := e.unl.updateFromValidatorKeys sha masterKeys }

end Engine

inductive Event
  | startRound (prevLedger : Hash256) (ledgerSeq priorCloseTime : ℕ)
  | closeLedger (env : Env) (ourSet : TxSet) (closeTime ledgerSeq : ℕ)
  | peerProposal (env : Env) (p : Proposal) (now : ℕ)
  | converge (env : Env)
  | setSelfTrusted (trusted : Bool)
  | setTrustedMasterKeys (masterKeys : List Bytes)
  | changeUnl (c : TrustedValidatorList.Change)

namespace Engine

def step (sha : Sha512Half) (e : Engine) : Event → Engine
  | .startRound prev seq prior => e.startRoundWithPrior prev seq prior
  | .closeLedger env set t seq => (e.closeLedger env set t seq).1
  | .peerProposal env p now => e.peerProposalAt env p now
  | .converge env => (e.converge sha env).1
  | .setSelfTrusted b => { e with selfTrusted := b }
  | .setTrustedMasterKeys keys => e.setTrustedMasterKeys sha keys
  | .changeUnl c => { e with unl := e.unl.apply sha c }

def run (sha : Sha512Half) (e : Engine) (events : List Event) : Engine := events.foldl (step sha) e

def Reachable (sha : Sha512Half) (e : Engine) : Prop :=
  ∃ nodeId publicKey params unl events, e=run sha (new nodeId publicKey params unl) events

/-- What holds of a new engine and is kept by every call holds of every reachable state. -/
theorem Reachable.induction {sha : Sha512Half} {P : Engine → Prop}
    (init : ∀ nodeId publicKey params unl, P (new nodeId publicKey params unl))
    (kept : ∀ e event, P e → P (e.step sha event)) {e : Engine} (h : Reachable sha e) : P e := by
  obtain ⟨nodeId,publicKey,params,unl,events,rfl⟩ := h
  have hrun : ∀ (events : List Event) (e : Engine), P e → P (run sha e events) := by
    intro events
    induction events with
    | nil => exact fun e he => he
    | cons event events ih => exact fun e he => ih _ (kept e event he)
  exact hrun events _ (init ..)

end Engine

end Rxrpl.Consensus
