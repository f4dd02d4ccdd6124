import Rxrpl.HashMap
import Rxrpl.SHAMapNodes
import Mathlib.Data.List.Destutter
import Mathlib.Data.List.Sort

/-!
# Consensus data

Proposals, transaction sets, disputes, the trusted validator list and the proposal
tracker. The fields of type `u32` are natural numbers, and each operation that can leave
the range says what it does there.
-/

namespace Rxrpl

def u32Max : ℕ := 4294967295

def wrap32 (n : ℕ) : ℕ := n % 4294967296

theorem wrap32_of_lt {n : ℕ} (h : n < 4294967296) : wrap32 n=n := Nat.mod_eq_of_lt h

def wrap64 (n : ℕ) : ℕ := n % 18446744073709551616

def saturatingAdd (a b : ℕ) : ℕ := min (a+b) u32Max

def absDiff (a b : ℕ) : ℕ := a-b+(b-a)

def sortHashes (l : List Hash256) : List Hash256 := l.insertionSort fun a b => ¬ b < a

variable {l : List Hash256}

theorem pairwise_sortHashes (l : List Hash256) : (sortHashes l).Pairwise (· ≤ ·) :=
  (List.pairwise_insertionSort (r := fun a b : Hash256 => ¬ b < a) l).imp fun h => not_lt.mp h

theorem sorted_eq_dedup (l : List Hash256) :
    (sortHashes l).destutter (· ≠ ·)=(sortHashes l).dedup :=
  (pairwise_sortHashes l).destutter_eq_dedup

theorem mem_sorted {id : Hash256} : id∈(sortHashes l).destutter (· ≠ ·) ↔ id∈l := by
  rw [sorted_eq_dedup,List.mem_dedup,sortHashes,List.mem_insertionSort]

/-- `inner_hash` of `transaction_set_root`. The fuel counts the depths left; it does not run
out, since two different ids part in one of their 64 nibbles. -/
def idsInnerHash (sha : Sha512Half) : ℕ → List Hash256 → ℕ → Hash256
  | 0, _, _ => .zero
  | fuel+1, ids, depth => sha (innerContent fun b =>
      match ids.filter fun id => selectBranch id depth == b with
      | [] => .zero
      | [id] => id
      | bucket => idsInnerHash sha fuel bucket (depth+1))

/-- `transaction_set_root`: the root hash of the candidate set with these transaction ids. -/
def transactionSetRoot (sha : Sha512Half) (ids : List Hash256) : Hash256 :=
  match (sortHashes ids).destutter (· ≠ ·) with
  | [] => .zero
  | sorted => idsInnerHash sha 65 sorted 0

namespace Consensus

structure NodeId where
  hash : Hash256
  deriving DecidableEq

def NodeId.fromPublicKey (sha : Sha512Half) (pk : Bytes) : NodeId := ⟨sha pk⟩

structure Proposal where
  nodeId : NodeId
  publicKey : Bytes
  txSetHash : Hash256
  closeTime : ℕ
  propSeq : ℕ
  ledgerSeq : ℕ
  prevLedger : Hash256
  signature : Option Bytes
  deriving DecidableEq

/-- The fields of a `Validation` that `accept` fills in; it leaves the others at their
defaults. -/
structure Validation where
  nodeId : NodeId
  publicKey : Bytes
  ledgerHash : Hash256
  ledgerSeq : ℕ
  full : Bool
  closeTime : ℕ
  signTime : ℕ
  deriving DecidableEq

inductive ConsensusPhase
  | open | establish | accepted
  deriving DecidableEq

/-- `ConsensusError::WrongPhase`, with the phase that was expected and the one found. -/
inductive ConsensusError
  | wrongPhase (expected actual : ConsensusPhase)
  deriving DecidableEq

structure ConsensusParams where
  proposeIntervalMs : ℕ
  initialThreshold : ℕ
  thresholdIncrease : ℕ
  maxThreshold : ℕ
  maxConsensusRounds : ℕ
  closeTimeResolution : ℕ
  minConsensusTimeMs : ℕ

def ConsensusParams.default : ConsensusParams := ⟨1250,50,10,80,25,30,0⟩

def ConsensusParams.thresholdForRound (p : ConsensusParams) (round : ℕ) : ℕ :=
  min (wrap32 (p.initialThreshold+wrap32 (round*p.thresholdIncrease))) p.maxThreshold

/-! ## Transaction sets and disputes -/

structure TxSet where
  hash : Hash256
  txs : List Hash256
  blobs : HashMap Hash256 Bytes

def TxSet.new (sha : Sha512Half) (txs : List Hash256) : TxSet :=
  let sorted := (sortHashes txs).destutter (· ≠ ·)
  ⟨transactionSetRoot sha sorted,sorted,∅⟩

def TxSet.fromItems (sha : Sha512Half) (items : List (Hash256 × Bytes)) : TxSet :=
  let sorted := (sortHashes (items.map (·.1))).destutter (· ≠ ·)
  ⟨transactionSetRoot sha sorted,sorted,items.foldl (fun m (id,blob) => m.insert id blob) ∅⟩

structure DisputedTx where
  txHash : Hash256
  ourVote : Bool
  votes : HashMap NodeId Bool

namespace DisputedTx

def new (txHash : Hash256) (ourVote : Bool) : DisputedTx := ⟨txHash,ourVote,∅⟩

def vote (d : DisputedTx) (node : NodeId) (yes : Bool) : DisputedTx :=
  { d with votes := d.votes.insert node yes }

def yayCount (d : DisputedTx) : ℕ := (d.votes.values.filter id).length

/-- `should_include`, which the method `our_vote` returns. -/
def shouldInclude (d : DisputedTx) (threshold : ℕ) : Bool :=
  let yays := d.yayCount+if d.ourVote then 1 else 0
  let total := d.votes.entries.length+1
  decide (wrap32 (wrap32 yays*100)/wrap32 total ≥ threshold)

end DisputedTx

/-! ## The trusted validator list -/

/-- The UNL: trusted master ids, those among them that are disabled, and the registered
ephemeral ids with their masters. -/
structure TrustedValidatorList where
  trusted : Finset NodeId
  negativeUnl : Finset NodeId
  ephemeralToMaster : HashMap NodeId NodeId

namespace TrustedValidatorList

def new (trusted : Finset NodeId) : TrustedValidatorList := ⟨trusted,∅,∅⟩

def resolveToMaster (u : TrustedValidatorList) (id : NodeId) : NodeId :=
  (u.ephemeralToMaster.lookup id).getD id

def isTrusted (u : TrustedValidatorList) (id : NodeId) : Bool :=
  let resolved := u.resolveToMaster id
  decide (resolved∈u.trusted) && !decide (resolved∈u.negativeUnl)

/-- `is_empty`: solo mode. -/
def isEmpty (u : TrustedValidatorList) : Bool := decide (u.trusted=∅)

def effectiveSize (u : TrustedValidatorList) : ℕ := (u.trusted.filter (· ∉ u.negativeUnl)).card

/-- `quorum_threshold`: 80% of the effective size, rounded up. -/
def quorumThreshold (u : TrustedValidatorList) : ℕ :=
  if u.effectiveSize=0 then 0 else (u.effectiveSize*80+99)/100

variable (sha : Sha512Half)

def updateFromValidatorKeys (u : TrustedValidatorList)
    (masterKeys : List Bytes) : TrustedValidatorList :=
  { u with trusted := (masterKeys.map (NodeId.fromPublicKey sha)).toFinset }

def registerEphemeralKey (u : TrustedValidatorList)
    (masterPk ephemeralPk : Bytes) (oldEphemeral : Option Bytes) : TrustedValidatorList :=
  let map := match oldEphemeral with
    | some old => u.ephemeralToMaster.erase (NodeId.fromPublicKey sha old)
    | none => u.ephemeralToMaster
  { u with ephemeralToMaster :=
    map.insert (.fromPublicKey sha ephemeralPk) (.fromPublicKey sha masterPk) }

def removeEphemeralKey (u : TrustedValidatorList) (ephemeralPk : Bytes) :
    TrustedValidatorList :=
  { u with ephemeralToMaster := u.ephemeralToMaster.erase (.fromPublicKey sha ephemeralPk) }

def revokeMasterKey (u : TrustedValidatorList) (masterPk : Bytes) :
    TrustedValidatorList :=
  { u with trusted := u.trusted.erase (.fromPublicKey sha masterPk) }

/-- The changes that the node layer makes to the UNL of a running engine. -/
inductive Change
  | updateFromValidatorKeys (masterKeys : List Bytes)
  | registerEphemeralKey (masterPk ephemeralPk : Bytes) (oldEphemeral : Option Bytes)
  | removeEphemeralKey (ephemeralPk : Bytes)
  | revokeMasterKey (masterPk : Bytes)
  | addToNegativeUnl (id : NodeId)
  | removeFromNegativeUnl (id : NodeId)

def apply (u : TrustedValidatorList) : Change → TrustedValidatorList
  | .updateFromValidatorKeys keys => u.updateFromValidatorKeys sha keys
  | .registerEphemeralKey master ephemeral old => u.registerEphemeralKey sha master ephemeral old
  | .removeEphemeralKey ephemeral => u.removeEphemeralKey sha ephemeral
  | .revokeMasterKey master => u.revokeMasterKey sha master
  | .addToNegativeUnl id => { u with negativeUnl := insert id u.negativeUnl }
  | .removeFromNegativeUnl id => { u with negativeUnl := u.negativeUnl.erase id }

end TrustedValidatorList

end Consensus

end Rxrpl
