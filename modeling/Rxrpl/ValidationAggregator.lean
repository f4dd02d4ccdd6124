import Rxrpl.ConsensusTypes

/-!
# Aggregation of validations

`ValidationAggregator` collects the validations of the network in one bucket per sequence and hash,
and declares a ledger validated when its bucket holds enough of them. It counts a validation once
per node id, trusts it by the master key, keeps a limited number of buckets, and forgets what lies
100 or more sequences below the ledger that it declares.
-/

namespace Rxrpl.Consensus

/-! ## Validations -/

/-- A validation from the network, with the master key that a manifest gives for its signing key. -/
structure NetValidation extends Validation where
  masterPublicKey : Option Bytes
  deriving DecidableEq

structure PublicKey where
  asBytes : Bytes
  length_asBytes : asBytes.length=33
  deriving DecidableEq

def PublicKey.filled (b : UInt8) : PublicKey := ⟨List.replicate 33 b,List.length_replicate⟩

def PublicKey.fromSlice (bs : Bytes) : Option PublicKey := if h : bs.length=33 then some ⟨bs,h⟩
    else none

namespace NetValidation

def trustedKey (v : NetValidation) : Bytes := v.masterPublicKey.getD v.publicKey

def ledger (v : NetValidation) : ℕ × Hash256 := (v.ledgerSeq,v.ledgerHash)

end NetValidation

def validationCurrentEarly : ℕ := 3*60

def validationCurrentWall : ℕ := 5*60

def validationCurrentLocal : ℕ := 3*60

def isCurrent (now signTime seenTime : ℕ) : Bool :=
  decide (now-validationCurrentEarly < signTime) && decide
    (signTime < saturatingAdd now validationCurrentWall) &&
    (decide (seenTime=0) || decide (seenTime < saturatingAdd now validationCurrentLocal))

structure ValidatedLedger where
  hash : Hash256
  seq : ℕ
  validationCount : ℕ
  deriving DecidableEq

/-! ## The aggregator -/

structure ValidationAggregator where
  byLedger : HashMap (ℕ × Hash256) (List NetValidation)
  validatedSeqs : HashMap ℕ Hash256
  minValidations : ℕ
  highestValidatedSeq : ℕ
  highestValidatedHash : Hash256
  trusted : Option (Finset PublicKey)
  droppedStaleTotal : ℕ
  validationsDroppedFreshnessTotal : ℕ

namespace ValidationAggregator

def maxBuckets : ℕ := 8192

def new (minValidations : ℕ) : ValidationAggregator :=
    ⟨∅,∅,max minValidations 1,0,.zero,none,0,0⟩

variable (a : ValidationAggregator)

def withTrustedKeys (keys : Finset PublicKey) : ValidationAggregator :=
    { a with trusted := some keys }

/-- `is_trusted`; the set is not being replaced at the time. -/
def isTrusted (publicKey : Bytes) : Bool :=
  match a.trusted with
  | none => true
  | some keys => (PublicKey.fromSlice publicKey).any (· ∈ keys)

def cleanup (currentSeq : ℕ) : ValidationAggregator :=
  if currentSeq < 100 then a
  else { a with
    byLedger := a.byLedger.retain fun key _ => decide (currentSeq-100 < key.1)
    validatedSeqs := a.validatedSeqs.retain fun seq _ => decide (currentSeq-100 < seq) }

def bucket (ledger : ℕ × Hash256) : List NetValidation :=
    (a.byLedger.lookup ledger).getD []

variable (v : NetValidation)

def addValidationAt (now : ℕ) :
    Option ValidatedLedger × ValidationAggregator :=
  if (a.validatedSeqs.lookup v.ledgerSeq).isSome then (none,a)
  else if !v.full then (none,a)
  else if !isCurrent now v.signTime 0 then
    (none,{ a with
      droppedStaleTotal := wrap64 (a.droppedStaleTotal+1)
      validationsDroppedFreshnessTotal := wrap64 (a.validationsDroppedFreshnessTotal+1) })
  else if !a.isTrusted v.trustedKey then (none,a)
  else if maxBuckets ≤ a.byLedger.entries.length ∧ (a.byLedger.lookup v.ledger).isNone then (none,a)
  else if (a.bucket v.ledger).any fun w => w.nodeId=v.nodeId then (none,a)
  else
    let validations := a.bucket v.ledger++[v]
    let counted := { a with byLedger := a.byLedger.insert v.ledger validations }
    if a.minValidations ≤ validations.length then
      let declared :=
        { counted with validatedSeqs := counted.validatedSeqs.insert v.ledgerSeq v.ledgerHash }
      let highest :=
        if a.highestValidatedSeq < v.ledgerSeq then
          { declared with highestValidatedSeq := v.ledgerSeq, highestValidatedHash := v.ledgerHash }
        else declared
      (some ⟨v.ledgerHash,v.ledgerSeq,validations.length⟩,highest.cleanup v.ledgerSeq)
    else (none,counted)

/-! ## What a call can do -/

/-- The gates before the buckets: an open sequence, and a full, current and trusted validation. -/
structure Admits (a : ValidationAggregator) (v : NetValidation) (now : ℕ) : Prop where
  unvalidated : a.validatedSeqs.lookup v.ledgerSeq=none
  full : v.full=true
  current : isCurrent now v.signTime 0=true
  trusted : a.isTrusted v.trustedKey=true

/-- The bucket of the validation can take it: there is room for the bucket, and its node id is new.
-/
structure Takes (a : ValidationAggregator) (v : NetValidation) : Prop where
  room : a.byLedger.entries.length < maxBuckets ∨ (a.byLedger.lookup v.ledger).isSome
  new : ∀ w∈a.bucket v.ledger, w.nodeId≠v.nodeId

/-- A call that is counted and fills the bucket. -/
structure Completes (a : ValidationAggregator) (v : NetValidation) (now : ℕ) :
    Prop extends a.Admits v now, a.Takes v where
  enough : a.minValidations ≤ (a.bucket v.ledger).length+1

/-- The state after a call that is counted: the bucket has grown. -/
def counted : ValidationAggregator :=
  { a with byLedger := a.byLedger.insert v.ledger (a.bucket v.ledger++[v]) }

/-- The state after a call that declares, before the cleanup. -/
def declared : ValidationAggregator :=
  { a.counted v with
    validatedSeqs := a.validatedSeqs.insert v.ledgerSeq v.ledgerHash
    highestValidatedSeq := if a.highestValidatedSeq < v.ledgerSeq then v.ledgerSeq
      else a.highestValidatedSeq
    highestValidatedHash := if a.highestValidatedSeq < v.ledgerSeq then v.ledgerHash
      else a.highestValidatedHash }

/-- The outcomes of a call: it is dropped, counted, or counted so that the ledger is declared. -/
inductive Outcome (a : ValidationAggregator) (v : NetValidation) (now : ℕ) :
    Option ValidatedLedger × ValidationAggregator → Prop
  | dropped (stale fresh : ℕ) (h : ¬ (a.Admits v now ∧ a.Takes v)) :
    Outcome a v now
      (none,{ a with droppedStaleTotal := stale, validationsDroppedFreshnessTotal := fresh })
  | counted (hadmits : a.Admits v now) (htakes : a.Takes v)
      (h : (a.bucket v.ledger).length+1 < a.minValidations) :
      Outcome a v now (none,a.counted v)
  | declared (h : a.Completes v now) :
    Outcome a v now (some ⟨v.ledgerHash,v.ledgerSeq,(a.bucket v.ledger).length+1⟩,
      (a.declared v).cleanup v.ledgerSeq)

theorem addValidationAt_outcome (now : ℕ) :
    Outcome a v now (a.addValidationAt v now) := by
  unfold addValidationAt
  split
  · rename_i h
    exact .dropped _ _ fun hc => by simp [hc.1.unvalidated] at h
  rename_i hopen
  split
  · rename_i h
    exact .dropped _ _ fun hc => by simp [hc.1.full] at h
  rename_i hfull
  split
  · rename_i h
    exact .dropped _ _ fun hc => by simp [hc.1.current] at h
  rename_i hcurrent
  split
  · rename_i h
    exact .dropped _ _ fun hc => by simp [hc.1.trusted] at h
  rename_i htrusted
  have hadmits : a.Admits v now :=
    ⟨by simpa using hopen,by simpa using hfull,by simpa using hcurrent,by simpa using htrusted⟩
  split
  · rename_i h
    refine .dropped _ _ fun hc => ?_
    obtain hroom | hsome := hc.2.room
    · omega
    · rw [Option.isNone_iff_eq_none.mp h.2] at hsome
      cases hsome
  rename_i hroom
  split
  · rename_i h
    obtain ⟨w,hw,he⟩ := List.any_eq_true.mp h
    exact .dropped _ _ fun hc => hc.2.new w hw (of_decide_eq_true he)
  rename_i hnew
  have htakes : a.Takes v := by
    refine ⟨?_,fun w hw he => hnew (List.any_eq_true.mpr ⟨w,hw,decide_eq_true he⟩)⟩
    by_cases hlt : a.byLedger.entries.length < maxBuckets
    · exact .inl hlt
    · refine .inr (Option.isSome_iff_ne_none.mpr fun hnone => hroom ⟨by omega,by rw [hnone]; rfl⟩)
  dsimp only
  rw [List.length_append,List.length_singleton]
  split
  · rename_i henough
    have hstate : (if a.highestValidatedSeq < v.ledgerSeq then
          { a.declared v with highestValidatedSeq := v.ledgerSeq, highestValidatedHash :=
            v.ledgerHash }
        else { a.declared v with highestValidatedSeq :=
          a.highestValidatedSeq, highestValidatedHash := a.highestValidatedHash }) =
        a.declared v := by
      unfold declared
      split <;> simp_all
    have houtcome : Outcome a v now _ := .declared ⟨hadmits,htakes,henough⟩
    rw [← hstate] at houtcome
    exact houtcome
  · exact .counted hadmits htakes (by omega)

end ValidationAggregator

end Rxrpl.Consensus
