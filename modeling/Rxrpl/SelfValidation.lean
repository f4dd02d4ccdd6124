import Rxrpl.ConsensusTypes
import Rxrpl.InputRuns

/-!
# The node's own validations

The loop of the node signs full validations when consensus closes a ledger, and when a ledger
rebuilt during catch-up is adopted. Both places ask one `SelfValidationGuard` before they sign and
tell it afterwards, so sequences, hashes and signing times are in order whatever the interleaving.
Only the first one looks at `amendment_blocked`.
-/

namespace Rxrpl.Consensus

open InputRun

/-! ## The guard -/

structure SelfValidationGuard where
  highestSeq : ℕ
  highestHash : Hash256
  seeded : Bool
  lastSigningTime : ℕ
  deriving DecidableEq

namespace SelfValidationGuard

def default : SelfValidationGuard := ⟨0,.zero,false,0⟩

variable (g : SelfValidationGuard)

def mayValidate (seq : ℕ) (hash : Hash256) : Bool :=
  if !g.seeded || decide (g.highestSeq < seq) then true
  else if seq=g.highestSeq then hash == g.highestHash
  else false

def recordValidation (seq : ℕ) (hash : Hash256) : SelfValidationGuard :=
  if !g.seeded || decide (g.highestSeq < seq) then
    { g with highestSeq := seq, highestHash := hash, seeded := true }
  else g

def floorSigningTime (baseTime : ℕ) : ℕ :=
    max baseTime (saturatingAdd g.lastSigningTime 1)

def recordSigningTime (signingTime : ℕ) : SelfValidationGuard :=
  if g.lastSigningTime < signingTime then { g with lastSigningTime := signingTime } else g

variable {g : SelfValidationGuard} {seq t : ℕ} {hash : Hash256}

theorem mayValidate_iff : g.mayValidate seq hash=true ↔
      g.seeded=false ∨ g.highestSeq < seq ∨ (seq=g.highestSeq ∧ hash=g.highestHash) := by
  simp only [mayValidate]
  split_ifs with hnew heq
  · simp only [Bool.or_eq_true,Bool.not_eq_true',decide_eq_true_eq] at hnew
    tauto
  · simp only [Bool.or_eq_true,Bool.not_eq_true',decide_eq_true_eq,not_or] at hnew
    simp only [beq_iff_eq]
    tauto
  · simp only [Bool.or_eq_true,Bool.not_eq_true',decide_eq_true_eq,not_or] at hnew
    tauto

/-- What has been allowed and recorded is the high-water mark. -/
theorem recordValidation_eq (h : g.mayValidate seq hash=true) :
    g.recordValidation seq hash={ g with highestSeq := seq, highestHash := hash, seeded :=
      true } := by
  simp only [recordValidation]
  split_ifs with hnew
  · rfl
  simp only [Bool.or_eq_true,Bool.not_eq_true',decide_eq_true_eq,not_or,Bool.not_eq_false] at hnew
  obtain hseeded | hlt | ⟨rfl,rfl⟩ := mayValidate_iff.mp h
  · rw [hseeded] at hnew
    exact (Bool.false_ne_true hnew.1).elim
  · exact (hnew.2 hlt).elim
  · rw [← hnew.1]

theorem recordSigningTime_eq :
    g.recordSigningTime t={ g with lastSigningTime := max g.lastSigningTime t } := by
  simp only [recordSigningTime]
  split_ifs with hlt
  · rw [max_eq_right hlt.le]
  · rw [max_eq_left (not_lt.mp hlt)]

theorem lt_floorSigningTime (base : ℕ) (h : g.lastSigningTime < u32Max) :
    g.lastSigningTime < g.floorSigningTime base := by
  simp only [floorSigningTime,saturatingAdd]
  omega

theorem floorSigningTime_le {base : ℕ} (hbase : base ≤ u32Max) :
    g.floorSigningTime base ≤ u32Max := by
  simp only [floorSigningTime,saturatingAdd]
  omega

end SelfValidationGuard

/-! ## The loop -/

/-- What the loop of the node reads and does not change: its identity, the validator key when there
is one, and the amendments that the build knows. -/
structure LoopContext where
  nodeId : NodeId
  nodeKey : Bytes
  validatorKey : Option Bytes
  knownAmendmentIds : List Hash256

def LoopContext.signingPubkey (ctx : LoopContext) : Bytes := ctx.validatorKey.getD ctx.nodeKey

/-- The two events that lead to validations, with what the loop reads at that moment. -/
inductive LoopEvent
  /-- Consensus closes a ledger, with the amendments that are enabled in it. -/
  | consensusClose (seq : ℕ) (hash : Hash256) (effectiveCloseTime : UInt32)
      (closedRules : List Hash256)
  /-- Catch-up has rebuilt a ledger. The clock is in seconds of the network. -/
  | catchupAdopt (seq : ℕ) (hash : Hash256) (closeTime : UInt32) (syncing : Bool) (ourOpenSeq : ℕ)
      (nowNetclock : UInt32)
  deriving DecidableEq

/-- The state of the loop, with the full validations it has signed, oldest first. -/
structure NodeLoop where
  guard : SelfValidationGuard
  amendmentBlocked : Bool
  signed : List Validation
  deriving DecidableEq

namespace NodeLoop

def start : NodeLoop := ⟨.default,false,[]⟩

variable (ctx : LoopContext)

/-- Sign a full validation with the signing time raised to the floor, and record it. -/
def sign (s : NodeLoop) (seq : ℕ) (hash : Hash256) (closeTime baseTime : ℕ) :
    NodeLoop :=
  let signTime := s.guard.floorSigningTime baseTime
  { s with
    guard := (s.guard.recordValidation seq hash).recordSigningTime signTime
    signed := s.signed++[⟨ctx.nodeId,ctx.signingPubkey,hash,seq,true,closeTime,signTime⟩] }

/-- The block that the close path sets when the closed ledger has an amendment the build does not
know. -/
def detectBlock (s : NodeLoop) (closedRules : List Hash256) : NodeLoop :=
  if s.amendmentBlocked then s
  else match closedRules.find? fun id => !ctx.knownAmendmentIds.contains id with
    | some _ => { s with amendmentBlocked := true }
    | none => s

/-- The part of the loop that handles an event and may sign a validation. -/
def step (s : NodeLoop) : LoopEvent → NodeLoop
  | .consensusClose seq hash effectiveCloseTime closedRules =>
    let s := s.detectBlock ctx closedRules
    if s.amendmentBlocked then s
    else if !s.guard.mayValidate seq hash then s
    else s.sign ctx seq hash effectiveCloseTime.toNat effectiveCloseTime.toNat
  | .catchupAdopt seq hash closeTime syncing ourOpenSeq nowNetclock =>
    if syncing || seq == ourOpenSeq then
      if !s.guard.mayValidate seq hash then s
      else s.sign ctx seq hash closeTime.toNat nowNetclock.toNat
    else s

def run (events : List LoopEvent) : NodeLoop := events.foldl (step ctx) start

variable (ctx : LoopContext)

@[simp] theorem sign_amendmentBlocked (s : NodeLoop) (seq : ℕ) (hash : Hash256)
    (closeTime baseTime : ℕ) :
    (s.sign ctx seq hash closeTime baseTime).amendmentBlocked=s.amendmentBlocked := rfl

theorem sign_signed_ne (s : NodeLoop) (seq : ℕ) (hash : Hash256) (closeTime baseTime : ℕ) :
    (s.sign ctx seq hash closeTime baseTime).signed≠s.signed := by
  simp [sign]

@[simp] theorem detectBlock_guard (s : NodeLoop) (rules : List Hash256) :
    (s.detectBlock ctx rules).guard=s.guard := by
  simp only [detectBlock]
  split_ifs
  · rfl
  · split <;> rfl

@[simp] theorem detectBlock_signed (s : NodeLoop) (rules : List Hash256) :
    (s.detectBlock ctx rules).signed=s.signed := by
  simp only [detectBlock]
  split_ifs
  · rfl
  · split <;> rfl

/-- A rebuilt ledger is adopted and the guard allows a validation for it. -/
def Adopts (s : NodeLoop) : LoopEvent → Prop
  | .consensusClose .. => False
  | .catchupAdopt seq hash _ syncing ourOpenSeq _ =>
    (syncing=true ∨ seq=ourOpenSeq) ∧ s.guard.mayValidate seq hash=true

theorem toNat_le_u32Max (t : UInt32) : t.toNat ≤ u32Max := Nat.le_of_lt_succ t.toNat_lt

theorem step_cases (s : NodeLoop) (e : LoopEvent) :
    ((step ctx s e).guard=s.guard ∧ (step ctx s e).signed=s.signed) ∨
      ∃ seq hash closeTime base, s.guard.mayValidate seq hash=true ∧ base ≤ u32Max ∧
        (step ctx s e).guard=(s.sign ctx seq hash closeTime base).guard ∧
        (step ctx s e).signed=(s.sign ctx seq hash closeTime base).signed := by
  cases e with
  | consensusClose seq hash effectiveCloseTime closedRules =>
    simp only [step]
    split_ifs with hblocked hguard
    · exact .inl ⟨detectBlock_guard ..,detectBlock_signed ..⟩
    · exact .inl ⟨detectBlock_guard ..,detectBlock_signed ..⟩
    refine .inr ⟨seq,hash,effectiveCloseTime.toNat,effectiveCloseTime.toNat,by simpa using hguard,
      toNat_le_u32Max _,?_,?_⟩
    · simp only [sign,detectBlock_guard]
    · simp only [sign,detectBlock_guard,detectBlock_signed]
  | catchupAdopt seq hash closeTime syncing ourOpenSeq nowNetclock =>
    simp only [step]
    split_ifs with hadopt hguard
    · exact .inl ⟨rfl,rfl⟩
    · refine .inr
        ⟨seq,hash,closeTime.toNat,nowNetclock.toNat,by simpa using hguard,toNat_le_u32Max _,rfl,rfl⟩
    · exact .inl ⟨rfl,rfl⟩

theorem step_signed_iff (s : NodeLoop) (e : LoopEvent) :
    ((step ctx s e).amendmentBlocked=true → (step ctx s e).signed=s.signed) ↔
      (s.amendmentBlocked=true → ¬ s.Adopts e) := by
  cases e with
  | consensusClose seq hash effectiveCloseTime closedRules =>
    simp only [step,Adopts,not_false_eq_true,implies_true,iff_true]
    split_ifs with hblocked
    · exact fun _ => detectBlock_signed ..
    · exact fun _ => detectBlock_signed ..
    · exact fun h => (hblocked h).elim
  | catchupAdopt seq hash closeTime syncing ourOpenSeq nowNetclock =>
    simp only [step,Adopts]
    split_ifs with hadopt hguard
    · have hguard : ¬ s.guard.mayValidate seq hash=true := by simpa using hguard
      simp [hguard]
    · have hguard : s.guard.mayValidate seq hash=true := by simpa using hguard
      have hadopt : syncing=true ∨ seq=ourOpenSeq := by simpa using hadopt
      simp only [sign_amendmentBlocked,sign_signed_ne,imp_false,hadopt,hguard,true_and,
        not_true_eq_false]
    · have hadopt : ¬ (syncing=true ∨ seq=ourOpenSeq) := by simpa using hadopt
      simp [hadopt]

end NodeLoop

/-! ## The order of the validations -/

/-- A validation may follow another one: its sequence is not lower, at the same sequence it has the
same hash, and its signing time is higher unless the clock has run out. -/
structure Follows (a b : Validation) : Prop where
  seq : a.ledgerSeq ≤ b.ledgerSeq
  hash : a.ledgerSeq=b.ledgerSeq → a.ledgerHash=b.ledgerHash
  time : a.signTime < u32Max → a.signTime < b.signTime

/-- The guard knows the highest validation and the last signing time. -/
structure NodeLoop.Guarded (s : NodeLoop) : Prop where
  order : s.signed.Pairwise Follows
  seeded : s.guard.seeded=false → s.signed=[]
  highest : ∀ v∈s.signed, v.ledgerSeq ≤ s.guard.highestSeq ∧
    (v.ledgerSeq=s.guard.highestSeq → v.ledgerHash=s.guard.highestHash)
  latest : ∀ v∈s.signed, v.signTime ≤ s.guard.lastSigningTime
  bounded : s.guard.lastSigningTime ≤ u32Max

namespace NodeLoop

theorem guarded_start : start.Guarded := by
  constructor <;> simp [start,SelfValidationGuard.default]

variable {base seq : ℕ} {hash : Hash256} {s : NodeLoop}

theorem Guarded.follows (hs : s.Guarded) (hallow : s.guard.mayValidate seq hash=true)
    {v : Validation} (hv : v∈s.signed) {w : Validation} (hseq : w.ledgerSeq=seq)
    (hhash : w.ledgerHash=hash) (htime : w.signTime=s.guard.floorSigningTime base) :
    Follows v w := by
  obtain ⟨hle,heq⟩ := hs.highest v hv
  have htime' : v.signTime < u32Max → v.signTime < w.signTime := by
    intro hlt
    have hlatest := hs.latest v hv
    rw [htime]
    by_cases hmax : s.guard.lastSigningTime < u32Max
    · exact hlatest.trans_lt (SelfValidationGuard.lt_floorSigningTime base hmax)
    · have hsat : u32Max ≤ saturatingAdd s.guard.lastSigningTime 1 :=
        le_min (Nat.le_succ_of_le (not_lt.mp hmax)) le_rfl
      exact hlt.trans_le (le_max_of_le_right hsat)
  obtain hunseeded | hnewer | ⟨hsame,hsameHash⟩ := SelfValidationGuard.mayValidate_iff.mp hallow
  · rw [hs.seeded hunseeded] at hv
    exact absurd hv List.not_mem_nil
  · exact ⟨by omega,fun h => by omega,htime'⟩
  · exact ⟨by omega,fun h => by rw [heq (by omega),hhash,hsameHash],htime'⟩

theorem Guarded.sign (hs : s.Guarded) (ctx : LoopContext) (closeTime : ℕ)
    (hallow : s.guard.mayValidate seq hash=true) (hbase : base ≤ u32Max) :
    (s.sign ctx seq hash closeTime base).Guarded := by
  have hguard : (s.sign ctx seq hash closeTime base).guard =
      ⟨seq,hash,true,max s.guard.lastSigningTime (s.guard.floorSigningTime base)⟩ := by
    simp only [NodeLoop.sign,SelfValidationGuard.recordValidation_eq hallow,
      SelfValidationGuard.recordSigningTime_eq]
  have hfollows : ∀ v∈s.signed, Follows v
      ⟨ctx.nodeId,ctx.signingPubkey,hash,seq,true,closeTime,s.guard.floorSigningTime base⟩ :=
    fun v hv => hs.follows hallow hv rfl rfl rfl
  refine ⟨?_,?_,?_,?_,?_⟩
  · refine List.pairwise_append.mpr ⟨hs.order,List.pairwise_singleton ..,?_⟩
    simpa using hfollows
  · simp [hguard]
  · intro v hv
    rw [hguard]
    obtain hold | rfl := by simpa [NodeLoop.sign] using hv
    · exact ⟨(hfollows v hold).seq,(hfollows v hold).hash⟩
    · exact ⟨le_rfl,fun _ => rfl⟩
  · intro v hv
    rw [hguard]
    obtain hold | rfl := by simpa [NodeLoop.sign] using hv
    · exact (hs.latest v hold).trans (le_max_left ..)
    · exact le_max_right ..
  · rw [hguard]
    exact max_le hs.bounded (SelfValidationGuard.floorSigningTime_le hbase)

theorem Guarded.step (hs : s.Guarded) (ctx : LoopContext) (e : LoopEvent) :
    (step ctx s e).Guarded := by
  obtain ⟨hguard,hsigned⟩ | ⟨seq,hash,closeTime,base,hallow,hbase,hguard,hsigned⟩ :=
    step_cases ctx s e
  · constructor <;> simp only [hguard,hsigned]
    · exact hs.order
    · exact hs.seeded
    · exact hs.highest
    · exact hs.latest
    · exact hs.bounded
  · have h := hs.sign ctx closeTime hallow hbase
    constructor <;> simp only [hguard,hsigned]
    · exact h.order
    · exact h.seeded
    · exact h.highest
    · exact h.latest
    · exact h.bounded

theorem guarded_run (ctx : LoopContext) (events : List LoopEvent) : (run ctx events).Guarded := by
  suffices ∀ s : NodeLoop, s.Guarded →
    (events.foldl (NodeLoop.step ctx) s).Guarded from this start guarded_start
  intro s hs
  induction events generalizing s with
  | nil => exact hs
  | cons e events ih => exact ih _ (hs.step ctx e)

end NodeLoop

/-! ## Silence -/

/-- The validations signed in a run are in order, and none is signed once the node is blocked. -/
structure Disciplined (ctx : LoopContext) (events : List LoopEvent) : Prop where
  seqs : (NodeLoop.run ctx events).signed.Pairwise fun a b => a.ledgerSeq ≤ b.ledgerSeq
  hashes : ∀ a∈(NodeLoop.run ctx events).signed, ∀ b∈(NodeLoop.run ctx events).signed,
    a.ledgerSeq=b.ledgerSeq → a.ledgerHash=b.ledgerHash
  times : (NodeLoop.run ctx events).signed.Pairwise fun a b => a.signTime < u32Max →
    a.signTime < b.signTime
  silent : Along (NodeLoop.step ctx)
    (fun s e => (NodeLoop.step ctx s e).amendmentBlocked=true →
      (NodeLoop.step ctx s e).signed=s.signed) .start events

theorem one_hash_of_pairwise {signed : List Validation} (h : signed.Pairwise Follows) :
    ∀ a∈signed, ∀ b∈signed, a.ledgerSeq=b.ledgerSeq → a.ledgerHash=b.ledgerHash := by
  induction h with
  | nil => simp
  | cons hhead _ ih =>
    intro a ha b hb heq
    obtain rfl | hatail := List.mem_cons.mp ha <;> obtain rfl | hbtail := List.mem_cons.mp hb
    · rfl
    · exact (hhead b hbtail).hash heq
    · exact ((hhead a hatail).hash heq.symm).symm
    · exact ih a hatail b hbtail heq

/-- Whatever the interleaving, the validations are in order, and the node is silent once blocked
exactly when no rebuilt ledger that the guard allows is adopted while it is blocked. -/
theorem validations_disciplined_iff (ctx : LoopContext) (events : List LoopEvent) :
    Disciplined ctx events ↔
      Along (NodeLoop.step ctx) (fun s e => s.amendmentBlocked=true → ¬ s.Adopts e) .start
        events := by
  have hcongr : Along (NodeLoop.step ctx)
    (fun s e => (NodeLoop.step ctx s e).amendmentBlocked=true →
      (NodeLoop.step ctx s e).signed=s.signed) .start events ↔
        Along (NodeLoop.step ctx) (fun s e => s.amendmentBlocked=true → ¬ s.Adopts e) .start
          events :=
    along_congr (fun _ => True) (fun _ => True) (fun s e _ _ => NodeLoop.step_signed_iff ctx s e)
      (fun _ _ _ _ _ => trivial) trivial fun _ _ => trivial
  have horder := (NodeLoop.guarded_run ctx events).order
  constructor
  · intro h
    exact hcongr.mp h.silent
  · intro h
    exact ⟨horder.imp Follows.seq,one_hash_of_pairwise horder,horder.imp Follows.time,hcongr.mpr h⟩

def sampleContext : LoopContext := ⟨⟨.zero⟩,[1],none,[]⟩

/-- Consensus closes ledger 5, in which an unknown amendment is enabled. The node is blocked, adopts
a peer's ledger 6, its open one, and signs a validation for it. -/
theorem blocked_node_validates :
    ¬ Disciplined sampleContext
      [.consensusClose 5 .zero 700 [.zero],.catchupAdopt 6 .zero 710 false 6 730] := by
  intro h
  have hsilent := h.silent.2.1
  revert hsilent
  decide

end Rxrpl.Consensus
