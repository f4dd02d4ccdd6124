import Rxrpl.InputRuns
import Rxrpl.ValidationAggregator

/-!
# The quorum of validations

Calls of `add_validation_at` with one set of trusted keys. A declared ledger should have a quorum of
trusted validators behind it, no sequence should be declared twice, and a quorum of validators
should be enough whatever the others send. The aggregator counts node ids and not validators,
forgets old declarations and drops what finds no room. Where no call comes 100 sequences late and
there is room for every ledger, all three hold exactly when the node ids behind a ledger and the
validators agree.
-/

namespace Rxrpl.Consensus

open ValidationAggregator List

/-! ## Runs -/

abbrev Call := NetValidation × ℕ

/-- An aggregator with the calls so far and the ledgers it has declared. -/
structure Watched where
  aggregator : ValidationAggregator
  sent : List Call
  declared : List (ℕ × Hash256)

namespace Watched

def start (minValidations : ℕ) (keys : Finset PublicKey) : Watched :=
    ⟨(new minValidations).withTrustedKeys keys,[],[]⟩

def result (w : Watched) (i : Call) : Option ValidatedLedger :=
    (w.aggregator.addValidationAt i.1 i.2).1

def step (w : Watched) (i : Call) : Watched where
  aggregator := (w.aggregator.addValidationAt i.1 i.2).2
  sent := w.sent++[i]
  declared := w.declared++((w.result i).map fun out => (out.seq,out.hash)).toList

def highest (w : Watched) : ℕ := (w.declared.map Prod.fst).foldr max 0

end Watched

/-- The trusted validator behind a full and current validation for a ledger. -/
def voter (keys : Finset PublicKey) (ledger : ℕ × Hash256) (i : Call) : Option PublicKey :=
  if i.1.ledger=ledger ∧ i.1.full=true ∧ isCurrent i.2 i.1.signTime 0=true then
    (PublicKey.fromSlice i.1.trustedKey).filter (· ∈ keys)
  else none

/-- The trusted validators that have sent full and current validations for a ledger. -/
def voters (keys : Finset PublicKey) (ledger : ℕ × Hash256) (sent : List Call) : Finset PublicKey :=
  (sent.filterMap (voter keys ledger)).toFinset

theorem voters_append (keys : Finset PublicKey) (ledger : ℕ × Hash256) (sent : List Call)
    (i : Call) : voters keys ledger (sent++[i])=voters keys ledger sent ∪
      (voter keys ledger i).toList.toFinset := by
  simp only [voters,filterMap_append,toFinset_append]
  cases h : voter keys ledger i <;> simp [h]

structure QuorumExact (keys : Finset PublicKey) (w : Watched) (i : Call) : Prop where
  /-- A quorum of trusted validators is behind a declared ledger. -/
  sound : ∀ out, w.result i=some out →
    w.aggregator.minValidations ≤ (voters keys (out.seq,out.hash) (w.sent++[i])).card
  /-- No sequence is declared with two hashes. -/
  agree : ∀ out, w.result i=some out → ∀ h, (out.seq,h)∈w.declared → h=out.hash
  /-- A ledger with a quorum behind it, against a minority, is declared if its sequence is not and
  is recent. -/
  complete : ∀ ledger, (∀ h, (ledger.1,h)∉w.declared) → w.highest < ledger.1+100 →
    w.aggregator.minValidations ≤ (voters keys ledger (w.sent++[i])).card →
    (keys \ voters keys ledger (w.sent++[i])).card < w.aggregator.minValidations →
    ∃ out, w.result i=some out ∧ (out.seq,out.hash)=ledger

/-! ## The condition -/

section

variable (keys : Finset PublicKey) (m : ℕ)

/-- The node ids under which trusted validators have sent full and current validations for a ledger.
-/
def nodeIds (ledger : ℕ × Hash256) (sent : List Call) : Finset NodeId :=
  ((sent.filter fun i => (voter keys ledger i).isSome).map (·.1.nodeId)).toFinset

/-- A ledger with as many node ids behind it as validators are asked for. -/
def HasQuorum (sent : List Call) (ledger : ℕ × Hash256) : Prop :=
    m ≤ (nodeIds keys ledger sent).card

instance (sent : List Call) (ledger : ℕ × Hash256) : Decidable (HasQuorum keys m sent ledger) :=
    Nat.decLe _ _

/-- The ledgers with a validation that counts. -/
def votedFor (sent : List Call) : Finset (ℕ × Hash256) :=
  ((sent.filter fun i => (voter keys i.1.ledger i).isSome).map (·.1.ledger)).toFinset

/-- Those of them that are reached. -/
def reachedLedgers (sent : List Call) : Finset (ℕ × Hash256) :=
    (votedFor keys sent).filter (HasQuorum keys m sent)

/-- Those of them that are less than 100 sequences below each ledger that is reached. -/
def openLedgers (sent : List Call) : Finset (ℕ × Hash256) :=
  (votedFor keys sent).filter fun ledger => ∀ top∈reachedLedgers keys m sent, top.1 < ledger.1+100

/-- A call that is not 100 sequences late, with room for one more ledger. -/
structure Orderly (sent : List Call) (i : Call) : Prop where
  recent : ∀ top∈reachedLedgers keys m sent, top.1 < i.1.ledgerSeq+100
  room : (openLedgers keys m sent).card < maxBuckets

instance (sent : List Call) (i : Call) : Decidable (Orderly keys m sent i) :=
  decidable_of_iff (_ ∧ _) ⟨fun h => ⟨h.1,h.2⟩,fun h => ⟨h.recent,h.room⟩⟩

/-- A call for an open sequence after which the node ids behind its ledger are enough exactly when
the validators are, if a minority is left. -/
structure CountsAgree (sent : List Call) (i : Call) : Prop where
  ids : (∀ h, ¬ HasQuorum keys m sent (i.1.ledgerSeq,h)) →
    HasQuorum keys m (sent++[i]) i.1.ledger →
    m ≤ (voters keys i.1.ledger (sent++[i])).card
  validators : (∀ h, ¬ HasQuorum keys m sent (i.1.ledgerSeq,h)) →
    m ≤ (voters keys i.1.ledger (sent++[i])).card →
    (keys \ voters keys i.1.ledger (sent++[i])).card < m → HasQuorum keys m (sent++[i]) i.1.ledger

end

/-! ## Steps -/

section

variable {keys : Finset PublicKey} {w : Watched} {i : Call}

theorem result_eq_some_iff {out : ValidatedLedger} : w.result i=some out ↔
    w.aggregator.Completes i.1 i.2 ∧
      out=⟨i.1.ledgerHash,i.1.ledgerSeq,(w.aggregator.bucket i.1.ledger).length+1⟩ := by
  have houtcome := addValidationAt_outcome w.aggregator i.1 i.2
  rw [Watched.result]
  generalize w.aggregator.addValidationAt i.1 i.2=r at houtcome ⊢
  cases houtcome with
  | dropped stale fresh h => exact ⟨(nomatch ·),fun hc => (h ⟨hc.1.toAdmits,hc.1.toTakes⟩).elim⟩
  | counted hadmits htakes h =>
    refine ⟨(nomatch ·),fun hc => ?_⟩
    have := hc.1.enough
    omega
  | declared h => exact ⟨fun he => ⟨h,(Option.some.inj he).symm⟩,fun hc => by rw [hc.2]⟩

theorem admits_iff (htrusted : w.aggregator.trusted=some keys) : w.aggregator.Admits i.1 i.2 ↔
      w.aggregator.validatedSeqs.lookup i.1.ledgerSeq=none ∧ (voter keys i.1.ledger i).isSome := by
  have hiff : w.aggregator.isTrusted i.1.trustedKey=true ↔
      ((PublicKey.fromSlice i.1.trustedKey).filter (· ∈ keys)).isSome=true := by
    rw [isTrusted,htrusted]
    cases PublicKey.fromSlice i.1.trustedKey with
    | none => simp
    | some pk => by_cases hpk : pk∈keys <;> simp [Option.filter,hpk]
  constructor
  · rintro ⟨h₁,h₂,h₃,h₄⟩
    exact ⟨h₁,by rw [voter,if_pos ⟨rfl,h₂,h₃⟩]; exact hiff.mp h₄⟩
  rintro ⟨h₁,h₂⟩
  unfold voter at h₂
  split at h₂
  · rename_i h
    exact ⟨h₁,h.2.1,h.2.2,hiff.mpr h₂⟩
  · cases h₂

variable {ledger : ℕ × Hash256}

theorem voters_step_of_none (h : voter keys ledger i=none) :
    voters keys ledger (w.sent++[i])=voters keys ledger w.sent := by
  rw [voters_append,h]
  simp

theorem voter_ledger (h : (voter keys ledger i).isSome) : i.1.ledger=ledger := by
  unfold voter at h
  split at h
  · rename_i hc
    exact hc.1
  · cases h

theorem nodeIds_append (keys : Finset PublicKey) (ledger : ℕ × Hash256) (sent : List Call)
    (i : Call) :
    nodeIds keys ledger (sent++[i]) =
      if (voter keys ledger i).isSome then insert i.1.nodeId (nodeIds keys ledger sent)
        else nodeIds keys ledger sent := by
  simp only [nodeIds,filter_append,map_append,toFinset_append]
  split
  · rename_i h
    simp [h,Finset.union_comm]
  · rename_i h
    simp [h]

theorem nodeIds_append_of_ne (h : i.1.ledger≠ledger) (sent : List Call) :
    nodeIds keys ledger (sent++[i])=nodeIds keys ledger sent := by
  rw [nodeIds_append,if_neg]
  simp [voter,h]

theorem nodeIds_subset (keys : Finset PublicKey) (ledger : ℕ × Hash256) (sent : List Call)
    (i : Call) : nodeIds keys ledger sent⊆nodeIds keys ledger (sent++[i]) := by
  rw [nodeIds_append]
  split
  · exact Finset.subset_insert _ _
  · exact subset_rfl

theorem mem_votedFor {sent : List Call} (h : (voter keys i.1.ledger i).isSome) :
    i.1.ledger∈votedFor keys (sent++[i]) := by
  simp [votedFor,h]

theorem mem_reachedLedgers {m : ℕ} (hm : 0 < m) {sent : List Call} :
    ledger∈reachedLedgers keys m sent ↔ HasQuorum keys m sent ledger := by
  rw [reachedLedgers,Finset.mem_filter,and_iff_right_iff_imp]
  intro h
  obtain ⟨id,hid⟩ := Finset.card_pos.mp (hm.trans_le h)
  simp only [nodeIds,mem_toFinset,mem_map,mem_filter] at hid
  obtain ⟨c,⟨hc,hvoter⟩,-⟩ := hid
  obtain rfl := voter_ledger hvoter
  simp only [votedFor,mem_toFinset,mem_map,mem_filter]
  exact ⟨c,⟨hc,hvoter⟩,rfl⟩

theorem votedFor_subset (keys : Finset PublicKey) (sent : List Call) (i : Call) :
    votedFor keys sent⊆votedFor keys (sent++[i]) := by
  intro ledger
  simp only [votedFor,filter_append,map_append,toFinset_append,Finset.mem_union]
  exact .inl

theorem mem_declared_step {p : ℕ × Hash256} : p∈(w.step i).declared ↔
    p∈w.declared ∨ w.aggregator.Completes i.1 i.2 ∧ p=i.1.ledger := by
  rw [Watched.step,mem_append]
  refine or_congr_right ?_
  simp only [Option.mem_toList,Option.map_eq_some_iff,result_eq_some_iff]
  constructor
  · rintro ⟨out,⟨hc,rfl⟩,rfl⟩
    exact ⟨hc,rfl⟩
  · rintro ⟨hc,rfl⟩
    exact ⟨_,⟨hc,rfl⟩,rfl⟩

theorem highest_lt_iff {b : ℕ} (hb : 0 < b) : w.highest < b ↔ ∀ p∈w.declared, p.1 < b := by
  unfold Watched.highest
  induction w.declared with
  | nil => simpa using hb
  | cons p l ih => rw [map_cons,foldr_cons,max_lt_iff,ih,forall_mem_cons]

theorem highest_step_lt_iff {b : ℕ} (hb : 0 < b) :
    (w.step i).highest < b ↔ w.highest < b ∧
      (w.aggregator.Completes i.1 i.2 → i.1.ledgerSeq < b) := by
  simp only [highest_lt_iff hb,mem_declared_step]
  constructor
  · intro h
    exact ⟨fun p hp => h p (.inl hp),fun hc => h i.1.ledger (.inr ⟨hc,rfl⟩)⟩
  · rintro ⟨hbefore,hnow⟩ p (hp | ⟨hc,rfl⟩)
    · exact hbefore p hp
    · exact hnow hc

end

/-! ## What the aggregator remembers -/

/-- What holds in every state of an orderly run: the recent declarations are remembered, the
declared sequences are those that are reached, the buckets of the open ones hold the node ids, and
no recent ledger with a quorum behind it is left out. -/
structure Watched.Inv (keys : Finset PublicKey) (m : ℕ) (w : Watched) : Prop where
  trusted : w.aggregator.trusted=some keys
  threshold : w.aggregator.minValidations=m
  positive : 0 < m
  recorded : ∀ s h, w.aggregator.validatedSeqs.lookup s=some h → (s,h)∈w.declared
  remembers : ∀ s h, (s,h)∈w.declared → w.highest < s+100 →
    (w.aggregator.validatedSeqs.lookup s).isSome
  reached : ∀ s, (∃ h, (s,h)∈w.declared) ↔ ∃ h, HasQuorum keys m w.sent (s,h)
  ids : ∀ ledger, w.highest < ledger.1+100 → (∀ h, (ledger.1,h)∉w.declared) →
    ((w.aggregator.bucket ledger).map (·.nodeId)).Nodup ∧
      ((w.aggregator.bucket ledger).map (·.nodeId)).toFinset=nodeIds keys ledger w.sent
  kept : ∀ ledger∈w.aggregator.byLedger, w.highest < ledger.1+100 ∧ ledger∈votedFor keys w.sent
  complete : ∀ ledger, (∀ h, (ledger.1,h)∉w.declared) → w.highest < ledger.1+100 →
    m ≤ (voters keys ledger w.sent).card → m ≤ (keys \ voters keys ledger w.sent).card

theorem Watched.inv_start (minValidations : ℕ) (keys : Finset PublicKey) :
    (start minValidations keys).Inv keys (max minValidations 1) where
  trusted := rfl
  threshold := rfl
  positive := lt_max_of_lt_right Nat.one_pos
  recorded := fun s h hlookup => by simp [start,new,withTrustedKeys] at hlookup
  remembers := fun s h hmem => nomatch hmem
  reached := fun s => by simp [start,HasQuorum,nodeIds]
  ids := fun ledger _ _ => ⟨nodup_nil,rfl⟩
  kept := fun ledger hmem => (AList.notMem_empty ledger hmem).elim
  complete := fun ledger _ _ hle => by simp [start,voters] at hle

theorem lookup_retain_recent {κ ν : Type} [DecidableEq κ] (seq : κ → ℕ) {currentSeq : ℕ}
    (hcur : ¬ currentSeq < 100) (map : HashMap κ ν) (k : κ) :
    (map.retain fun k _ => decide (currentSeq-100 < seq k)).lookup k =
      if currentSeq < seq k+100 then map.lookup k else none := by
  rw [HashMap.lookup_retain]
  cases map.lookup k with
  | none => exact (ite_self none).symm
  | some v =>
    by_cases hk : currentSeq < seq k+100
    · simp [Option.filter,hk,show currentSeq-100 < seq k by omega]
    · simp [Option.filter,hk,show ¬ currentSeq-100 < seq k by omega]

theorem lookup_cleanup (a : ValidationAggregator) (currentSeq : ℕ) :
    (∀ s, (a.cleanup currentSeq).validatedSeqs.lookup s =
      if currentSeq < s+100 then a.validatedSeqs.lookup s else none) ∧
    ∀ ledger, (a.cleanup currentSeq).byLedger.lookup ledger =
      if currentSeq < ledger.1+100 then a.byLedger.lookup ledger else none := by
  unfold cleanup
  split
  · rename_i h
    exact ⟨fun s => by rw [if_pos (by omega)],fun ledger => by rw [if_pos (by omega)]⟩
  · rename_i h
    exact ⟨lookup_retain_recent id h a.validatedSeqs,lookup_retain_recent Prod.fst h a.byLedger⟩

section

variable {keys : Finset PublicKey} {m : ℕ} {w : Watched} {i : Call}

theorem step_outcome (w : Watched) (i : Call) :
    Outcome w.aggregator i.1 i.2 (w.result i,(w.step i).aggregator) :=
  addValidationAt_outcome w.aggregator i.1 i.2

theorem step_settings : (w.step i).aggregator.trusted=w.aggregator.trusted ∧
    (w.step i).aggregator.minValidations=w.aggregator.minValidations := by
  have houtcome := step_outcome w i
  generalize w.result i=r,(w.step i).aggregator=a at houtcome ⊢
  cases houtcome with
  | dropped stale fresh h => exact ⟨rfl,rfl⟩
  | counted hadmits htakes h => exact ⟨rfl,rfl⟩
  | declared h =>
    unfold cleanup
    split <;> exact ⟨rfl,rfl⟩

theorem step_of_completes (hc : w.aggregator.Completes i.1 i.2) :
    (w.step i).aggregator=(w.aggregator.declared i.1).cleanup i.1.ledgerSeq := by
  have houtcome := step_outcome w i
  rw [result_eq_some_iff.mpr ⟨hc,rfl⟩] at houtcome
  generalize (w.step i).aggregator=a at houtcome ⊢
  cases houtcome
  rfl

theorem step_of_not_completes (hc : ¬ w.aggregator.Completes i.1 i.2) :
    (w.step i).aggregator.validatedSeqs=w.aggregator.validatedSeqs ∧
      (w.aggregator.Admits i.1 i.2 ∧ w.aggregator.Takes i.1 ∧
          (w.step i).aggregator.byLedger=(w.aggregator.counted i.1).byLedger ∨
        ¬ (w.aggregator.Admits i.1 i.2 ∧ w.aggregator.Takes i.1) ∧
          (w.step i).aggregator.byLedger=w.aggregator.byLedger) := by
  have houtcome := step_outcome w i
  generalize w.result i=r,(w.step i).aggregator=a at houtcome ⊢
  cases houtcome with
  | dropped stale fresh h => exact ⟨rfl,.inr ⟨h,rfl⟩⟩
  | counted hadmits htakes h => exact ⟨rfl,.inl ⟨hadmits,htakes,rfl⟩⟩
  | declared h => exact (hc h).elim

theorem lookup_step_of_completes (hc : w.aggregator.Completes i.1 i.2) (s : ℕ) :
    (w.step i).aggregator.validatedSeqs.lookup s=if i.1.ledgerSeq < s+100 then
      if s=i.1.ledgerSeq then some i.1.ledgerHash else w.aggregator.validatedSeqs.lookup s
        else none := by
  rw [step_of_completes hc,(lookup_cleanup _ _).1,ValidationAggregator.declared,
    HashMap.lookup_insert_eq]

/-- A ledger other than the call's keeps its bucket while it is recent. -/
theorem bucket_step_of_ne {ledger : ℕ × Hash256} (hne : ledger≠i.1.ledger)
    (hrecent : (w.step i).highest < ledger.1+100) :
    (w.step i).aggregator.bucket ledger=w.aggregator.bucket ledger := by
  have hcounted : (w.aggregator.counted i.1).byLedger.lookup ledger =
      w.aggregator.byLedger.lookup ledger :=
    AList.lookup_insert_ne hne
  unfold bucket
  by_cases hc : w.aggregator.Completes i.1 i.2
  · have hlt := ((highest_step_lt_iff (by omega)).mp hrecent).2 hc
    rw [step_of_completes hc,(lookup_cleanup _ _).2,if_pos hlt]
    exact congrArg (·.getD []) hcounted
  · obtain ⟨-,⟨-,-,h⟩ | ⟨-,h⟩⟩ := step_of_not_completes hc
    · rw [h,hcounted]
    · rw [h]

theorem mem_byLedger_step {ledger : ℕ × Hash256} (hmem : ledger∈(w.step i).aggregator.byLedger) :
    (ledger∈w.aggregator.byLedger ∨ ledger=i.1.ledger ∧ w.aggregator.Admits i.1 i.2) ∧
      (w.aggregator.Completes i.1 i.2 → i.1.ledgerSeq < ledger.1+100) := by
  have hcounted : ledger∈(w.aggregator.counted i.1).byLedger →
      ledger∈w.aggregator.byLedger ∨ ledger=i.1.ledger := fun h => ((AList.mem_insert _).mp h).symm
  by_cases hc : w.aggregator.Completes i.1 i.2
  · rw [← AList.lookup_isSome,step_of_completes hc,(lookup_cleanup _ _).2] at hmem
    split at hmem
    · rename_i hlt
      exact ⟨(hcounted (AList.lookup_isSome.mp hmem)).imp_right fun h => ⟨h,hc.toAdmits⟩,fun _ =>
        hlt⟩
    · cases hmem
  · refine ⟨?_,fun h => (hc h).elim⟩
    obtain ⟨-,⟨hadmits,-,h⟩ | ⟨-,h⟩⟩ := step_of_not_completes hc
    · rw [h] at hmem
      exact (hcounted hmem).imp_right fun h => ⟨h,hadmits⟩
    · rw [h] at hmem
      exact .inl hmem

section

variable (hinv : w.Inv keys m) (horderly : Orderly keys m w.sent i)
include hinv

theorem Watched.Inv.undeclared_iff {s : ℕ} :
    (∀ h, (s,h)∉w.declared) ↔ ∀ h, ¬ HasQuorum keys m w.sent (s,h) := by
  simpa using not_congr (hinv.reached s)

include horderly

theorem Watched.Inv.recent : w.highest < i.1.ledgerSeq+100 := by
  refine (highest_lt_iff (by omega)).mpr fun p hp => ?_
  obtain ⟨h,hreached⟩ := (hinv.reached p.1).mp ⟨p.2,hp⟩
  exact horderly.recent (p.1,h) ((mem_reachedLedgers hinv.positive).mpr hreached)

theorem Watched.Inv.unvalidated_iff :
    w.aggregator.validatedSeqs.lookup i.1.ledgerSeq=none ↔
      ∀ h, ¬ HasQuorum keys m w.sent (i.1.ledgerSeq,h) := by
  rw [← hinv.undeclared_iff]
  constructor
  · intro hnone h hmem
    have hsome := hinv.remembers _ h hmem (hinv.recent horderly)
    rw [hnone] at hsome
    cases hsome
  · intro hnone
    by_contra hne
    obtain ⟨h,hlookup⟩ := Option.ne_none_iff_exists'.mp hne
    exact hnone h (hinv.recorded _ _ hlookup)

theorem Watched.Inv.room : w.aggregator.byLedger.entries.length < maxBuckets := by
  refine (HashMap.length_le_card fun ledger hmem => ?_).trans_lt horderly.room
  obtain ⟨hrecent,hvoted⟩ := hinv.kept ledger hmem
  refine Finset.mem_filter.mpr ⟨hvoted,fun top htop => ?_⟩
  obtain ⟨h,hdeclared⟩ :=
    (hinv.reached top.1).mpr ⟨top.2,(mem_reachedLedgers hinv.positive).mp htop⟩
  exact (highest_lt_iff (by omega)).mp hrecent (top.1,h) hdeclared

/-- A call is counted exactly when it adds a node id at an open sequence. -/
theorem Watched.Inv.takes_iff (hopen : ∀ h, ¬ HasQuorum keys m w.sent (i.1.ledgerSeq,h)) :
    w.aggregator.Takes i.1 ↔ i.1.nodeId∉nodeIds keys i.1.ledger w.sent := by
  have hids := (hinv.ids i.1.ledger (hinv.recent horderly) (hinv.undeclared_iff.mpr hopen)).2
  rw [← hids]
  simp only [mem_toFinset,mem_map,not_exists,not_and]
  exact ⟨fun h => h.new,fun h => ⟨.inl (hinv.room horderly),h⟩⟩

theorem Watched.Inv.completes_iff : w.aggregator.Completes i.1 i.2 ↔
    (∀ h, ¬ HasQuorum keys m w.sent (i.1.ledgerSeq,h)) ∧
      HasQuorum keys m (w.sent++[i]) i.1.ledger := by
  constructor
  · intro hc
    have hopen := (hinv.unvalidated_iff horderly).mp hc.unvalidated
    have hnew := (hinv.takes_iff horderly hopen).mp hc.toTakes
    obtain ⟨hnodup,hids⟩ := hinv.ids i.1.ledger (hinv.recent horderly)
      (hinv.undeclared_iff.mpr hopen)
    have hvoter := ((admits_iff hinv.trusted).mp hc.toAdmits).2
    refine ⟨hopen,?_⟩
    have henough := hc.enough
    rw [hinv.threshold] at henough
    rw [HasQuorum,nodeIds_append,if_pos hvoter,Finset.card_insert_of_notMem hnew,← hids,
      toFinset_card_of_nodup hnodup,length_map]
    exact henough
  · rintro ⟨hopen,hreached⟩
    obtain ⟨hnodup,hids⟩ := hinv.ids i.1.ledger (hinv.recent horderly)
      (hinv.undeclared_iff.mpr hopen)
    have hbefore : ¬ HasQuorum keys m w.sent i.1.ledger := hopen _
    rw [HasQuorum,nodeIds_append] at hreached
    split at hreached
    · rename_i hvoter
      have hnew : i.1.nodeId∉nodeIds keys i.1.ledger w.sent := fun hmem => by
        rw [Finset.insert_eq_of_mem hmem] at hreached
        exact hbefore hreached
      refine ⟨(admits_iff hinv.trusted).mpr ⟨(hinv.unvalidated_iff horderly).mpr hopen,hvoter⟩,
        (hinv.takes_iff horderly hopen).mpr hnew,?_⟩
      rwa [hinv.threshold,← length_map (·.nodeId),← toFinset_card_of_nodup hnodup,hids,
        ← Finset.card_insert_of_notMem hnew]
    · exact (hbefore hreached).elim

theorem Watched.Inv.reached_step (s : ℕ) :
    (∃ h, (s,h)∈(w.step i).declared) ↔ ∃ h, HasQuorum keys m (w.sent++[i]) (s,h) := by
  have hother : ∀ ledger, i.1.ledger≠ledger →
    (HasQuorum keys m (w.sent++[i]) ledger ↔ HasQuorum keys m w.sent ledger) :=
    fun ledger hne => by rw [HasQuorum,nodeIds_append_of_ne hne,HasQuorum]
  have hmono : ∀ ledger, HasQuorum keys m w.sent ledger → HasQuorum keys m (w.sent++[i]) ledger :=
    fun ledger h =>
    h.trans (Finset.card_le_card (nodeIds_subset keys ledger w.sent i))
  simp only [mem_declared_step]
  constructor
  · rintro ⟨h,hmem | ⟨hc,he⟩⟩
    · obtain ⟨h',hreached⟩ := (hinv.reached s).mp ⟨h,hmem⟩
      exact ⟨h',hmono _ hreached⟩
    · exact ⟨h,he ▸ ((hinv.completes_iff horderly).mp hc).2⟩
  · rintro ⟨h,hreached⟩
    by_cases hdeclared : ∃ h, (s,h)∈w.declared
    · exact hdeclared.imp fun _ => .inl
    have hbefore : ∀ h, ¬ HasQuorum keys m w.sent (s,h) := fun h hr =>
      hdeclared ((hinv.reached s).mpr ⟨h,hr⟩)
    -- a ledger that was not reached before is the call's own
    have hledger : i.1.ledger=(s,h) := by
      by_contra hne
      exact hbefore h ((hother _ hne).mp hreached)
    have hs : i.1.ledgerSeq=s := congrArg Prod.fst hledger
    exact ⟨h,
      .inr ⟨(hinv.completes_iff horderly).mpr ⟨hs ▸ hbefore,hledger ▸ hreached⟩,hledger.symm⟩⟩

theorem Watched.Inv.ids_step (ledger : ℕ × Hash256) (hrecent : (w.step i).highest < ledger.1+100)
    (hopen : ∀ h, (ledger.1,h)∉(w.step i).declared) :
    (((w.step i).aggregator.bucket ledger).map (·.nodeId)).Nodup ∧
      (((w.step i).aggregator.bucket ledger).map (·.nodeId)).toFinset =
        nodeIds keys ledger (w.sent++[i]) := by
  have hopen' : ∀ h, (ledger.1,h)∉w.declared := fun h hmem =>
    hopen h (mem_declared_step.mpr (.inl hmem))
  obtain ⟨hnodup,hids⟩ := hinv.ids ledger ((highest_step_lt_iff (by omega)).mp hrecent).1 hopen'
  by_cases hne : ledger=i.1.ledger
  swap
  · rw [bucket_step_of_ne hne hrecent,nodeIds_append_of_ne (Ne.symm hne)]
    exact ⟨hnodup,hids⟩
  subst hne
  have hc : ¬ w.aggregator.Completes i.1 i.2 := fun hc =>
    hopen _ (mem_declared_step.mpr (.inr ⟨hc,rfl⟩))
  have hreached := hinv.undeclared_iff.mp hopen'
  have hadmits : w.aggregator.Admits i.1 i.2 ↔ (voter keys i.1.ledger i).isSome := by
    rw [admits_iff hinv.trusted,hinv.unvalidated_iff horderly]
    exact and_iff_right hreached
  have htakes := hinv.takes_iff horderly hreached
  rw [nodeIds_append]
  obtain ⟨-,⟨ha,ht,h⟩ | ⟨hdrop,h⟩⟩ := step_of_not_completes hc
  · have hbucket : (w.step i).aggregator.bucket i.1.ledger=w.aggregator.bucket
      i.1.ledger++[i.1] := by
      rw [bucket,h,counted,AList.lookup_insert]
      rfl
    have hnew := htakes.mp ht
    rw [hbucket,map_append,if_pos (hadmits.mp ha),toFinset_append,hids]
    refine ⟨hnodup.append (nodup_singleton _) ?_,by simp [Finset.union_comm]⟩
    rw [← hids,mem_toFinset] at hnew
    simpa using hnew
  · have hbucket : (w.step i).aggregator.bucket i.1.ledger=w.aggregator.bucket i.1.ledger := by
      rw [bucket,h,bucket]
    rw [hbucket]
    refine ⟨hnodup,hids.trans ?_⟩
    split
    · rename_i hvoter
      have hmem : i.1.nodeId∈nodeIds keys i.1.ledger w.sent := by
        by_contra hnew
        exact hdrop ⟨hadmits.mpr hvoter,htakes.mpr hnew⟩
      exact (Finset.insert_eq_of_mem hmem).symm
    · rfl

theorem Watched.Inv.step (hexact : QuorumExact keys w i) : (w.step i).Inv keys m := by
  have hset := step_settings (w := w) (i := i)
  refine ⟨hset.1.trans hinv.trusted,hset.2.trans hinv.threshold,hinv.positive,fun s h hlookup =>
    ?_,fun s h hmem hrecent => ?_,
    hinv.reached_step horderly,hinv.ids_step horderly,fun ledger hmem =>
      ?_,fun ledger hnone hrecent hle => ?_⟩
  · rw [mem_declared_step]
    by_cases hc : w.aggregator.Completes i.1 i.2
    · rw [lookup_step_of_completes hc] at hlookup
      split at hlookup
      · split at hlookup
        · rename_i hs
          cases hlookup
          exact .inr ⟨hc,by rw [hs,NetValidation.ledger]⟩
        · exact .inl (hinv.recorded s h hlookup)
      · cases hlookup
    · rw [(step_of_not_completes hc).1] at hlookup
      exact .inl (hinv.recorded s h hlookup)
  · obtain ⟨hbefore,hnow⟩ := (highest_step_lt_iff (by omega)).mp hrecent
    by_cases hc : w.aggregator.Completes i.1 i.2
    · rw [lookup_step_of_completes hc,if_pos (hnow hc)]
      split
      · rfl
      rename_i hne
      obtain hmem | ⟨-,he⟩ := mem_declared_step.mp hmem
      · exact hinv.remembers s h hmem hbefore
      · exact (hne (congrArg Prod.fst he)).elim
    · rw [(step_of_not_completes hc).1]
      exact hinv.remembers s h ((mem_declared_step.mp hmem).resolve_right fun h => hc h.1) hbefore
  · obtain ⟨hmem | ⟨rfl,hadmits⟩,hnow⟩ := mem_byLedger_step hmem
    · obtain ⟨hbefore,hvoted⟩ := hinv.kept ledger hmem
      exact ⟨(highest_step_lt_iff (by omega)).mpr ⟨hbefore,hnow⟩,
        votedFor_subset keys w.sent i hvoted⟩
    · refine ⟨(highest_step_lt_iff (by omega)).mpr ⟨hinv.recent horderly,hnow⟩,mem_votedFor ?_⟩
      exact ((admits_iff hinv.trusted).mp hadmits).2
  · by_contra hminority
    have hbefore : ∀ h, (ledger.1,h)∉w.declared := fun h hmem =>
      hnone h (mem_declared_step.mpr (.inl hmem))
    obtain ⟨out,hr,hout⟩ :=
      hexact.complete ledger hbefore ((highest_step_lt_iff (by omega)).mp hrecent).1
      (hinv.threshold ▸ hle) (hinv.threshold ▸ not_le.mp hminority)
    obtain ⟨hc,rfl⟩ := result_eq_some_iff.mp hr
    exact hnone ledger.2 (mem_declared_step.mpr (.inr ⟨hc,hout.symm⟩))

/-- In a state of an orderly run, a call keeps the quorum exact exactly when the node ids and the
validators agree about its ledger. -/
theorem Watched.Inv.quorumExact_iff : QuorumExact keys w i ↔ CountsAgree keys m w.sent i := by
  have hcompletes := hinv.completes_iff horderly
  have hresult : w.aggregator.Completes i.1 i.2 →
      w.result i=some ⟨i.1.ledgerHash,i.1.ledgerSeq,(w.aggregator.bucket i.1.ledger).length+1⟩ :=
        fun hc =>
    result_eq_some_iff.mpr ⟨hc,rfl⟩
  have hmin := hinv.threshold
  constructor
  · intro h
    refine ⟨fun hopen hreached => ?_,fun hopen hle hminority => ?_⟩
    · exact hmin ▸ h.sound _ (hresult (hcompletes.mpr ⟨hopen,hreached⟩))
    · obtain ⟨out,hr,-⟩ := h.complete i.1.ledger (hinv.undeclared_iff.mpr hopen)
        (hinv.recent horderly)
        (hmin ▸ hle) (hmin ▸ hminority)
      exact (hcompletes.mp (result_eq_some_iff.mp hr).1).2
  · intro h
    refine ⟨fun out hr => ?_,fun out hr hash hmem =>
      ?_,fun ledger hundeclared hrecent hle hminority => ?_⟩
    · obtain ⟨hc,rfl⟩ := result_eq_some_iff.mp hr
      obtain ⟨hopen,hreached⟩ := hcompletes.mp hc
      exact hmin ▸ h.ids hopen hreached
    · obtain ⟨hc,rfl⟩ := result_eq_some_iff.mp hr
      exact (hinv.undeclared_iff.mpr (hcompletes.mp hc).1 hash hmem).elim
    · rw [hmin] at hle hminority
      cases hv : voter keys ledger i with
      | none =>
        rw [voters_step_of_none hv] at hle hminority
        have := hinv.complete ledger hundeclared hrecent hle
        omega
      | some pk =>
        have hledger : i.1.ledger=ledger := voter_ledger (by rw [hv]; rfl)
        subst hledger
        have hopen := hinv.undeclared_iff.mp hundeclared
        exact ⟨_,hresult (hcompletes.mpr ⟨hopen,h.validators hopen hle hminority⟩),rfl⟩

end

end

/-- A call whose node id is new for its ledger exactly when its validator is. -/
def OneId (keys : Finset PublicKey) (sent : List Call) (i : Call) : Prop :=
  ∀ pk∈voter keys i.1.ledger i, i.1.nodeId∈nodeIds keys i.1.ledger sent ↔
    pk∈voters keys i.1.ledger sent

instance (keys : Finset PublicKey) (sent : List Call) (i : Call) :
    Decidable (OneId keys sent i) := by
  unfold OneId
  infer_instance

theorem card_nodeIds_append {keys : Finset PublicKey} {sent : List Call} {i : Call}
    (hone : OneId keys sent i)
    (hcard : ∀ ledger, (nodeIds keys ledger sent).card=(voters keys ledger sent).card)
    (ledger : ℕ × Hash256) :
    (nodeIds keys ledger (sent++[i])).card=(voters keys ledger (sent++[i])).card := by
  rw [nodeIds_append,voters_append]
  cases hv : voter keys ledger i with
  | none => simpa using hcard ledger
  | some pk =>
    obtain rfl := voter_ledger (by rw [hv]; rfl)
    have hnew := hone pk hv
    rw [Option.isSome_some,if_pos rfl,Option.toList_some,toFinset_cons,toFinset_nil,insert_empty_eq,
      Finset.union_comm,
      ← Finset.insert_eq]
    by_cases hmem : pk∈voters keys i.1.ledger sent
    · rw [Finset.insert_eq_of_mem hmem,Finset.insert_eq_of_mem (hnew.mpr hmem),hcard]
    · rw [Finset.card_insert_of_notMem hmem,Finset.card_insert_of_notMem (hnew.not.mpr hmem),hcard]

/-- No validator behind two node ids of a ledger and no two behind one: the counts agree at every
call. -/
theorem countsAgree_of_oneId {keys : Finset PublicKey} {m : ℕ} {calls : List Call}
    (hone : InputRun.Along (fun sent i => sent++[i]) (OneId keys) [] calls) :
    InputRun.Along (fun sent i => sent++[i]) (CountsAgree keys m) [] calls := by
  refine InputRun.along_of_along
    (fun sent => ∀ ledger, (nodeIds keys ledger sent).card=(voters keys ledger sent).card)
      (fun _ => True)
    (fun sent i hcard _ h => ?_) (fun _ => rfl) (fun _ _ => trivial) hone
  have hnext := card_nodeIds_append h hcard
  refine ⟨⟨fun _ hreached => ?_,fun _ hle _ => ?_⟩,hnext⟩
  · exact (hnext _).symm ▸ hreached
  · rw [HasQuorum,hnext]
    exact hle

/-! ## Runs that break the quorum -/

private def validatorKey (n : UInt8) : PublicKey := ⟨List.replicate 32 0++[n],by simp⟩

private def numberedHash (n : ℕ) : Hash256 :=
    ⟨List.replicate 30 0++[UInt8.ofNat (n/256),UInt8.ofNat n],by simp⟩

/-- A full validation at time 1000 by a validator, with the signing key that has the node id. -/
private def vote (validator : UInt8) (node seq n : ℕ) : Call :=
  (⟨⟨⟨numberedHash node⟩,0xED::(numberedHash node).asBytes,numberedHash n,seq,true,1000,1000⟩,
    some (validatorKey validator).asBytes⟩,1000)

private def threeKeys : Finset PublicKey := {validatorKey 1, validatorKey 2, validatorKey 3}

/-- Three validators with one node id each: the second vote declares ledger 7 at sequence 5, the
vote for another one comes late, and ledger 1 at sequence 6 is declared next. -/
private def threeVotes : List Call :=
    [vote 1 1 5 7,vote 2 2 5 7,vote 3 3 5 8,vote 3 3 6 1,vote 2 2 6 1]

private def crowd (n : ℕ) : List Call := (List.range n).map fun m => vote 3 3 5 m

variable {n : ℕ} {w : Watched}

private theorem numberedHash_ne {m : ℕ} (hm : m < 65536) (hn : n < 65536) (hne : m≠n) :
    numberedHash m≠numberedHash n := by
  intro he
  have hbytes : [UInt8.ofNat (m/256),UInt8.ofNat m]=[UInt8.ofNat (n/256),UInt8.ofNat n] :=
    append_cancel_left (congrArg Hash256.asBytes he)
  simp only [cons.injEq,and_true] at hbytes
  have hhigh := congrArg UInt8.toNat hbytes.1
  have hlow := congrArg UInt8.toNat hbytes.2
  simp only [UInt8.toNat_ofNat'] at hhigh hlow
  omega

/-- What the crowd leaves behind: a bucket for each of its votes, and nothing declared. -/
private structure Crowded (n : ℕ) (w : Watched) : Prop where
  length : w.aggregator.byLedger.entries.length=n
  validated : w.aggregator.validatedSeqs=∅
  trusted : w.aggregator.trusted=some threeKeys
  minValidations : w.aggregator.minValidations=2
  buckets : ∀ ledger∈w.aggregator.byLedger, ∃ m < n, ledger=(5,numberedHash m)
  declared : w.declared=[]

private theorem crowded_of_not_completes {m : ℕ} {i : Call} (h : Crowded n w)
    (hc : ¬ w.aggregator.Completes i.1 i.2)
    (hlength : (w.step i).aggregator.byLedger.entries.length=m)
    (hbuckets : ∀ ledger∈(w.step i).aggregator.byLedger, ∃ k < m, ledger=(5,numberedHash k)) :
    Crowded m (w.step i) := by
  refine ⟨hlength,(step_of_not_completes hc).1.trans h.validated,step_settings.1.trans h.trusted,
    step_settings.2.trans h.minValidations,hbuckets,eq_nil_iff_forall_not_mem.mpr fun p hp => ?_⟩
  obtain hp | ⟨hc',-⟩ := mem_declared_step.mp hp
  · rw [h.declared] at hp
    cases hp
  · exact hc hc'

private theorem crowded_step (h : Crowded n w) (hn : n < maxBuckets) :
    Crowded (n+1) (w.step (vote 3 3 5 n)) := by
  have hfresh : (5,numberedHash n)∉w.aggregator.byLedger := by
    intro hmem
    obtain ⟨m,hm,he⟩ := h.buckets _ hmem
    rw [maxBuckets] at hn
    exact numberedHash_ne (by omega) (by omega) (by omega : n≠m) (congrArg Prod.snd he)
  have hbucket : w.aggregator.bucket (5,numberedHash n)=[] := by
    rw [bucket,AList.lookup_eq_none.mpr hfresh]
    rfl
  have hadmits : w.aggregator.Admits (vote 3 3 5 n).1 1000 := by
    refine ⟨by rw [h.validated]; rfl,rfl,rfl,?_⟩
    rw [isTrusted,h.trusted]
    rfl
  have htakes : w.aggregator.Takes (vote 3 3 5 n).1 := by
    refine ⟨.inl (h.length ▸ hn),fun v hv => ?_⟩
    have hv' : v∈w.aggregator.bucket (5,numberedHash n) := hv
    rw [hbucket] at hv'
    cases hv'
  have hc : ¬ w.aggregator.Completes (vote 3 3 5 n).1 1000 := fun hc => by
    have henough := hc.enough
    rw [h.minValidations,show w.aggregator.bucket (vote 3 3 5 n).1.ledger=[] from hbucket]
      at henough
    simp at henough
  obtain ⟨-,⟨-,-,hby⟩ | ⟨hdrop,-⟩⟩ := step_of_not_completes (i := vote 3 3 5 n) hc
  swap
  · exact (hdrop ⟨hadmits,htakes⟩).elim
  refine crowded_of_not_completes h hc ?_ fun ledger hmem => ?_
  · rw [hby]
    change (w.aggregator.byLedger.insert (5,numberedHash n) _).entries.length=n+1
    rw [HashMap.length_insert_of_notMem hfresh,h.length]
  rw [hby] at hmem
  obtain rfl | hmem := (AList.mem_insert _).mp hmem
  · exact ⟨n,by omega,rfl⟩
  · obtain ⟨m,hm,he⟩ := h.buckets ledger hmem
    exact ⟨m,by omega,he⟩

private theorem crowded_crowd (hn : n ≤ maxBuckets) :
    Crowded n ((crowd n).foldl Watched.step (.start 2 threeKeys)) := by
  induction n with
  | zero => exact ⟨rfl,rfl,rfl,rfl,fun ledger hmem => (AList.notMem_empty ledger hmem).elim,rfl⟩
  | succ n ih =>
    rw [crowd,range_succ,map_append,foldl_append]
    exact crowded_step (ih (by omega)) (by omega)

private theorem crowded_drops {full : ℕ} (hfull : full=maxBuckets) (h : Crowded full w)
    (validator : UInt8) (node n : ℕ) :
    Crowded full (w.step (vote validator node 6 n)) ∧
      w.result (vote validator node 6 n)=none := by
  have hrefused : ¬ w.aggregator.Takes (vote validator node 6 n).1 := by
    rintro ⟨hroom | hsome,-⟩
    · rw [h.length] at hroom
      omega
    · obtain ⟨m,-,he⟩ := h.buckets _ (AList.lookup_isSome.mp hsome)
      cases he
  have hc : ¬ w.aggregator.Completes (vote validator node 6 n).1 1000 := fun hc =>
    hrefused hc.toTakes
  refine ⟨?_,Option.eq_none_iff_forall_ne_some.mpr fun out hr => hc (result_eq_some_iff.mp hr).1⟩
  obtain ⟨-,⟨-,htakes,-⟩ | ⟨-,hby⟩⟩ := step_of_not_completes (i := vote validator node 6 n) hc
  · exact (hrefused htakes).elim
  · exact crowded_of_not_completes h hc (hby ▸ h.length) (hby ▸ h.buckets)

/-- One validator that votes for as many ledgers as there is room for keeps two others from
declaring one. -/
private theorem crowd_blocks (hn : n=maxBuckets) :
    ¬ InputRun.Along Watched.step (QuorumExact threeKeys) (.start 2 threeKeys)
      (crowd n++[vote 1 1 6 0,vote 2 2 6 0]) := by
  intro h
  have hcrowd := crowded_crowd hn.le
  have hlast := (InputRun.along_append.mp h).2.2.1
  set w := (crowd n).foldl Watched.step (.start 2 threeKeys)
  obtain ⟨hcrowd',-⟩ := crowded_drops hn hcrowd 1 1 0
  obtain ⟨-,hnone⟩ := crowded_drops hn hcrowd' 2 2 0
  have hvoters : ({validatorKey 1, validatorKey 2} : Finset PublicKey) ⊆
      voters threeKeys (6,numberedHash 0) ((w.step (vote 1 1 6 0)).sent++[vote 2 2 6 0]) := by
    have h₁ : voter threeKeys (6,numberedHash 0) (vote 1 1 6 0)=some (validatorKey 1) := by decide
    have h₂ : voter threeKeys (6,numberedHash 0) (vote 2 2 6 0)=some (validatorKey 2) := by decide
    rw [voters_append,Watched.step,voters_append,h₁,h₂]
    intro k hk
    simp only [Finset.mem_insert,Finset.mem_singleton] at hk
    obtain rfl | rfl := hk <;> simp
  have hcard :
    2 ≤ (voters threeKeys (6,numberedHash 0) ((w.step (vote 1 1 6 0)).sent++[vote 2 2 6 0])).card :=
    (show 2 ≤ ({validatorKey 1, validatorKey 2} : Finset PublicKey).card by decide).trans
      (Finset.card_le_card hvoters)
  have hrest :
    (threeKeys \ voters threeKeys (6,numberedHash 0)
    ((w.step (vote 1 1 6 0)).sent++[vote 2 2 6 0])).card < 2 :=
    (Finset.card_le_card (Finset.sdiff_subset_sdiff (le_refl threeKeys) hvoters)).trans_lt
      (by decide)
  obtain ⟨out,hout,-⟩ := hlast.complete (6,numberedHash 0)
    (fun hash hmem => by rw [hcrowd'.declared] at hmem; cases hmem)
    (by rw [Watched.highest,hcrowd'.declared]; decide) (hcrowd'.minValidations ▸ hcard)
      (hcrowd'.minValidations ▸ hrest)
  rw [hnone] at hout
  cases hout

end Rxrpl.Consensus
