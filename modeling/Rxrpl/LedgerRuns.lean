import Rxrpl.InputRuns
import Rxrpl.EngineInvariants

/-!
# Runs of transactions over a ledger

A ledger takes transactions one after another, at the times that its headers tell and under the
rules and fees then in force. A transaction is stopped, it is claimed and only charged, or its
transactor has run in a sandbox over the charge. The transactors of escrows and payment channels are
collected in one table.
-/

namespace Rxrpl.Tx

open Codec (AccountId)

/-! ## Submissions -/

/-- A transaction with the header of the ledger it goes into and the rules and fees in force. -/
structure Submission where
  header : LedgerHeader
  tx : Json
  rules : Rules
  fees : FeeSettings

namespace Submission

variable (env : Env) (engine : TxEngine)

def opened (sub : Submission) (l : Ledger) : Ledger := { l with header := sub.header }

/-- `TxEngine::apply` on the ledger at that time. -/
def apply (sub : Submission) (l : Ledger) : Stop × Ledger :=
  Tx.apply env engine sub.tx (sub.opened l) sub.rules sub.fees

end Submission

def ledgerStep (env : Env) (engine : TxEngine) (l : Ledger) (sub : Submission) : Ledger :=
    (sub.apply env engine l).2

/-- A transactor that does not fail with the code of a success. -/
structure Transactor.Honest (t : Transactor) : Prop where
  preflight : ∀ tx rules fees, t.preflight tx rules fees≠.error .tesSuccess
  preclaim : ∀ tx view rules, t.preclaim tx view rules≠.error .tesSuccess
  apply : ∀ (below : ReadView) tx rules fees,
    ViewM.Honest (t.apply tx rules fees : ViewM below TransactionResult)

/-- A transaction of a type that runs by itself, whose transactor keeps to the codes. -/
structure Ordinary (engine : TxEngine) (tx : Json) (txType : TransactionType) (t : Transactor) :
    Prop where
  transactor : transactorOf engine tx=some (txType,t)
  notPseudo : txType.isPseudo=false
  notBatch : txType≠.batchSubmit
  lawful : t.Lawful
  honest : t.Honest

/-! ## What becomes of a submission -/

/-- What a transaction does to a ledger and what is returned. -/
inductive Fate (env : Env) (t : Transactor) (txType : TransactionType) (tx : Json) (l : Ledger)
    (rules : Rules) (fees : FeeSettings) : Stop → Ledger → Prop
  | stopped {r : Stop} (hr : r≠.ok .tesSuccess) : Fate env t txType tx l rules fees r l
  | claimed {l' : Ledger} (o : Outcome (l.view fees))
      (charged : Charged env tx (l.view fees) rules o.sandbox)
      (committed : Committed env txType tx l o l') (hr : o.result≠.tesSuccess) :
    Fate env t txType tx l rules fees (.ok o.result) l'
  | applied {l' : Ledger} (s : Sandbox (l.view fees)) (child : Sandbox s.toReadView)
      (o : Outcome (l.view fees)) (preflight : t.preflight tx rules fees=.ok ())
      (preclaim : t.preclaim tx (l.view fees) rules=.ok ())
      (proxy : checkSeqProxy env.crypto tx (l.view fees)=.ok ())
      (charged : Charged env tx (l.view fees) rules s)
      (run : t.apply tx rules fees s.child=.ok (.tesSuccess,child))
      (sandbox : o.sandbox=s.mergeChild child) (committed : Committed env txType tx l o l') :
    Fate env t txType tx l rules fees (.ok .tesSuccess) l'

section

variable {env : Env} {engine : TxEngine} {tx : Json} {txType : TransactionType} {t : Transactor}
  {rules : Rules} {fees : FeeSettings}

theorem gates_ok_some {view : ReadView} {tapRetry : Bool} {r : TransactionResult}
    (h : gates env engine t txType tx view rules fees tapRetry=.ok (some r)) :
      t.preclaim tx view rules=.error r := by
  obtain ⟨u,-,h⟩ := bind_ok h
  split at h
  · cases h
  split at h
  · cases h
  obtain ⟨u,-,h⟩ := bind_ok h
  split at h
  · cases h
  rename_i hclaim
  split at h
  · split at h <;> cases h
    exact hclaim
  · cases h

/-- An ordinary transaction on an open ledger is stopped, only charged, or run over the charge. -/
theorem apply_fate {l : Ledger} (hord : Ordinary engine tx txType t) (hopen : l.isOpen=true) :
    Fate env t txType tx l rules fees (apply env engine tx l rules fees).1
      (apply env engine tx l rules fees).2 := by
  have happly : apply env engine tx l rules fees =
      applyWith env engine t txType tx l rules fees false :=
    applyInner_of_transactorOf hord.transactor l rules fees false
  rw [happly]
  generalize hout : applyWith env engine t txType tx l rules fees false=out
  obtain ⟨r,l'⟩ := out
  have hp := hord.notPseudo
  obtain ⟨r',hg,rfl,rfl⟩ | ⟨pre,hg,he,rfl⟩ | ⟨e,rfl,rfl⟩ | ⟨pre,o,hg,he,rfl,hc⟩ :=
    applyWith_cases hopen hout
  · refine .stopped fun hr => ?_
    cases hr
    exact hord.honest.preflight _ _ _ (gates_error_claimed rfl hg)
  · refine .stopped fun hr => ?_
    subst hr
    exact nomatch (execute_error_claimed hp rfl he).1
  · exact .stopped fun hr => nomatch hr
  obtain ⟨hpre,hseq,hclaim⟩ := gates_ok hp hg
  unfold execute at he
  rw [hp] at he
  obtain ⟨s,hs,he⟩ := bind_ok he
  have hcharged : Charged env tx (l.view fees) rules s := by simpa [Charged] using hs
  cases pre with
  | some c =>
    cases he
    refine .claimed ⟨c,s,none⟩ hcharged hc fun hr => ?_
    have hc : c=.tesSuccess := hr
    exact hord.honest.preclaim _ _ _ (hc ▸ gates_ok_some hg)
  | none =>
    obtain ⟨child,hrun,hr,hsb,-⟩ | ⟨hsb,hr,-⟩ | ⟨-,-,hrun⟩ := runHandler_ok hord.lawful he
    · rw [hr]
      rw [handler,if_neg hord.notBatch] at hrun
      exact .applied s child o hpre (hclaim rfl) hseq hcharged hrun hsb hc
    · exact .claimed o (hsb ▸ hcharged) hc fun hsucc => by rw [hsucc] at hr; cases hr
    · rw [handler,if_neg hord.notBatch] at hrun
      exact (hord.honest.apply _ _ _ _ _ hrun).elim

theorem Fate.isOpen {l l' : Ledger} {r : Stop} (h : Fate env t txType tx l rules fees r l')
    (hopen : l.isOpen=true) : l'.isOpen=true := by
  cases h with
  | stopped hr => exact hopen
  | claimed o hcharged hc hr => rwa [Ledger.isOpen,hc.state]
  | applied s child o hpre hpreclaim hproxy hcharged hrun hsandbox hc =>
    rwa [Ledger.isOpen,hc.state]

end

/-! ## Escrows and payment channels -/

def lockTransactor (crypto : Crypto) : TransactionType → Option Transactor
  | .escrowCreate => some (escrowCreate crypto)
  | .escrowFinish => some (escrowFinish crypto)
  | .escrowCancel => some (escrowCancel crypto)
  | .paymentChannelCreate => some (payChannelCreate crypto)
  | .paymentChannelFund => some (payChannelFund crypto)
  | .paymentChannelClaim => some (payChannelClaim crypto)
  | _ => none

theorem getXrpAmount_lt {v : Json} {n : ℕ} (h : getXrpAmount v=some n) : n < 2^64 := by
  obtain ⟨t,-,ht⟩ := Option.bind_eq_some_iff.mp h
  exact parseU64_lt ht

section

variable (crypto : Crypto) {below : ReadView} (tx : Json) (view : ReadView)

open ViewM

-- a program of many steps has an instance of that size
set_option synthInstance.maxSize 1024

instance : HonestCheck (getDestination tx) := by
  unfold getDestination
  split <;> infer_instance

instance (address : String) : HonestCheck (readAccountByAddress crypto view address) := by
  unfold readAccountByAddress
  infer_instance

instance (root : Hash256) (entryHex : String) (describe : List (String × Json)) (lastPage : ℕ)
    (rootPage node : Json) :
    IsHonest (appendPage crypto root entryHex describe lastPage rootPage node : ViewM below ℕ) := by
  unfold appendPage
  infer_instance

instance (root : Hash256) (lastPage : ℕ) (rootPage : Json) :
    IsHonest (readLastPage crypto root lastPage rootPage : ViewM below Json) := by
  unfold readLastPage
  infer_instance

instance (id : AccountId) (entry : Hash256) :
    IsHonest (addToOwnerDir crypto id entry : ViewM below ℕ) := by
  refine .bind inferInstance fun _ => .bind inferInstance fun bytes => ?_
  split <;> infer_instance

instance (src dst : AccountId) (entry : Hash256) :
    IsHonest (linkDestination crypto src dst entry : ViewM below (Option ℕ)) := by
  unfold linkDestination
  infer_instance

instance (src dst : AccountId) : IsHonest (touchDestination crypto src dst : ViewM below Unit) := by
  unfold touchDestination
  infer_instance

instance (src dst : AccountId) (entry : Hash256) :
    IsHonest (unlinkDestination crypto src dst entry : ViewM below Unit) := by
  unfold unlinkDestination removeFromOwnerDirKeepRoot
  infer_instance

instance : HonestCheck (escrowTarget crypto tx) := by
  unfold escrowTarget
  infer_instance

instance : HonestCheck (readEscrow crypto tx view) := by
  unfold readEscrow
  infer_instance

instance : HonestCheck (parseChannel tx) := by
  unfold parseChannel
  infer_instance

instance : HonestCheck (readChannel tx view) := by
  unfold readChannel
  infer_instance

variable {t : Transactor} {txType : TransactionType}

theorem Transactor.Honest.of (hpreflight : ∀ tx rules fees, HonestCheck (t.preflight tx rules fees))
    (hpreclaim : ∀ tx view rules, HonestCheck (t.preclaim tx view rules))
    (happly : ∀ (below : ReadView) tx rules fees,
      IsHonest (t.apply tx rules fees : ViewM below TransactionResult)) :
    t.Honest :=
  ⟨fun _ _ _ => (hpreflight _ _ _).ne,fun _ _ _ => (hpreclaim _ _ _).ne,fun _ _ _ _ =>
    (happly _ _ _ _).out⟩

theorem escrowCreate_honest : (escrowCreate crypto).Honest := by
  refine .of (fun tx _ _ => .bind inferInstance fun _ => ?_)
    (fun tx view _ => .bind inferInstance fun _ => .bind inferInstance fun _ =>
      .bind inferInstance fun _ => ?_)
    fun _ tx _ fees => by dsimp only [escrowCreate,escrowCreateApply]; infer_instance
  · split
    · infer_instance
    · refine .bind inferInstance fun _ => ?_
      split
      · infer_instance
      · split <;> infer_instance
  · split <;> infer_instance

instance (dst : AccountId) (destinationStr : String) (amount : ℕ) :
    IsHonest (creditOrCreate crypto dst destinationStr amount : ViewM below Unit) :=
  .bind inferInstance fun _ => by split <;> infer_instance

instance (id : AccountId) (entry : Hash256) :
    IsHonest (removeFromOwnerDirKeepRoot crypto id entry : ViewM below Unit) := by
  unfold removeFromOwnerDirKeepRoot
  infer_instance

theorem escrowFinish_honest : (escrowFinish crypto).Honest := by
  refine .of (fun tx _ _ => ?_)
    (fun tx view _ => .bind inferInstance fun _ => by split <;> infer_instance) fun _ tx _ _ => ?_
  · dsimp only [escrowFinish,escrowFinishPreflight]
    infer_instance
  · dsimp only [escrowFinish,escrowFinishApply]
    infer_instance

instance (owner : AccountId) (escrow : Json) (entry : Hash256) :
    IsHonest (unlinkNamed crypto owner escrow entry : ViewM below Unit) := by
  unfold unlinkNamed
  split <;> infer_instance

theorem escrowCancel_honest : (escrowCancel crypto).Honest := by
  refine .of (fun tx _ _ => ?_) (fun tx view _ => ?_) fun _ tx _ _ => ?_
  · dsimp only [escrowCancel,escrowCancelPreflight]
    infer_instance
  · dsimp only [escrowCancel,escrowCancelPreclaim]
    infer_instance
  · dsimp only [escrowCancel,escrowCancelApply]
    infer_instance

theorem payChannelCreate_honest : (payChannelCreate crypto).Honest := by
  refine .of (fun tx _ _ => ?_) (fun tx view _ => ?_) fun _ tx _ _ => ?_
  · dsimp only [payChannelCreate,payChannelCreatePreflight]
    infer_instance
  · dsimp only [payChannelCreate,payChannelCreatePreclaim]
    infer_instance
  · dsimp only [payChannelCreate,payChannelCreateApply]
    infer_instance

theorem payChannelFund_honest : (payChannelFund crypto).Honest := by
  refine .of (fun tx _ _ => ?_) (fun tx view _ => ?_) fun _ tx _ _ => ?_
  · dsimp only [payChannelFund,payChannelFundPreflight]
    infer_instance
  · dsimp only [payChannelFund,payChannelFundPreclaim]
    infer_instance
  · dsimp only [payChannelFund,payChannelFundApply]
    infer_instance

instance (channel : Json) (chAmount : ℕ) : HonestCheck (claimBalance tx channel chAmount) := by
  unfold claimBalance
  split <;> infer_instance

instance (chDst : String) (claimAmount : ℕ) :
    IsHonest (creditClaim crypto chDst claimAmount : ViewM below Unit) := by
  unfold creditClaim
  infer_instance

instance (accountStr : String) (channelKey : Hash256) (channel : Json) (chAmount : ℕ)
    (chSrc chDst : String) :
    IsHonest (settleClaim crypto tx accountStr channelKey channel chAmount chSrc chDst : ViewM below
      Unit) := by
  unfold settleClaim closeChannel
  infer_instance

theorem payChannelClaim_honest : (payChannelClaim crypto).Honest := by
  refine .of (fun tx _ _ => ?_) (fun tx view _ => ?_) fun _ tx _ _ => ?_
  · dsimp only [payChannelClaim,payChannelClaimPreflight]
    infer_instance
  · dsimp only [payChannelClaim,payChannelClaimPreclaim]
    infer_instance
  · dsimp only [payChannelClaim,payChannelClaimApply]
    infer_instance

variable {crypto}

theorem lockTransactor_honest (h : lockTransactor crypto txType=some t) : t.Honest := by
  cases txType with
  | escrowCreate => cases h; exact escrowCreate_honest crypto
  | escrowFinish => cases h; exact escrowFinish_honest crypto
  | escrowCancel => cases h; exact escrowCancel_honest crypto
  | paymentChannelCreate => cases h; exact payChannelCreate_honest crypto
  | paymentChannelFund => cases h; exact payChannelFund_honest crypto
  | paymentChannelClaim => cases h; exact payChannelClaim_honest crypto
  | _ => cases h

theorem lockTransactor_lawful (h : lockTransactor crypto txType=some t) : t.Lawful := by
  intro below tx rules fees s s' r hrun
  have hr : r=.tesSuccess := by
    cases txType with
    | escrowCreate => cases h; exact (escrowCreateApply_ok hrun).1
    | escrowFinish => cases h; exact (escrowFinishApply_ok hrun).1
    | escrowCancel => cases h; exact (escrowCancelApply_ok hrun).1
    | paymentChannelCreate => cases h; exact (payChannelCreateApply_ok hrun).1
    | paymentChannelFund => cases h; exact (payChannelFundApply_ok hrun).1
    | paymentChannelClaim => cases h; exact (payChannelClaimApply_ok hrun).1
    | _ => cases h
  rw [hr]
  rfl

end

def RunsLocks (env : Env) (engine : TxEngine) : Prop :=
  ∀ txType t, lockTransactor env.crypto txType=some t → engine.registry txType=some t

def IsLockTx (crypto : Crypto) (tx : Json) : Prop :=
  ∃ txType, typeOf tx=some txType ∧ (lockTransactor crypto txType).isSome=true

theorem IsLockTx.ordinary {env : Env} {engine : TxEngine} (hengine : RunsLocks env engine)
    {tx : Json} (h : IsLockTx env.crypto tx) :
    ∃ txType t, typeOf tx=some txType ∧ lockTransactor env.crypto txType=some t ∧
      Ordinary engine tx txType t := by
  obtain ⟨txType,hname,hsome⟩ := h
  obtain ⟨t,ht⟩ := Option.isSome_iff_exists.mp hsome
  refine ⟨txType,t,hname,ht,?_,?_,?_,lockTransactor_lawful ht,lockTransactor_honest ht⟩
  · rw [transactorOf,hname,Option.bind_some,hengine txType t ht]
    rfl
  · cases txType <;> first | rfl | cases ht
  · rintro rfl
    cases ht

/-! ## Runs that can be evaluated -/

def lockEngine (crypto : Crypto) : TxEngine := ⟨lockTransactor crypto,[],false⟩

theorem runsLocks_lockEngine (env : Env) : RunsLocks env (lockEngine env.crypto) := fun _ _ h => h

/-- A transaction that is submitted when the parent ledger has closed at the given time. -/
def submittedAt (time : ℕ) (tx : Json) : Submission :=
    ⟨⟨5,10^17,time,time,.zero⟩,tx,noRules,smallFees⟩

theorem allEntries_openLedger {P : Hash256 → Json → Prop} {entries : List (Hash256 × Json)}
    (time : ℕ) (h : ∀ e∈entries, P e.1 e.2) : AllEntries P (openLedger time entries).read := by
  have hfold : ∀ m : HashMap Hash256 Data, AllEntries P m.lookup →
      AllEntries P (entries.foldl (fun m e => m.insert e.1 (.json e.2)) m).lookup := by
    induction entries with
    | nil => exact fun m hm => hm
    | cons e entries ih =>
      intro m hm
      refine ih (fun e' he' => h e' (List.mem_cons_of_mem _ he')) _ fun k v hread => ?_
      change (m.insert e.1 (.json e.2)).lookup k=some (.json v) at hread
      rw [HashMap.lookup_insert_eq] at hread
      split at hread
      · rename_i hk
        cases hread
        exact hk ▸ h e (List.mem_cons_self ..)
      · exact hm k v hread
  exact hfold ∅ fun k v hread => by simp at hread

end Rxrpl.Tx
