import Rxrpl.TxCommit

/-!
# What becomes of a transaction

One inversion lemma for each stage of the engine: the gates, the charge, the handler, and the whole
of `apply_inner`.
-/

namespace Rxrpl.Tx

open Codec (AccountId)
open Option

variable {env : Env} {engine : TxEngine}

/-- A transactor whose `apply` returns `Ok` only with `tes` or `tec` codes. -/
def Transactor.Lawful (t : Transactor) : Prop :=
  ∀ (below : ReadView) (tx : Json) (rules : Rules) (fees : FeeSettings) (s s' : Sandbox below)
    (r : TransactionResult),
    t.apply tx rules fees s=.ok (r,s') → r.isClaimed=true

def TxEngine.Lawful (engine : TxEngine) : Prop := ∀ txType t, engine.registry txType=some t →
    t.Lawful

def typeOf (tx : Json) : Option TransactionType :=
    (strField tx "TransactionType").bind TransactionType.fromName

def transactorOf (engine : TxEngine) (tx : Json) : Option (TransactionType × Transactor) :=
  (typeOf tx).bind fun txType => (engine.registry txType).map fun t => (txType,t)

variable {t : Transactor} {tx : Json} {txType : TransactionType}

theorem applyInner_of_transactorOf (h : transactorOf engine tx=some (txType,t)) (l : Ledger)
    (rules : Rules) (fees : FeeSettings) (tapRetry : Bool) :
    applyInner env engine tx l rules fees tapRetry =
      applyWith env engine t txType tx l rules fees tapRetry := by
  obtain ⟨txType',hname,ht⟩ := bind_eq_some_iff.mp h
  obtain ⟨name,hstr,hname⟩ := bind_eq_some_iff.mp hname
  obtain ⟨t',ht,he⟩ := map_eq_some_iff.mp ht
  cases he
  rw [applyInner,hstr]
  dsimp only
  rw [hname]
  dsimp only
  rw [ht]

theorem applyInner_of_transactorOf_none (h : transactorOf engine tx=none) (l : Ledger)
    (rules : Rules) (fees : FeeSettings) (tapRetry : Bool) :
    ∃ name, applyInner env engine tx l rules fees
      tapRetry=(.error (.unknownTransactionType name),l) := by
  unfold applyInner
  split
  · exact ⟨_,rfl⟩
  rename_i name hstr
  split
  · exact ⟨_,rfl⟩
  rename_i txType hname
  split
  · exact ⟨_,rfl⟩
  · rename_i t ht
    simp [transactorOf,typeOf,hstr,hname,ht] at h

theorem registry_of_transactorOf (h : transactorOf engine tx=some (txType,t)) :
    engine.registry txType=some t := by
  obtain ⟨txType',-,ht⟩ := bind_eq_some_iff.mp h
  obtain ⟨t',ht,he⟩ := map_eq_some_iff.mp ht
  cases he
  exact ht

/-! ## The gates -/

section

variable {crypto : Crypto} {tx : Json} {view : ReadView}

variable {r : TransactionResult}

theorem checkSingleSign_unclaimed (h : checkSingleSign crypto tx view=some r) :
    r.isClaimed=false := by
  unfold checkSingleSign at h
  repeat' split at h
  all_goals cases h
  all_goals rfl

theorem sumWeights_unclaimed {entries signers : List Json} {seen : List String} {total : ℕ}
    (h : sumWeights crypto view entries signers seen total=.error r) : r.isClaimed=false := by
  induction signers generalizing seen total with
  | nil => cases h
  | cons s signers ih =>
    rw [sumWeights] at h
    repeat' split at h
    all_goals first | exact ih h | (cases h; rfl)

theorem checkMultiSign_unclaimed (h : checkMultiSign crypto tx view=some r) :
    r.isClaimed=false := by
  unfold checkMultiSign at h
  repeat' split at h
  all_goals cases h
  all_goals first | rfl | exact sumWeights_unclaimed ‹_›

theorem senderId_eq_some_iff {id : AccountId} :
    senderId crypto tx=some id ↔ (getAccount tx >>= decodeAccount crypto.sha256)=.ok id := by
  rw [senderId,bind_eq_some_iff,bind_ok_iff]
  simp only [getAccount_eq_ok,decodeAccount_eq_ok]
  refine exists_congr fun s => and_congr_right fun _ => ?_
  cases Codec.decodeAccountId crypto.sha256 s <;> simp [Except.toOption]

theorem checkSeqProxy_ok_iff : checkSeqProxy crypto tx view=.ok () ↔
    ∃ id account, senderId crypto tx=some id ∧
      view.read (Keylet.account crypto id)=some (.json account) ∧
      match getU32Field tx "TicketSequence" with
      | some n => (view.read (Keylet.ticket crypto id n)).isSome=true
      | none => (getU32Field tx "Sequence").getD 0=getSequence account := by
  constructor
  · intro h
    obtain ⟨s,hs,h⟩ := bind_ok h
    obtain ⟨id,hid,h⟩ := bind_ok h
    split at h
    · cases h
    rename_i bytes hread
    obtain ⟨account,hparse,h⟩ := bind_ok h
    refine ⟨id,account,senderId_eq_some_iff.mpr (bind_ok_iff.mpr ⟨s,hs,hid⟩),
      by rw [hread,Data.parse_eq_ok hparse],?_⟩
    cases hticket : getU32Field tx "TicketSequence" <;> rw [hticket]
      at h <;> dsimp only at h ⊢ <;> split_ifs at h <;> assumption
  · rintro ⟨id,account,hid,hread,hproxy⟩
    obtain ⟨s,hs,hid⟩ := bind_ok (senderId_eq_some_iff.mp hid)
    refine bind_ok_iff.mpr ⟨s,hs,bind_ok_iff.mpr ⟨id,hid,?_⟩⟩
    rw [hread]
    refine bind_ok_iff.mpr ⟨account,rfl,?_⟩
    cases hticket : getU32Field tx "TicketSequence" <;> rw [hticket]
      at hproxy <;> exact if_pos hproxy

theorem checkSeqProxy_unclaimed (h : checkSeqProxy crypto tx view=.error r) :
    r.isClaimed=false := by
  obtain h | ⟨s,-,h⟩ := bind_error_iff.mp h
  · rw [getAccount_eq_error h]; rfl
  obtain h | ⟨id,-,h⟩ := bind_error_iff.mp h
  · rw [decodeAccount_eq_error h]; rfl
  split at h
  · cases h; rfl
  obtain h | ⟨account,-,h⟩ := bind_error_iff.mp h
  · rw [Data.parse_eq_error h]; rfl
  split at h
  · split_ifs at h <;> cases h <;> rfl
  · dsimp only at h
    split_ifs at h <;> cases h <;> rfl

end

section

variable {t : Transactor} {txType : TransactionType} {tx : Json} {view : ReadView} {rules : Rules}
  {fees : FeeSettings} {tapRetry : Bool}

variable {account account' : Json} {below : ReadView} {crypto : Crypto} {id : AccountId}
  {o : Outcome view} {pre : Option TransactionResult} {r : TransactionResult} {s s' : Sandbox view}

theorem gates_error_claimed (hcl : r.isClaimed=true)
    (h : gates env engine t txType tx view rules fees false=.error r) :
      t.preflight tx rules fees=.error r := by
  have hne : ∀ {r' : TransactionResult}, r'.isClaimed=false → r≠r' := fun hr' he => by
    rw [he,hr'] at hcl; cases hcl
  obtain h | ⟨u,-,h⟩ := bind_error_iff.mp h
  · exact h
  exfalso
  split at h
  · cases h; cases hcl
  split at h
  · rename_i r' hr'
    cases h
    split at hr'
    · cases hr'
    rw [or_eq_some_iff] at hr'
    obtain hs | ⟨-,hm⟩ := hr'
    · exact hne (checkSingleSign_unclaimed hs) rfl
    · exact hne (checkMultiSign_unclaimed hm) rfl
  · obtain h | ⟨u,-,h⟩ := bind_error_iff.mp h
    · split at h
      · cases h
      · exact hne (checkSeqProxy_unclaimed h) rfl
    · split at h
      · cases h
      · split at h
        · simp at h
        · rename_i hunclaimed
          cases h
          exact hunclaimed hcl

theorem gates_ok_tec (h : gates env engine t txType tx view rules fees tapRetry=.ok (some r)) :
    r.isClaimed=true ∧ (tapRetry=true → r.isRetryableTec=false) := by
  obtain ⟨u,-,h⟩ := bind_ok h
  split at h
  · cases h
  split at h
  · cases h
  obtain ⟨u,-,h⟩ := bind_ok h
  split at h
  · cases h
  split at h
  · rename_i hcl
    split at h
    · cases h
    rename_i hr
    cases h
    exact ⟨hcl,fun hretry => by simpa [hretry] using hr⟩
  · cases h

theorem gates_ok (hp : txType.isPseudo=false)
    (h : gates env engine t txType tx view rules fees tapRetry=.ok pre) :
    t.preflight tx rules fees=.ok () ∧ checkSeqProxy env.crypto tx view=.ok () ∧
      (pre=none → t.preclaim tx view rules=.ok ()) := by
  obtain ⟨u,hpre,h⟩ := bind_ok h
  split at h
  · cases h
  split at h
  · cases h
  obtain ⟨u',hseq,h⟩ := bind_ok h
  rw [hp] at hseq
  refine ⟨hpre,by simpa using hseq,?_⟩
  split at h
  · rename_i hclaim
    exact fun _ => hclaim
  split at h
  · split at h <;> cases h
    exact fun he => nomatch he
  · cases h

/-! ## The charge -/

def feeCharged (tx account : Json) : Json :=
  if 0 < getFee tx then setBalance account (getBalance account-getFee tx) else account

theorem getFee_lt (tx : Json) : getFee tx < 2^64 := by
  unfold getFee getU64StrField
  cases h : (strField tx "Fee").bind parseU64 with
  | none => simp
  | some n =>
    obtain ⟨s,-,hs⟩ := bind_eq_some_iff.mp h
    exact parseU64_lt hs

theorem chargeSender_ok (h : chargeSender env tx s=.ok s') :
    ∃ id account account' s₁, senderId env.crypto tx=some id ∧
      s.read (Keylet.account env.crypto id)=some (.json account) ∧ getFee tx ≤ getBalance account ∧
      consumeSeqOrTicket env.crypto id (feeCharged tx account) tx s=.ok (account',s₁) ∧
      s'.read=Function.update s₁.read (Keylet.account env.crypto id) (some (.json account')) ∧
      (∀ k≠Keylet.account env.crypto id, s'.changes.row k=s₁.changes.row k) ∧
      (s.changes.destroyedDrops=0 → s₁.changes.destroyedDrops=0 →
        s'.changes.destroyedDrops=getFee tx) ∧
      s'.sortedDirectories=s₁.sortedDirectories ∧ s'.threadDirectories=s₁.threadDirectories := by
  unfold chargeSender at h
  split at h
  · cases h
  rename_i id hid
  split at h
  · cases h
  rename_i account s₀ hentry
  obtain ⟨hread,rfl⟩ := ViewM.readEntry_eq_ok.mp hentry
  split at h
  · cases h
  rename_i hfee
  dsimp only at h
  split at h
  · cases h
  rename_i account' s₁ hconsume
  split at h
  · cases h
  rename_i s₂ hupdate
  have hframe := ViewM.frame_update (Set.mem_singleton (Keylet.account env.crypto id)) account'
    hupdate
  have hb := (ViewM.update_eq_ok hupdate).2
  have hread' : s'.read=s₂.read ∧ s'.changes.row=s₂.changes.row ∧
      s'.sortedDirectories=s₂.sortedDirectories ∧ s'.threadDirectories=s₂.threadDirectories := by
    cases h
    split <;> exact ⟨rfl,rfl,rfl,rfl⟩
  refine ⟨id,account,account',s₁,senderId_eq_some_iff.mpr hid,hread,not_lt.mp hfee,hconsume,
    hread'.1.trans hb.read,fun k hk => ?_,fun _ h₁ => ?_,hread'.2.2.1.trans hb.sortedDirectories,
    hread'.2.2.2.trans hb.threadDirectories⟩
  · rw [hread'.2.1]
    exact hframe.1 k (by simpa using hk)
  cases h
  have h₂ : s₂.changes.destroyedDrops=0 := hb.destroyedDrops.trans h₁
  split
  · rw [Sandbox.destroyedDrops_destroyDrops,h₂,Nat.zero_add,Nat.mod_eq_of_lt (getFee_lt tx)]
  · rw [h₂]
    omega

theorem consumeSeqOrTicket_none (hticket : u64Field tx "TicketSequence"=none)
    (h : consumeSeqOrTicket crypto id account tx s=.ok (account',s')) :
    account'=incrementSequence account ∧ s'=s := by
  rw [consumeSeqOrTicket,hticket] at h
  obtain ⟨rfl,rfl⟩ := ViewM.pure_eq_ok.mp h
  exact ⟨rfl,rfl⟩

theorem consumeSeqOrTicket_some {n : ℕ} (hticket : u64Field tx "TicketSequence"=some n)
    (h : consumeSeqOrTicket crypto id account tx s=.ok (account',s')) :
    ∃ ticket s₁, s.read (Keylet.ticket crypto id (n % 2^32))=some ticket ∧
      unlinkTicket crypto id (Keylet.ticket crypto id (n % 2^32)) ticket s=.ok ((),s₁) ∧
      ViewM.erase (Keylet.ticket crypto id (n % 2^32)) s₁=.ok ((),s') ∧
      account'=decrementTicketCount (adjustOwnerCount account (-1)) := by
  rw [consumeSeqOrTicket,hticket] at h
  obtain ⟨bytes,s₁,hbytes,h⟩ := ViewM.bind_eq_ok.mp h
  obtain ⟨hread,rfl⟩ := ViewM.read_eq_ok.mp hbytes
  cases bytes with
  | none => exact (ViewM.fail_eq_ok.mp h).elim
  | some ticket =>
    obtain ⟨u,s₂,hunlink,h⟩ := ViewM.bind_eq_ok.mp h
    obtain ⟨u',s₃,herase,h⟩ := ViewM.bind_eq_ok.mp h
    obtain ⟨rfl,rfl⟩ := ViewM.pure_eq_ok.mp h
    exact ⟨ticket,s₂,hread,hunlink,herase,rfl⟩

theorem chargeSender_error (h : chargeSender env tx s=.error (.ok r)) : r=.terInsufFee := by
  unfold chargeSender at h
  split at h
  · cases h
  split at h
  · cases h
  split at h
  · cases h; rfl
  dsimp only at h
  split at h
  · cases h
  split at h <;> cases h

/-! ## The handler -/

theorem applyBatch_ok {s s' : Sandbox below}
    (h : applyBatch env engine tx rules fees s=.ok (r,s')) :
    r=.tesSuccess ∧ ∃ inner, extractInnerTxs tx=.ok inner ∧
      applyInnerTxs env engine rules fees inner s=.ok ((),s') := by
  obtain ⟨inner,s₁,hlift,h⟩ := ViewM.bind_eq_ok.mp h
  obtain ⟨hinner,rfl⟩ := ViewM.lift_eq_ok.mp hlift
  obtain ⟨u,s₂,hrun,h⟩ := ViewM.bind_eq_ok.mp h
  obtain ⟨rfl,rfl⟩ := ViewM.pure_eq_ok.mp h
  exact ⟨rfl,inner,hinner,hrun⟩

theorem handler_claimed (ht : t.Lawful) {s s' : Sandbox below}
    (h : handler env engine t txType tx rules fees s=.ok (r,s')) : r.isClaimed=true := by
  unfold handler at h
  split at h
  · rw [(applyBatch_ok h).1]
    rfl
  · exact ht _ _ _ _ _ _ _ h

/-- A run of the handler that has an outcome: a success with its writes, or a claimed failure
without. -/
theorem runHandler_ok (ht : t.Lawful)
    (h : runHandler env engine t txType tx rules fees tapRetry s=.ok o) :
    (∃ child, handler env engine t txType tx rules fees s.child=.ok (.tesSuccess,child) ∧
      o.result=.tesSuccess ∧
      o.sandbox=s.mergeChild child ∧ hooksRollBack env tx child.read=false) ∨
    (o.sandbox=s ∧ o.result.isSuccess=false ∧ o.result.isClaimed=true ∧
      (tapRetry=true → o.result.isRetryableTec=false)) ∨
    (o.sandbox=s ∧ o.result=.tesSuccess ∧
      handler env engine t txType tx rules fees s.child=.error .tesSuccess) := by
  unfold runHandler at h
  split at h
  · rename_i r child hrun
    split at h
    · rename_i hsucc
      rw [TransactionResult.isSuccess_iff] at hsucc
      subst hsucc
      rw [Sandbox.read_mergeChild] at h
      split at h
      · cases h
      rename_i hroll
      cases h
      exact .inl ⟨child,hrun,rfl,rfl,by simpa using hroll⟩
    · rename_i hsucc
      have hcl := handler_claimed ht hrun
      rw [if_pos hcl] at h
      split at h
      · cases h
      rename_i hretry
      cases h
      exact .inr (.inl ⟨rfl,by simpa using hsucc,hcl,fun hr => by simpa [hr] using hretry⟩)
  · rename_i r hrun
    split at h
    · rename_i hcl
      split at h
      · cases h
      rename_i hretry
      cases h
      by_cases hs : r.isSuccess=true
      · rw [TransactionResult.isSuccess_iff] at hs
        subst hs
        exact .inr (.inr ⟨rfl,rfl,hrun⟩)
      · exact .inr (.inl ⟨rfl,by simpa using hs,hcl,fun hr => by simpa [hr] using hretry⟩)
    · cases h

theorem runHandler_error_claimed (hcl : r.isClaimed=true)
    (h : runHandler env engine t txType tx rules fees false s=.error (.ok r)) :
    r=.tecHookRejected ∧ ∃ child, handler env engine t txType tx rules fees s.child =
      .ok (.tesSuccess,child) ∧
      hooksRollBack env tx child.read=true := by
  unfold runHandler at h
  split at h
  · rename_i r' child hrun
    split at h
    · rename_i hsucc
      rw [TransactionResult.isSuccess_iff] at hsucc
      subst hsucc
      rw [Sandbox.read_mergeChild] at h
      split at h
      · rename_i hroll
        cases h
        exact ⟨rfl,child,hrun,hroll⟩
      · cases h
    · split at h
      · simp at h
      · cases h
  · split at h
    · simp at h
    · rename_i hunclaimed
      cases h
      exact (hunclaimed hcl).elim

theorem runHandler_of_rollback {child : Sandbox s.toReadView}
    (h : handler env engine t txType tx rules fees s.child=.ok (.tesSuccess,child))
    (hroll : hooksRollBack env tx child.read=true) :
    runHandler env engine t txType tx rules fees tapRetry s=.error (.ok .tecHookRejected) := by
  unfold runHandler
  rw [h]
  dsimp only
  rw [if_pos (show TransactionResult.isSuccess .tesSuccess=true from rfl),Sandbox.read_mergeChild,
    if_pos hroll]

/-! ## The whole transaction -/

def Charged (env : Env) (tx : Json) (view : ReadView) (rules : Rules) (s : Sandbox view) : Prop :=
  chargeSender env tx (openSandbox env view rules)=.ok s

theorem execute_ok (ht : t.Lawful) (hp : txType.isPseudo=false)
    (hpre : ∀ r, pre=some r → r.isClaimed=true ∧ (tapRetry=true → r.isRetryableTec=false))
    (h : execute env engine t txType tx view rules fees tapRetry pre=.ok o) :
      ∃ s, Charged env tx view rules s ∧
      ((∃ child, pre=none ∧ handler env engine t txType tx rules fees s.child =
        .ok (.tesSuccess,child) ∧
        o.result=.tesSuccess ∧ o.sandbox=s.mergeChild child ∧
          hooksRollBack env tx child.read=false) ∨
      (o.sandbox=s ∧ o.result.isClaimed=true ∧
        (tapRetry=true → o.result.isRetryableTec=false))) := by
  unfold execute at h
  rw [hp] at h
  obtain ⟨s,hs,h⟩ := bind_ok h
  refine ⟨s,by simpa [Charged] using hs,?_⟩
  cases pre with
  | some r =>
    cases h
    exact .inr ⟨rfl,hpre r rfl⟩
  | none =>
    obtain ⟨child,hrun,hr,hsb,hroll⟩ | ⟨hsb,-,hcl,hretry⟩ | ⟨hsb,hr,-⟩ := runHandler_ok ht h
    · exact .inl ⟨child,rfl,hrun,hr,hsb,hroll⟩
    · exact .inr ⟨hsb,hcl,hretry⟩
    · exact .inr ⟨hsb,by rw [hr]; rfl,fun _ => by rw [hr]; rfl⟩

theorem execute_error_claimed (hp : txType.isPseudo=false) (hcl : r.isClaimed=true)
    (h : execute env engine t txType tx view rules fees false pre=.error (.ok r)) :
    r=.tecHookRejected ∧ pre=none ∧ ∃ s child, Charged env tx view rules s ∧
      handler env engine t txType tx rules fees s.child=.ok (.tesSuccess,child) ∧
      hooksRollBack env tx child.read=true := by
  unfold execute at h
  rw [hp] at h
  obtain h | ⟨s,hs,h⟩ := bind_error_iff.mp h
  · have hr : r=.terInsufFee := chargeSender_error (by simpa using h)
    rw [hr] at hcl
    cases hcl
  · cases pre with
    | some r => cases h
    | none =>
      obtain ⟨hr,child,hrun,hroll⟩ := runHandler_error_claimed hcl h
      exact ⟨hr,rfl,s,child,by simpa [Charged] using hs,hrun,hroll⟩

structure Committed (env : Env) (txType : TransactionType) (tx : Json) (l : Ledger)
    {fees : FeeSettings} (o : Outcome (l.view fees)) (l' : Ledger) : Prop where
  txHash : ∃ hash leaf, computeTxHash env.crypto tx=.ok hash ∧ l'.txMap=l.txMap.insert hash leaf ∧
    ∀ k, l'.read k=(committedChanges env txType tx hash l.header.sequence o).read (l.view fees) k
  destroyedDrops : l'.destroyedDrops=o.sandbox.changes.destroyedAfter l
  header : l'.header=l.header
  state : l'.state=l.state

/-- What `apply_inner` can do to an open ledger. -/
theorem applyWith_cases {l l' : Ledger} (hopen : l.isOpen=true) {r : Stop}
    (h : applyWith env engine t txType tx l rules fees tapRetry=(r,l')) :
    (∃ r', gates env engine t txType tx (l.view fees) rules fees tapRetry=.error r' ∧ r=.ok r' ∧
      l'=l) ∨
    (∃ pre, gates env engine t txType tx (l.view fees) rules fees tapRetry=.ok pre ∧
      execute env engine t txType tx (l.view fees) rules fees tapRetry pre=.error r ∧ l'=l) ∨
    (∃ e, r=.error e ∧ l'=l) ∨
    (∃ pre o, gates env engine t txType tx (l.view fees) rules fees tapRetry=.ok pre ∧
      execute env engine t txType tx (l.view fees) rules fees tapRetry pre=.ok o ∧ r=.ok o.result ∧
      Committed env txType tx l o l') := by
  unfold applyWith at h
  split at h
  · rename_i r' hg
    cases h
    exact .inl ⟨r',hg,rfl,rfl⟩
  · rename_i pre hg
    split at h
    · rename_i stop he
      cases h
      exact .inr (.inl ⟨pre,hg,he,rfl⟩)
    · rename_i o he
      unfold checkAndCommit at h
      dsimp only at h
      split at h
      · cases h
        exact .inr (.inr (.inl ⟨_,rfl,rfl⟩))
      cases hhash : computeTxHash env.crypto tx with
      | error e =>
        rw [commit,hhash] at h
        cases h
        exact .inr (.inr (.inl ⟨_,rfl,rfl⟩))
      | ok hash =>
        obtain ⟨m,leaf,hc,hread⟩ := commit_ok env txType tx o hopen hhash
        rw [hc] at h
        cases h
        exact .inr (.inr (.inr ⟨pre,o,hg,he,rfl,⟨hash,leaf,hhash,rfl,hread⟩,rfl,rfl,rfl⟩))

end

end Rxrpl.Tx
