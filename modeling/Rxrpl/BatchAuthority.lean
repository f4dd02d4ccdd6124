import Rxrpl.LockEffects

/-!
# The authority of a batch

The transactions inside a `BatchSubmit` carry no signatures of their own. A batch is confined to
what its sender may do when each of them is sent by the sender of the batch, is no
pseudo-transaction, and passes and spends a sequence or ticket. The loop over the batch checks
none of this, and the transactors of escrows and payment channels spend nothing.
-/

namespace Rxrpl.Tx

open Codec (AccountId)
open Function

/-- The transactor `BatchSubmit`, whose `apply` the engine does not call. -/
def batchSubmit : Transactor where
  preflight := fun tx _ _ => getAccount tx >>= fun _ => extractInnerTxs tx >>= fun _ => .ok ()
  preclaim := fun _ _ _ => .ok ()
  apply := fun _ _ _ => pure .tesSuccess

/-! ## The property -/

section

variable (env : Env) (engine : TxEngine)

/-- One of the transactions of a list is executed, from one sandbox to the next. -/
inductive Executes (rules : Rules) (fees : FeeSettings) {below : ReadView} :
    List Json → Sandbox below → Json → Sandbox below → Sandbox below → Prop
  | head {tx : Json} {rest : List Json} {s s' : Sandbox below}
      (h : applyInnerTx env engine rules fees tx s=.ok ((),s')) :
      Executes rules fees (tx::rest) s tx s s'
  | tail {tx inner : Json} {rest : List Json} {s s' before after : Sandbox below}
      (h : applyInnerTx env engine rules fees tx s=.ok ((),s'))
      (hrest : Executes rules fees rest s' inner before after) :
      Executes rules fees (tx::rest) s inner before after

/-- An inner transaction does what its sender could have done with it: it is that of the outer
transaction, it is no pseudo-transaction, and it passes the check of the sequence or ticket, which
it does not pass a second time. -/
structure ActsForSender (crypto : Crypto) (outer inner : Json) (before after : ReadView) :
    Prop where
  account : ∃ id, senderId crypto outer=some id ∧ senderId crypto inner=some id
  notPseudo : ∀ txType, typeOf inner=some txType → txType.isPseudo=false
  checked : checkSeqProxy crypto inner before=.ok ()
  spent : checkSeqProxy crypto inner after≠.ok ()

/-- A batch with a single signature that succeeds, with its inner transactions and the sandboxes
before and after them. -/
structure BatchRun (tx : Json) (l : Ledger) (rules : Rules) (fees : FeeSettings) (txs : List Json)
    (s : Sandbox (l.view fees)) (child : Sandbox s.toReadView) : Prop where
  applied : ∃ l', apply env engine tx l rules fees=(.ok .tesSuccess,l')
  single : signers tx=[]
  inner : extractInnerTxs tx=.ok txs
  charged : Charged env tx (l.view fees) rules s
  executed : applyInnerTxs env engine rules fees txs s.child=.ok ((),child)

def BatchConfined (tx : Json) (l : Ledger) (rules : Rules) (fees : FeeSettings) : Prop :=
  ∀ txs s child, BatchRun env engine tx l rules fees txs s child → ∀ inner before after,
    Executes env engine rules fees txs s.child inner before after →
    ActsForSender env.crypto tx inner before.toReadView after.toReadView

end

/-! ## What transactors leave alone -/

/-- Account roots keep their sequences, and tickets stay. -/
structure KeepsProxies (crypto : Crypto) (read read' : Hash256 → Option Data) : Prop where
  account : ∀ id v, read (Keylet.account crypto id)=some (.json v) →
    ∃ v', read' (Keylet.account crypto id)=some (.json v') ∧ getSequence v'=getSequence v
  ticket : ∀ id, ∀ n < 2^32, (read (Keylet.ticket crypto id n)).isSome →
    (read' (Keylet.ticket crypto id n)).isSome

/-- A transaction on an escrow or payment channel, at a key of its own. -/
def WorksOnLock (crypto : Crypto) (tx : Json) : Prop :=
  ∃ txType k, typeOf tx=some txType ∧ lockTarget crypto tx txType=some k ∧ Apart crypto k

section

variable {crypto : Crypto} {read read' read'' : Hash256 → Option Data} {below : ReadView}
  {s s' : Sandbox below} {tx : Json} {k : Hash256} {id : AccountId} {v v' : Json}

theorem KeepsProxies.trans (h : KeepsProxies crypto read read')
    (h' : KeepsProxies crypto read' read'') : KeepsProxies crypto read read'' := by
  refine ⟨fun id v hv => ?_,fun id n hn ht => h'.ticket id n hn (h.ticket id n hn ht)⟩
  obtain ⟨v',hv',hseq⟩ := h.account id v hv
  obtain ⟨v'',hv'',hseq'⟩ := h'.account id v' hv'
  exact ⟨v'',hv'',hseq'.trans hseq⟩

theorem keepsProxies_of_agree
    (haccount : ∀ id, read' (Keylet.account crypto id)=read (Keylet.account crypto id))
    (hticket : ∀ id, ∀ n < 2^32,
      read' (Keylet.ticket crypto id n)=read (Keylet.ticket crypto id n)) :
    KeepsProxies crypto read read' :=
  ⟨fun id v hv => ⟨v,(haccount id).trans hv,rfl⟩,fun id n hn ht => by rwa [hticket id n hn]⟩

theorem Apart.keepsProxies (hk : Apart crypto k) (d : Option Data) :
    KeepsProxies crypto read (update read k d) :=
  keepsProxies_of_agree (fun id => update_of_ne (hk.account id).symm _ _)
    fun id n hn => update_of_ne (hk.ticket id n hn).symm _ _

variable (hsep : crypto.Separated)

include hsep

/-- A program that writes to owner directories only. -/
theorem keepsProxies_frame {α : Type} {x : ViewM below α} {a : α}
    (hx : ViewM.Frame (ownerPages crypto) x) (h : x s=.ok (a,s')) :
    KeepsProxies crypto s.read s'.read := by
  refine keepsProxies_of_agree (fun id => hx.read_eq h ?_) fun id n hn => hx.read_eq h ?_
  · rintro ⟨id',hmem⟩
    exact hsep.account_notMem_pageKeys id id' hmem
  · rintro ⟨id',hmem⟩
    exact hsep.ticket_notMem_pageKeys id id' hn hmem

/-- An account root that is rewritten with its sequence, or a new one. -/
theorem keepsProxies_account (hseq : ∀ v, read (Keylet.account crypto id)=some (.json v) →
    getSequence v'=getSequence v) :
    KeepsProxies crypto read (update read (Keylet.account crypto id) (some (.json v'))) := by
  constructor
  · intro id' v hv
    by_cases hid : Keylet.account crypto id'=Keylet.account crypto id
    · rw [hid] at hv ⊢
      exact ⟨v',update_self .. ,hseq v hv⟩
    · exact ⟨v,by rwa [update_of_ne hid],rfl⟩
  · intro id' n hn ht
    rwa [update_of_ne (hsep.account_ne_ticket id id' hn).symm]

theorem keepsProxies_became {t t' : Sandbox below}
    (hread : t.read (Keylet.account crypto id)=some (.json v))
    (hseq : v'.get "Sequence"=v.get "Sequence")
    (h : t.Became t' (update t.read (Keylet.account crypto id) (some (.json v')))) :
      KeepsProxies crypto t.read t'.read := by
  rw [h.read]
  refine keepsProxies_account hsep fun w hw => ?_
  cases hread.symm.trans hw
  exact getSequence_congr hseq

omit hsep in
theorem sequence_setBalance (account : Json) (balance : ℕ) :
    (setBalance account balance).get "Sequence"=account.get "Sequence" :=
  Json.get_set_ne (by decide) _ _

omit hsep in
theorem sequence_adjustOwnerCount (account : Json) (delta : ℤ) :
    (adjustOwnerCount account delta).get "Sequence"=account.get "Sequence" :=
  adjustOwnerCount_fields account delta "Sequence" (by decide)

theorem keepsProxies_credited {dst : AccountId} {destinationStr : String} {amount : ℕ}
    (h : Credited crypto dst destinationStr amount s s') : KeepsProxies crypto s.read s'.read := by
  cases h with
  | there account hread h => exact keepsProxies_became hsep hread (sequence_setBalance _ _) h
  | created hread h =>
    rw [h.read]
    exact keepsProxies_account hsep fun v hv => nomatch hread.symm.trans hv

theorem LockCreation.keepsProxies {key : AccountId → AccountId → Hash256}
    {entry : String → String → ℕ → ℕ → Option ℕ → Json}
    (c : LockCreation crypto tx key entry s s') (hk : Apart crypto (key c.src c.dst)) :
    KeepsProxies crypto s.read s'.read := by
  have hpay := keepsProxies_became hsep c.readAccount
    ((sequence_adjustOwnerCount _ _).trans (sequence_setBalance _ _)) c.pay
  have hlist := keepsProxies_frame hsep (frame_addToOwnerPages _ _) c.list
  have hlink := keepsProxies_frame hsep (frame_linkDestination _ _ _) c.link
  rw [c.touch.read,c.insert.read]
  exact ((hpay.trans hlist).trans hlink).trans (hk.keepsProxies _)

theorem EscrowFinished.keepsProxies (c : EscrowFinished crypto tx s s') :
    KeepsProxies crypto s.read s'.read := by
  have hk := hsep.apart_escrow c.owner c.seq_lt
  have hunlist := keepsProxies_frame hsep (frame_removeKeepRoot _ _) c.unlist
  have hunlink := keepsProxies_frame hsep (frame_unlinkDestination _ _ _) c.unlink
  have herase : KeepsProxies crypto c.unlinked.read c.erased.read := by
    rw [c.erase.read]
    exact hk.keepsProxies _
  have hcount := keepsProxies_became hsep c.readAccount (sequence_adjustOwnerCount _ _) c.count
  exact ((((keepsProxies_credited hsep c.credit).trans hunlist).trans hunlink).trans herase).trans
    hcount

theorem EscrowCancelled.keepsProxies (c : EscrowCancelled crypto tx s s') :
    KeepsProxies crypto s.read s'.read := by
  have hk := hsep.apart_escrow c.owner c.seq_lt
  have hcredit := keepsProxies_became hsep c.readAccount
    ((sequence_adjustOwnerCount _ _).trans (sequence_setBalance _ _)) c.credit
  have hunlist := keepsProxies_frame hsep (frame_removeKeepRoot _ _) c.unlist
  have hunlink := keepsProxies_frame hsep (frame_unlinkNamed _ _ _) c.unlink
  rw [c.erase.read]
  exact ((hcredit.trans hunlist).trans hunlink).trans (hk.keepsProxies _)

theorem ChannelFunding.keepsProxies (c : ChannelFunding crypto tx s s')
    (hk : Apart crypto c.channelKey) : KeepsProxies crypto s.read s'.read := by
  have hpay := keepsProxies_became hsep c.readAccount (sequence_setBalance _ _) c.pay
  rw [c.fund.read] at hpay
  exact (hk.keepsProxies _).trans hpay

theorem ChannelClosed.keepsProxies {channel : Json} {chAmount : ℕ} {chSrc chDst : String}
    (c : ChannelClosed crypto k channel chAmount chSrc chDst s s') (hk : Apart crypto k) :
    KeepsProxies crypto s.read s'.read := by
  have hrefund : (refunded c.account (chAmount-getBalance channel)).get "Sequence" =
      c.account.get "Sequence" := by
    rw [refunded,sequence_adjustOwnerCount]
    split
    · exact sequence_setBalance _ _
    · rfl
  have hpay := keepsProxies_became hsep c.readAccount hrefund c.pay
  have hunlist := keepsProxies_frame hsep (frame_removeKeepRoot _ _) c.unlist
  have hunlink := keepsProxies_frame hsep (frame_unlinkDestination _ _ _) c.unlink
  rw [c.erase.read]
  exact ((hpay.trans hunlist).trans hunlink).trans (hk.keepsProxies _)

theorem ChannelClaim.keepsProxies (c : ChannelClaim crypto tx s s')
    (hk : Apart crypto c.channelKey) : KeepsProxies crypto s.read s'.read := by
  have hcredit : KeepsProxies crypto s.read c.credited.read := by
    cases c.credit with
    | nothing hzero h =>
      rw [h]
      exact keepsProxies_of_agree (fun _ => rfl) fun _ _ _ => rfl
    | paid dst account hpos hdecode hread h =>
      exact keepsProxies_became hsep hread (sequence_setBalance _ _) h
  refine hcredit.trans ?_
  cases c.settle with
  | kept hflag h =>
    rw [h.read]
    exact hk.keepsProxies _
  | requested hflag hsource h =>
    rw [h.read]
    exact hk.keepsProxies _
  | closed hflag hsource closing => exact closing.keepsProxies hsep hk

/-- The transactors of escrows and payment channels spend neither sequence nor ticket. -/
theorem lockTransactor_keepsProxies {txType : TransactionType} {t : Transactor} {rules : Rules}
    {fees : FeeSettings} {r : TransactionResult} (ht : lockTransactor crypto txType=some t)
    (hk : lockTarget crypto tx txType=some k) (hapart : Apart crypto k)
    (hrun : t.apply tx rules fees s=.ok (r,s')) :
      KeepsProxies crypto s.read s'.read := by
  have hchannel : ∀ {key}, parseChannel tx=.ok key → (parseChannel tx).toOption=some k → key=k := by
    intro key hkey htarget
    rw [hkey] at htarget
    exact Option.some.inj htarget
  cases txType with
  | escrowCreate =>
    cases ht
    obtain ⟨-,⟨c⟩⟩ := escrowCreateApply_ok hrun
    exact c.keepsProxies hsep (hsep.apart_escrow c.src (txSeqProxyValue_lt tx))
  | escrowFinish =>
    cases ht
    obtain ⟨-,⟨c⟩⟩ := escrowFinishApply_ok hrun
    exact c.keepsProxies hsep
  | escrowCancel =>
    cases ht
    obtain ⟨-,⟨c⟩⟩ := escrowCancelApply_ok hrun
    exact c.keepsProxies hsep
  | paymentChannelCreate =>
    cases ht
    obtain ⟨-,⟨c⟩⟩ := payChannelCreateApply_ok hrun
    exact c.keepsProxies hsep (hsep.apart_payChannel c.src c.dst (txSeqProxyValue tx))
  | paymentChannelFund =>
    cases ht
    obtain ⟨-,⟨c⟩⟩ := payChannelFundApply_ok hrun
    exact c.keepsProxies hsep (hchannel c.channelField hk ▸ hapart)
  | paymentChannelClaim =>
    cases ht
    obtain ⟨-,⟨c⟩⟩ := payChannelClaimApply_ok hrun
    exact c.keepsProxies hsep (hchannel c.channelField hk ▸ hapart)
  | _ => cases ht

omit hsep in
theorem checkSeqProxy_of_keeps {view view' : ReadView}
    (h : KeepsProxies crypto view.read view'.read) (hok : checkSeqProxy crypto tx view=.ok ()) :
    checkSeqProxy crypto tx view'=.ok () := by
  obtain ⟨id,account,hid,hread,hproxy⟩ := checkSeqProxy_ok_iff.mp hok
  obtain ⟨account',hread',hseq⟩ := h.account id account hread
  refine checkSeqProxy_ok_iff.mpr ⟨id,account',hid,hread',?_⟩
  cases hticket : getU32Field tx "TicketSequence" with
  | some n =>
    rw [hticket] at hproxy
    exact h.ticket id n (getU32Field_lt hticket) hproxy
  | none =>
    rw [hticket] at hproxy
    exact hproxy.trans hseq.symm

end

/-! ## Inner transactions -/

section

variable {env : Env} {engine : TxEngine} {rules : Rules} {fees : FeeSettings} {below : ReadView}
  {s s' : Sandbox below} {tx : Json}

theorem chargeInnerFee_keepsProxies (hsep : env.crypto.Separated) {u : Unit}
    (h : chargeInnerFee env tx s=.ok (u,s')) : KeepsProxies env.crypto s.read s'.read := by
  unfold chargeInnerFee at h
  split at h
  · obtain ⟨id,s₁,hid,h⟩ := ViewM.bind_eq_ok.mp h
    have hs₁ : s=s₁ := by
      cases haccount : getAccount tx with
      | ok text =>
        rw [haccount] at hid
        exact (ViewM.lift_eq_ok.mp hid).2
      | error r =>
        rw [haccount] at hid
        exact (ViewM.fail_eq_ok.mp hid).elim
    subst hs₁
    obtain ⟨account,s₂,hread,h⟩ := ViewM.bind_eq_ok.mp h
    obtain ⟨haccount,rfl⟩ := ViewM.readEntry_eq_ok.mp hread
    split at h
    · exact (ViewM.fail_eq_ok.mp h).elim
    obtain ⟨_,s₃,hupdate,h⟩ := ViewM.bind_eq_ok.mp h
    have hkept := keepsProxies_became hsep haccount (sequence_setBalance _ _)
      (ViewM.update_eq_ok hupdate).2
    cases h
    exact hkept
  · obtain ⟨-,rfl⟩ := ViewM.pure_eq_ok.mp h
    exact keepsProxies_of_agree (fun _ => rfl) fun _ _ _ => rfl

theorem applyInnerTx_ok (h : applyInnerTx env engine rules fees tx s=.ok ((),s')) :
    ∃ txType t mid, typeOf tx=some txType ∧ engine.registry txType=some t ∧
      t.preflight tx rules fees=.ok () ∧ t.preclaim tx s.toReadView rules=.ok () ∧
      chargeInnerFee env tx s=.ok ((),mid) ∧ t.apply tx rules fees mid=.ok (.tesSuccess,s') := by
  unfold applyInnerTx at h
  cases htype : typeOf tx with
  | none =>
    rw [show (strField tx "TransactionType").bind TransactionType.fromName=none from htype] at h
    exact (ViewM.fail_eq_ok.mp h).elim
  | some txType =>
    rw [show (strField tx "TransactionType").bind TransactionType.fromName=some txType from htype]
      at h
    dsimp only at h
    cases ht : engine.registry txType with
    | none =>
      rw [ht] at h
      exact (ViewM.fail_eq_ok.mp h).elim
    | some t =>
      rw [ht] at h
      obtain ⟨_,s₁,hpre,h⟩ := ViewM.bind_eq_ok.mp h
      obtain ⟨hpreflight,rfl⟩ := ViewM.lift_eq_ok.mp hpre
      obtain ⟨_,s₂,hclaim,h⟩ := ViewM.bind_eq_ok.mp h
      obtain ⟨hpreclaim,rfl⟩ := ViewM.lift_eq_ok.mp hclaim
      obtain ⟨_,mid,hfee,h⟩ := ViewM.bind_eq_ok.mp h
      obtain ⟨r,s₃,happly,h⟩ := ViewM.bind_eq_ok.mp h
      split at h
      · rename_i hr
        subst hr
        obtain ⟨-,rfl⟩ := ViewM.pure_eq_ok.mp h
        exact ⟨txType,t,mid,rfl,ht,hpreflight,hpreclaim,hfee,happly⟩
      · exact (ViewM.fail_eq_ok.mp h).elim

variable {after before : Sandbox below} {inner : Json} {txs : List Json}

theorem Executes.applyInnerTx (h : Executes env engine rules fees txs s inner before after) :
    applyInnerTx env engine rules fees inner before=.ok ((),after) := by
  induction h with
  | head h => exact h
  | tail _ _ ih => exact ih

/-- An inner transaction on an escrow or payment channel leaves its sequence or ticket to be used
again. -/
theorem not_actsForSender (hsep : env.crypto.Separated) (hengine : RunsLocks env engine)
    {outer : Json} (h : Executes env engine rules fees txs s inner before after)
    (hlock : WorksOnLock env.crypto inner) :
    ¬ ActsForSender env.crypto outer inner before.toReadView after.toReadView := by
  intro hacts
  obtain ⟨txType,t,mid,htype,ht,-,-,hfee,happly⟩ := applyInnerTx_ok h.applyInnerTx
  obtain ⟨lockType,k,hlockType,hk,hapart⟩ := hlock
  cases htype.symm.trans hlockType
  obtain ⟨t',ht'⟩ := Option.isSome_iff_exists.mp (isSome_lockTransactor_of_target hk)
  cases ht.symm.trans (hengine txType t' ht')
  have hkept := (chargeInnerFee_keepsProxies hsep hfee).trans
    (lockTransactor_keepsProxies hsep ht' hk hapart happly)
  exact hacts.spent (checkSeqProxy_of_keeps hkept hacts.checked)

theorem exists_executes (hmem : inner∈txs)
    (h : applyInnerTxs env engine rules fees txs s=.ok ((),s')) :
    ∃ before after, Executes env engine rules fees txs s inner before after := by
  induction txs generalizing s with
  | nil => cases hmem
  | cons tx rest ih =>
    obtain ⟨_,s₁,hhead,hrest⟩ := ViewM.bind_eq_ok.mp h
    obtain rfl | hmem := List.mem_cons.mp hmem
    · exact ⟨s,s₁,.head hhead⟩
    · obtain ⟨before,after,hexec⟩ := ih hmem hrest
      exact ⟨before,after,.tail hhead hexec⟩

end

private def foreignEscrow : Json :=
  .obj [("TransactionType",.str "EscrowCreate"),("Account",.str (address 2)),
    ("Destination",.str (address 1)),
    ("Amount",.str "500"),("FinishAfter",.int 1)]

private def foreignBatch (sequence : ℕ) : Json :=
  .obj [("TransactionType",.str "BatchSubmit"),("Account",.str (address 1)),("Fee",.str "10"),
    ("Sequence",.int sequence),
    ("RawTransactions",.arr [.obj [("RawTransaction",.obj [("InnerTx",foreignEscrow)])]])]

private def twoAccounts : Ledger :=
  openLedger 0 [(Keylet.account paddedCrypto (party 1),accountRoot 1 "1000" 7 0),
    (Keylet.account paddedCrypto (party 2),accountRoot 2 "1000" 3 0)]

private def batchEngine : TxEngine :=
  ⟨fun | .batchSubmit => some batchSubmit | txType => lockTransactor paddedCrypto txType,[],false⟩

private theorem extractInnerTxs_foreignBatch (sequence : ℕ) :
    extractInnerTxs (foreignBatch sequence)=.ok [foreignEscrow] := rfl

private theorem foreignEscrow_worksOnLock : WorksOnLock paddedCrypto foreignEscrow := by
  refine ⟨.escrowCreate,Keylet.escrow paddedCrypto (party 2) (txSeqProxyValue foreignEscrow),
    by decide +kernel,?_,
    separated_paddedCrypto.apart_escrow _ (txSeqProxyValue_lt _)⟩
  decide +kernel

end Rxrpl.Tx
