import Rxrpl.EscrowRelease

/-!
# The protocol of a payment channel

A payment channel protects both sides if its destination is paid more only against a signature of
the source, if the first claim after the time that the source has set closes the channel and returns
the rest, and if the source cannot move that time to a later one. The transactor of a claim looks at
no signature and at no time, so the protocol holds exactly as long as the parties keep to it by
themselves.
-/

namespace Rxrpl.Tx

open Codec (AccountId)
open InputRun

/-! ## What a claim leaves behind -/

def balanceAfter (tx channel : Json) : ℕ := (getU64StrField tx "Balance").getD (getBalance channel)

theorem claimBalance_after {tx channel claimed : Json} {chAmount claimAmount : ℕ}
    (h : claimBalance tx channel chAmount=.ok (claimed,claimAmount)) (hlt : chAmount < 2^64) :
    getBalance claimed=balanceAfter tx channel ∧ FieldsAgree ["Balance"] channel claimed := by
  unfold claimBalance at h
  rw [balanceAfter]
  cases hfield : getU64StrField tx "Balance" with
  | none =>
    rw [hfield] at h
    cases h
    exact ⟨rfl,fun _ _ => rfl⟩
  | some newBalance =>
    rw [hfield] at h
    dsimp only at h
    split at h
    · cases h
    split at h
    · cases h
    cases h
    exact ⟨getBalance_setBalance channel (by omega),fieldsAgree_set (by simp) _ _⟩

/-- The account of the source of a channel has been paid what a close returns. -/
structure Refunded (crypto : Crypto) (channel : Json) (l l' : Ledger) (src : AccountId)
    (account account' : Json) (chAmount : ℕ) : Prop where
  source : accountField crypto channel "Account"=some src
  amount : getXrpAmount channel=some chAmount
  before : l.read (Keylet.account crypto src)=some (.json account)
  after : l'.read (Keylet.account crypto src)=some (.json account')

section

variable {env : Env} {engine : TxEngine} {k : Hash256} {sub : Submission} {l : Ledger}
  {channel : Json}

theorem Recorded.json {v : Json} {d : Option Data} (h : Recorded (some (.json v)) d) :
    ∃ v', d=some (.json v') ∧ FieldsAgree recordFields v v' := by
  obtain ⟨hnone,-⟩ | ⟨e,e',he,rfl,hagree⟩ := h
  · cases hnone
  cases he
  obtain rfl | ⟨w,w',hw,rfl,hfields⟩ := hagree
  · exact ⟨v,rfl,fun _ _ => rfl⟩
  · cases hw
    exact ⟨w',rfl,hfields⟩

/-- The close in the sandbox of the claim: nothing but the close touches the account of the source.
-/
theorem ChannelClaim.refund {tx : Json} {crypto : Crypto} {below : ReadView} {s s' : Sandbox below}
    (hsep : crypto.Separated) (c : ChannelClaim crypto tx s s') (hk : Apart crypto c.channelKey)
    (hparty : c.accountStr=c.chSrc ∨ strField c.channel "Destination"=some c.accountStr)
    (hflag : getFlags tx &&& tfClose≠0) (hsource : c.accountStr≠c.chSrc) :
    ∃ src account, Codec.decodeAccountId crypto.sha256 c.chSrc=.ok src ∧
      s.read (Keylet.account crypto src)=some (.json account) ∧
      s'.read (Keylet.account crypto src)=some
        (.json (refunded account (c.chAmount-getBalance c.claimed))) := by
  cases c.settle with
  | kept hzero h => exact (hflag hzero).elim
  | requested hflag' hsource' h => exact (hsource hsource').elim
  | closed hflag' hsource' closing =>
    have hdst : c.chDst=c.accountStr :=
      Option.some.inj (c.chDstField.symm.trans (hparty.resolve_left hsource))
    have hcredit : c.credited.read (Keylet.account crypto closing.src)=s.read
      (Keylet.account crypto closing.src) := by
      cases c.credit with
      | nothing hzero h => exact congrArg (fun t => t.read (Keylet.account crypto closing.src)) h
      | paid dst account hpos hdecode hread h =>
        have hne : closing.src≠dst := by
          rintro rfl
          exact hsource (hdst ▸ Codec.decodeAccountId_injective _ hdecode closing.decodeSrc)
        rw [h.read,Function.update_of_ne fun he => hne (hsep.account_injective he)]
    have hpages : Keylet.account crypto closing.src∉ownerPages crypto := by
      rintro ⟨id,hpage⟩
      exact hsep.account_notMem_pageKeys _ _ hpage
    refine ⟨closing.src,closing.account,closing.decodeSrc,hcredit ▸ closing.readAccount,?_⟩
    rw [closing.erase.read,Function.update_of_ne (hk.account _).symm,
      (frame_unlinkDestination _ _ _).read_eq closing.unlink hpages,
      (frame_removeKeepRoot _ _).read_eq closing.unlist hpages,closing.pay.read,
        Function.update_self]

/-- A claim by which the destination closes the channel pays the source what is left. -/
theorem close_refunds (hsep : env.crypto.Separated) (hengine : RunsLocks env engine)
    (hk : Apart env.crypto k) (hopen : l.isOpen=true)
    (h : Works env engine k l sub .paymentChannelClaim channel)
    (hclose : ClosesAtOnce sub.tx channel) :
    ∃ src account account' chAmount,
      Refunded env.crypto channel l (ledgerStep env engine l sub) src account account' chAmount ∧
        getBalance account'=(getBalance account+(chAmount-balanceAfter sub.tx channel)) % 2^64 := by
  obtain ⟨txType,t,htype,ht,hord⟩ :=
    IsLockTx.ordinary hengine (show IsLockTx env.crypto sub.tx from ⟨_,h.typed,rfl⟩)
  cases h.typed.symm.trans htype
  cases ht
  have hfate : Fate env _ .paymentChannelClaim sub.tx (sub.opened l) sub.rules sub.fees _ _ :=
    apply_fate hord hopen
  have hdone := h.done
  unfold ledgerStep
  unfold Submission.apply at hdone ⊢
  generalize apply env engine sub.tx (sub.opened l) sub.rules sub.fees=out at hfate hdone ⊢
  obtain ⟨r,l'⟩ := out
  cases hfate with
  | stopped hr => exact (hr hdone).elim
  | claimed o hcharged hc hr => exact (hr (by simpa using hdone)).elim
  | applied s child o hpre hpreclaim hproxy hcharged hrun hsandbox hc =>
    obtain ⟨-,⟨c⟩⟩ := payChannelClaimApply_ok hrun
    have hkey : c.channelKey=k := by
      have htarget := h.target
      rw [lockTarget,c.channelField] at htarget
      exact Option.some.inj htarget
    have hread : l.read c.channelKey=some (.json c.channel) := by
      rw [← c.readChannel,Sandbox.read_child]
      exact (hcharged.read_apart (hkey ▸ hk)).symm
    cases (hkey ▸ hread).symm.trans h.entry
    have hsource : c.accountStr≠c.chSrc := by
      intro he
      refine hclose.2 ?_
      rw [c.accountField,c.chSrcField,he]
    have hparty := payChannelClaimPreclaim_ok hpreclaim c.channelField hread c.accountField
      c.chSrcField
    obtain ⟨src,account,hsrc,hbefore,hafter⟩ := c.refund hsep (hkey ▸ hk) hparty hclose.1 hsource
    -- the sender is charged, and the source is another account
    have hcharge : s.read (Keylet.account env.crypto src)=l.read
      (Keylet.account env.crypto src) := by
      obtain ⟨id,hid,hsame⟩ := hcharged.read_eq
      have hne : src≠id := by
        rintro rfl
        rw [senderId,c.accountField,Option.bind_some] at hid
        exact hsource (Codec.decodeAccountId_injective _ (toOption_eq_some.mp hid) hsrc)
      exact hsame _ (fun he => hne (hsep.account_injective he)) (hsep.account_notMem_pageKeys _ _)
        fun n hn => hsep.account_ne_ticket _ _ hn
    have hrec : Recorded (child.read (Keylet.account env.crypto src))
      (l'.read (Keylet.account env.crypto src)) := by
      have h : Recorded (o.sandbox.read (Keylet.account env.crypto src))
        (l'.read (Keylet.account env.crypto src)) :=
        hc.read_agreeOff _
      rwa [hsandbox,Sandbox.read_mergeChild] at h
    rw [hafter] at hrec
    obtain ⟨account',hread',hfields⟩ := hrec.json
    refine ⟨src,account,account',c.chAmount,
      ⟨accountField_eq c.chSrcField hsrc,c.chAmountField,?_,hread'⟩,?_⟩
    · rw [← hcharge,← Sandbox.read_child,hbefore]
    · rw [getBalance_congr (hfields "Balance" (by decide)),getBalance_refunded,
        (claimBalance_after c.claim (getXrpAmount_lt c.chAmountField)).1]

end

/-! ## Requests to close -/

def RequestsClose (tx channel : Json) : Prop :=
  getFlags tx &&& tfClose≠0 ∧ strField tx "Account"=strField channel "Account"

instance (tx channel : Json) : Decidable (RequestsClose tx channel) :=
    inferInstanceAs (Decidable (_ ∧ _))

def expirationAt (k : Hash256) (l : Ledger) : Option ℕ :=
  match l.read k with
  | some (.json channel) => u64Field channel "Expiration"
  | _ => none

/-- A ledger, and the earliest expiration that a request of the source has set on the channel. -/
structure ChannelWatch where
  ledger : Ledger
  requested : Option ℕ

section

variable (env : Env) (engine : TxEngine) (k : Hash256)

/-- The expiration that the transaction sets as a request of the source. -/
def requestedBy (l : Ledger) (sub : Submission) : Option ℕ :=
  match l.read k with
  | some (.json channel) =>
    if typeOf sub.tx=some .paymentChannelClaim ∧
      lockTarget env.crypto sub.tx .paymentChannelClaim=some k ∧
        (sub.apply env engine l).1.toOption=some .tesSuccess ∧ RequestsClose sub.tx channel then
      expirationAt k (ledgerStep env engine l sub)
    else none
  | _ => none

def earlier : Option ℕ → Option ℕ → Option ℕ
  | some t, some t' => some (min t t')
  | some t, none => some t
  | none, t => t

/-- A request stands as long as the channel does. -/
def ChannelWatch.step (w : ChannelWatch) (sub : Submission) : ChannelWatch where
  ledger := ledgerStep env engine w.ledger sub
  requested :=
    if ((ledgerStep env engine w.ledger sub).read k).isNone then none
    else earlier w.requested (requestedBy env engine k w.ledger sub)

variable (verifies : String → Hash256 → ℕ → String → Prop)

/-- The transaction carries a signature by the key of the channel for a balance or more. -/
def SignedFor (tx channel : Json) (balance : ℕ) : Prop :=
  ∃ signature publicKey amount, strField tx "Signature"=some signature ∧
    strField channel "PublicKey"=some publicKey ∧
    balance ≤ amount ∧ verifies publicKey k amount signature

structure Protects (w : ChannelWatch) (sub : Submission) : Prop where
  signed : ∀ channel, Works env engine k w.ledger sub .paymentChannelClaim channel →
    strField sub.tx "Account"=strField channel "Destination" →
    ∀ balance, getU64StrField sub.tx "Balance"=some balance → getBalance channel < balance →
      SignedFor k verifies sub.tx channel balance
  closes : ∀ channel, Works env engine k w.ledger sub .paymentChannelClaim channel →
    ∀ t, w.requested=some t → t ≤ sub.header.parentCloseTime →
      (ledgerStep env engine w.ledger sub).read k=none ∧
        ∃ src account account' chAmount,
          Refunded env.crypto channel w.ledger (ledgerStep env engine w.ledger sub) src account
            account' chAmount ∧
            getBalance account'=getBalance account+(chAmount-balanceAfter sub.tx channel)
  keepsTime : ∀ channel, Works env engine k w.ledger sub .paymentChannelClaim channel →
    RequestsClose sub.tx channel →
    w.requested.isSome → ∀ t, u64Field channel "Expiration"=some t →
      ∀ t', expirationAt k (ledgerStep env engine w.ledger sub)=some t' → t' ≤ t

/-- The parties keep to the protocol: the destination raises the balance with a signature, the first
claim after a requested time is one by which the destination closes the channel, and the source asks
again only while this does not move the time. -/
structure KeptByParties (w : ChannelWatch) (sub : Submission) : Prop where
  signed : ∀ channel, Works env engine k w.ledger sub .paymentChannelClaim channel →
    strField sub.tx "Account"=strField channel "Destination" →
    ∀ balance, getU64StrField sub.tx "Balance"=some balance → getBalance channel < balance →
      SignedFor k verifies sub.tx channel balance
  closes : ∀ channel, Works env engine k w.ledger sub .paymentChannelClaim channel →
    ∀ t, w.requested=some t → t ≤ sub.header.parentCloseTime →
      ClosesAtOnce sub.tx channel ∧ ∀ src account chAmount,
        accountField env.crypto channel "Account"=some src →
        getXrpAmount channel=some chAmount →
          w.ledger.read (Keylet.account env.crypto src)=some (.json account) →
          getBalance account+(chAmount-balanceAfter sub.tx channel) < 2^64
  keepsTime : ∀ channel, Works env engine k w.ledger sub .paymentChannelClaim channel →
    RequestsClose sub.tx channel →
    w.requested.isSome → ∀ t, u64Field channel "Expiration"=some t →
      closeExpiration channel sub.header.parentCloseTime ≤ t

variable {env engine k verifies}

variable {channel : Json} {l : Ledger} {sub : Submission}

theorem read_none_iff_closes (hengine : RunsLocks env engine) (hk : Apart env.crypto k)
    (hopen : l.isOpen=true) (h : Works env engine k l sub .paymentChannelClaim channel) :
    (ledgerStep env engine l sub).read k=none ↔ ClosesAtOnce sub.tx channel := by
  obtain ⟨d,heffect,hrec⟩ := lock_effect hengine hk hopen h.typed h.target h.done
  rw [h.entry] at heffect
  -- an entry that was written back is read
  have hstays : ∀ {v : Json}, Recorded (some (.json v)) ((ledgerStep env engine l sub).read k) →
      (ledgerStep env engine l sub).read k≠none := by
    intro v hrec
    obtain ⟨v',hread,-⟩ := hrec.json
    simp [hread]
  cases heffect with
  | claimKept claim hflag =>
    exact ⟨fun hnone => (hstays hrec hnone).elim,fun hclose => (hclose.1 hflag).elim⟩
  | closeRequested claim hflag hsource =>
    refine ⟨fun hnone => (hstays hrec hnone).elim,fun hclose => (hclose.2 ?_).elim⟩
    rw [claim.accountField,claim.chSrcField,hsource]
  | channelClosed claim hflag hsource =>
    refine ⟨fun _ => ⟨hflag,fun he => hsource ?_⟩,fun _ => ?_⟩
    · rw [claim.accountField,claim.chSrcField] at he
      exact Option.some.inj he
    · obtain ⟨-,hnone⟩ | ⟨e,e',he,-⟩ := hrec
      · exact hnone
      · cases he

theorem closeExpiration_congr {channel' : Json}
    (h : channel.get "SettleDelay"=channel'.get "SettleDelay") (now : ℕ) :
    closeExpiration channel now=closeExpiration channel' now := by
  have hdelay : getU32Field channel "SettleDelay"=getU32Field channel' "SettleDelay" := by
    rw [getU32Field,getU32Field,u64Field,u64Field,h]
  rw [closeExpiration,closeExpiration,hdelay]

theorem expirationAt_requested (hengine : RunsLocks env engine) (hk : Apart env.crypto k)
    (hopen : l.isOpen=true) (h : Works env engine k l sub .paymentChannelClaim channel)
    (hrequest : RequestsClose sub.tx channel) :
    expirationAt k (ledgerStep env engine l sub)=some
      (closeExpiration channel sub.header.parentCloseTime) := by
  obtain ⟨d,heffect,hrec⟩ := lock_effect hengine hk hopen h.typed h.target h.done
  rw [h.entry] at heffect
  cases heffect with
  | claimKept claim hflag => exact (hrequest.1 hflag).elim
  | @closeRequested _ claimed _ _ claim hflag hsource =>
    obtain ⟨chAmount,claimAmount,hamount,hclaim⟩ := claim.claim
    have hdelay := (claimBalance_after hclaim (getXrpAmount_lt hamount)).2 "SettleDelay" (by decide)
    obtain ⟨entry,hread,hfields⟩ := hrec.json
    have hexpiration := hfields "Expiration" (by decide)
    have hset : u64Field entry "Expiration"=some
      (closeExpiration claimed sub.header.parentCloseTime) := by
      rw [u64Field,hexpiration,Json.get_set_self,Option.bind_some]
      exact asU64_natCast ((Nat.min_le_right _ _).trans_lt (by norm_num))
    rw [expirationAt,hread]
    exact hset.trans (congrArg some (closeExpiration_congr hdelay _))
  | channelClosed claim hflag hsource =>
    refine (hsource ?_).elim
    have he := hrequest.2
    rw [claim.accountField,claim.chSrcField] at he
    exact Option.some.inj he

/-- The protocol protects both sides from a transaction exactly if the parties keep to it. -/
theorem protects_iff (hsep : env.crypto.Separated) (hengine : RunsLocks env engine)
    (hk : Apart env.crypto k) {w : ChannelWatch} (hopen : w.ledger.isOpen=true) (sub : Submission) :
    Protects env engine k verifies w sub ↔ KeptByParties env engine k verifies w sub := by
  constructor
  · rintro ⟨hsigned,hcloses,hkeeps⟩
    refine ⟨hsigned,fun channel h t ht hreached => ?_,fun channel h hrequest hsome t ht => ?_⟩
    · obtain ⟨hnone,src,account,account',chAmount,hrefunded,hbalance⟩ :=
        hcloses channel h t ht hreached
      refine ⟨(read_none_iff_closes hengine hk hopen h).mp hnone,
        fun src' account₁ chAmount' hsrc hamount hread => ?_⟩
      cases hrefunded.source.symm.trans hsrc
      cases hrefunded.amount.symm.trans hamount
      cases hrefunded.before.symm.trans hread
      exact hbalance ▸ getBalance_lt account'
    · exact hkeeps channel h hrequest hsome t ht _
        (expirationAt_requested hengine hk hopen h hrequest)
  · rintro ⟨hsigned,hcloses,hkeeps⟩
    refine ⟨hsigned,fun channel h t ht hreached => ?_,fun channel h hrequest hsome t ht t' ht' =>
      ?_⟩
    · obtain ⟨hclose,hfits⟩ := hcloses channel h t ht hreached
      obtain ⟨src,account,account',chAmount,hrefunded,hbalance⟩ :=
        close_refunds hsep hengine hk hopen h hclose
      refine ⟨(read_none_iff_closes hengine hk hopen h).mpr hclose,src,account,account',chAmount,
        hrefunded,?_⟩
      rw [hbalance,Nat.mod_eq_of_lt
        (hfits src account chAmount hrefunded.source hrefunded.amount hrefunded.before)]
    · cases (expirationAt_requested hengine hk hopen h hrequest).symm.trans ht'
      exact hkeeps channel h hrequest hsome t ht

end

/-- Along every run over one channel, of transactions on escrows and channels and of others that
leave the channel alone: the protocol protects both sides exactly if the parties keep to it by
themselves. -/
theorem channel_protects_iff (env : Env) (engine : TxEngine)
    (verifies : String → Hash256 → ℕ → String → Prop) (hsep : env.crypto.Separated)
    (hengine : RunsLocks env engine) (src dst : AccountId) (n : ℕ) (l : Ledger)
    (hopen : l.isOpen=true) (subs : List Submission)
    (hsubs : ∀ sub∈subs, Concerns env engine (Keylet.payChannel env.crypto src dst n) sub) :
    Along (ChannelWatch.step env engine (Keylet.payChannel env.crypto src dst n))
        (Protects env engine (Keylet.payChannel env.crypto src dst n) verifies) ⟨l,none⟩ subs ↔
      Along (ChannelWatch.step env engine (Keylet.payChannel env.crypto src dst n))
        (KeptByParties env engine (Keylet.payChannel env.crypto src dst n) verifies)
          ⟨l,none⟩ subs := by
  have hk := hsep.apart_payChannel src dst n
  exact along_congr (fun w => w.ledger.isOpen=true) (Concerns env engine _)
    (fun w sub hopen _ => protects_iff hsep hengine hk hopen sub)
    (fun w sub hopen hsub _ => hsub.isOpen hengine hopen) hopen hsubs

/-! ## A channel between two parties -/

private def channelKey : Hash256 := Keylet.payChannel paddedCrypto (party 1) (party 2) 1

private def openTx : Json :=
  .obj [("TransactionType",.str "PaymentChannelCreate"),("Account",.str (address 1)),
    ("Destination",.str (address 2)),
    ("Amount",.str "500"),("SettleDelay",.int 10),("PublicKey",.str "ED"),("Fee",.str "10"),
      ("Sequence",.int 1)]

private def channelTx (n : UInt8) (sequence : ℕ) (more : List (String × Json)) : Json :=
  .obj ([("TransactionType",.str "PaymentChannelClaim"),("Account",.str (address n)),
    ("Channel",.str (hashText channelKey)),("Fee",.str "10"),("Sequence",.int sequence)]++more)

private def closeTx (n : UInt8) (sequence : ℕ) : Json :=
    channelTx n sequence [("Flags",.int 0x00020000)]

private def signedTx : Json := channelTx 2 1 [("Balance",.str "200"),("Signature",.str "AB")]

private def channelStep : ChannelWatch → Submission → ChannelWatch :=
  ChannelWatch.step plainEnv (lockEngine paddedCrypto) channelKey

private def openWatch : ChannelWatch := channelStep ⟨escrowParties,none⟩ (submittedAt 50 openTx)

private def claimedWatch : ChannelWatch := channelStep openWatch (submittedAt 60 signedTx)

private def closingWatch : ChannelWatch := channelStep claimedWatch (submittedAt 100 (closeTx 1 2))

/-- The fields of the channel that do not change. -/
private def sameChannel (channel : Json) : Bool :=
  strField channel "Account" == some (address 1) && strField channel "Destination" == some
    (address 2) &&
    strField channel "PublicKey" == some "ED" && getXrpAmount channel == some 500

private theorem channel_types :
    typeOf openTx=some .paymentChannelCreate ∧ typeOf signedTx=some .paymentChannelClaim ∧
      typeOf (closeTx 1 2)=some .paymentChannelClaim ∧
        typeOf (closeTx 2 2)=some .paymentChannelClaim := by
  decide +kernel

/-- The channel after each transaction, and the times that were asked for. -/
private theorem channel_watched :
    entryHas openWatch.ledger channelKey sameChannel=true ∧ openWatch.requested=none ∧
      entryHas claimedWatch.ledger channelKey sameChannel=true ∧ claimedWatch.requested=none ∧
      entryHas closingWatch.ledger channelKey
        (fun channel => sameChannel channel && u64Field channel "Expiration" == some 110)=true ∧
      closingWatch.requested=some 110 ∧
      entryHas closingWatch.ledger (Keylet.account paddedCrypto (party 1))
        (fun account => getBalance account == 480)=true := by
  decide +kernel

private theorem exists_sameChannel {l : Ledger} (h : entryHas l channelKey sameChannel=true) :
    ∃ channel, l.read channelKey=some (.json channel) ∧
      strField channel "Account"=some (address 1) ∧
      strField channel "Destination"=some (address 2) ∧ strField channel "PublicKey"=some "ED" := by
  obtain ⟨channel,hread,hsame⟩ := exists_of_entryHas h
  simp only [sameChannel,Bool.and_eq_true,beq_iff_eq] at hsame
  exact ⟨channel,hread,hsame.1.1.1,hsame.1.1.2,hsame.1.2⟩

/-- The only signature there is. -/
private def oneSignature (publicKey : String) (channel : Hash256) (amount : ℕ)
    (signature : String) : Prop :=
  publicKey="ED" ∧ channel=channelKey ∧ amount=200 ∧ signature="AB"

private abbrev Kept : ChannelWatch → Submission → Prop :=
  KeptByParties plainEnv (lockEngine paddedCrypto) channelKey oneSignature

private theorem kept_open : Kept ⟨escrowParties,none⟩ (submittedAt 50 openTx) := by
  have habsurd : ∀ {channel}, ¬ Works plainEnv (lockEngine paddedCrypto) channelKey escrowParties
      (submittedAt 50 openTx) .paymentChannelClaim channel :=
    fun h => nomatch channel_types.1.symm.trans h.typed
  exact ⟨fun _ h => (habsurd h).elim,fun _ h => (habsurd h).elim,fun _ h => (habsurd h).elim⟩

private theorem kept_signed : Kept openWatch (submittedAt 60 signedTx) := by
  obtain ⟨hchannel,hrequested,-⟩ := channel_watched
  obtain ⟨channel,hread,-,-,hkey⟩ := exists_sameChannel hchannel
  refine ⟨fun channel' h _ balance hbalance _ =>
    ?_,(fun _ _ t ht => nomatch hrequested.symm.trans ht),fun _ _ _ hsome => ?_⟩
  · cases hread.symm.trans h.entry
    have hfield : getU64StrField signedTx "Balance"=some 200 := by decide +kernel
    cases hfield.symm.trans hbalance
    exact ⟨"AB","ED",200,rfl,hkey,le_rfl,rfl,rfl,rfl,rfl⟩
  · rw [hrequested] at hsome
    cases hsome

private theorem kept_request : Kept claimedWatch (submittedAt 100 (closeTx 1 2)) := by
  obtain ⟨-,-,hchannel,hrequested,-⟩ := channel_watched
  obtain ⟨channel,hread,-,hdestination,-⟩ := exists_sameChannel hchannel
  refine ⟨fun channel' h hparty => ?_,(fun _ _ t ht => nomatch hrequested.symm.trans ht),
    fun _ _ _ hsome => ?_⟩
  · cases hread.symm.trans h.entry
    have hne : address 1≠address 2 := by decide +kernel
    exact absurd (Option.some.inj (hparty.trans hdestination)) hne
  · rw [hrequested] at hsome
    cases hsome

private theorem kept_close : Kept closingWatch (submittedAt 200 (closeTx 2 2)) := by
  obtain ⟨-,-,-,-,hchannel,hrequested,haccount⟩ := channel_watched
  obtain ⟨channel,hread,hfields⟩ := exists_of_entryHas hchannel
  obtain ⟨source,hsource,hbalance⟩ := exists_of_entryHas haccount
  simp only [sameChannel,Bool.and_eq_true,beq_iff_eq] at hfields hbalance
  obtain ⟨⟨⟨⟨hsrc,-⟩,-⟩,hamount⟩,-⟩ := hfields
  have hne : address 2≠address 1 := by decide +kernel
  refine ⟨fun channel' h _ balance hfield => ?_,fun channel' h t ht _ =>
    ⟨⟨?_,?_⟩,?_⟩,fun channel' h hrequest => ?_⟩
  · have hnone : getU64StrField (closeTx 2 2) "Balance"=none := by decide +kernel
    cases hnone.symm.trans hfield
  · exact show getFlags (closeTx 2 2) &&& tfClose≠0 by decide +kernel
  · cases hread.symm.trans h.entry
    rw [hsrc]
    exact fun he => hne (Option.some.inj he)
  · intro src account chAmount haccountField hchAmount hbefore
    cases hread.symm.trans h.entry
    have hdecode : Codec.decodeAccountId paddedCrypto.sha256 (address 1)=.ok (party 1) :=
      toOption_eq_some.mp (by decide +kernel)
    cases (accountField_eq hsrc hdecode).symm.trans haccountField
    cases hamount.symm.trans hchAmount
    cases hsource.symm.trans hbefore
    rw [hbalance]
    omega
  · cases hread.symm.trans h.entry
    exact absurd (Option.some.inj (hrequest.2.trans hsrc)) hne

/-- A channel that is claimed from with a signature, closed by the destination after the source
asked for it. -/
theorem channel_protected :
    Along channelStep (Protects plainEnv (lockEngine paddedCrypto) channelKey oneSignature)
      ⟨escrowParties,none⟩
      [submittedAt 50 openTx,submittedAt 60 signedTx,submittedAt 100 (closeTx 1 2),
        submittedAt 200 (closeTx 2 2)] := by
  refine (channel_protects_iff plainEnv (lockEngine paddedCrypto) oneSignature
    separated_paddedCrypto
    (runsLocks_lockEngine plainEnv) (party 1) (party 2) 1 escrowParties rfl _ ?_).mpr
      ⟨kept_open,kept_signed,kept_request,kept_close,trivial⟩
  obtain ⟨hopen,hsigned,hrequest,hclose⟩ := channel_types
  simp only [List.mem_cons,List.not_mem_nil,or_false]
  rintro sub (rfl | rfl | rfl | rfl)
  · exact .inl ⟨_,hopen,rfl⟩
  · exact .inl ⟨_,hsigned,rfl⟩
  · exact .inl ⟨_,hrequest,rfl⟩
  · exact .inl ⟨_,hclose,rfl⟩

private def unsignedTx : Json := channelTx 2 1 [("Balance",.str "200")]

private def idleTx : Json := channelTx 2 2 []

/-- Each of the three transactions succeeds: the claim without a signature, the claim after the
requested time that leaves the channel where it is, and the second request that moves the time. -/
private theorem channel_unguarded :
    entryHas openWatch.ledger channelKey (fun channel => getBalance channel == 0)=true ∧
      ((submittedAt 60 unsignedTx).apply plainEnv (lockEngine paddedCrypto)
        openWatch.ledger).1.toOption=some .tesSuccess ∧
      ((submittedAt 200 idleTx).apply plainEnv (lockEngine paddedCrypto)
        closingWatch.ledger).1.toOption=some .tesSuccess ∧
      (channelStep closingWatch (submittedAt 200 idleTx)).ledger.read channelKey≠none ∧
      ((submittedAt 105 (closeTx 1 3)).apply plainEnv (lockEngine paddedCrypto)
        closingWatch.ledger).1.toOption=some .tesSuccess ∧
      expirationAt channelKey (channelStep closingWatch (submittedAt 105 (closeTx 1 3))).ledger =
        some 115 := by
  decide +kernel

private theorem channel_targets :
    lockTarget paddedCrypto unsignedTx .paymentChannelClaim=some channelKey ∧
      lockTarget paddedCrypto idleTx .paymentChannelClaim=some channelKey ∧
      lockTarget paddedCrypto (closeTx 1 3) .paymentChannelClaim=some channelKey ∧
      typeOf unsignedTx=some .paymentChannelClaim ∧ typeOf idleTx=some .paymentChannelClaim ∧
      typeOf (closeTx 1 3)=some .paymentChannelClaim := by
  decide +kernel

/-- The destination draws on the channel without a signature, a claim after the requested time
leaves the channel open, and a second request of the source moves the time. -/
theorem channel_unprotected :
    ¬ Along channelStep (Protects plainEnv (lockEngine paddedCrypto) channelKey oneSignature)
      ⟨escrowParties,none⟩
        [submittedAt 50 openTx,submittedAt 60 unsignedTx] ∧
      ¬ Along channelStep (Protects plainEnv (lockEngine paddedCrypto) channelKey oneSignature)
        ⟨escrowParties,none⟩
        [submittedAt 50 openTx,submittedAt 60 signedTx,submittedAt 100 (closeTx 1 2),
          submittedAt 200 idleTx] ∧
      ¬ Along channelStep (Protects plainEnv (lockEngine paddedCrypto) channelKey oneSignature)
        ⟨escrowParties,none⟩
        [submittedAt 50 openTx,submittedAt 60 signedTx,submittedAt 100 (closeTx 1 2),
          submittedAt 105 (closeTx 1 3)] := by
  obtain ⟨hzero,hunsigned,hidle,hstays,hagain,hmoved⟩ := channel_unguarded
  obtain ⟨hat,hatIdle,hatAgain,htype,htypeIdle,htypeAgain⟩ := channel_targets
  obtain ⟨hopen,-,-,-,hclosing,hrequested,-⟩ := channel_watched
  obtain ⟨channel,hread,hfields⟩ := exists_of_entryHas hclosing
  simp only [sameChannel,Bool.and_eq_true,beq_iff_eq] at hfields
  refine ⟨fun h => ?_,fun h => ?_,fun h => ?_⟩
  · obtain ⟨channel,hread,-,hdestination,-⟩ := exists_sameChannel hopen
    obtain ⟨channel',hread',hbalance⟩ := exists_of_entryHas hzero
    cases hread.symm.trans hread'
    have hclaimed : getU64StrField unsignedTx "Balance"=some 200 := by decide +kernel
    have hlow : getBalance channel < 200 := (beq_iff_eq.mp hbalance) ▸ (by decide)
    obtain ⟨signature,-,-,hnone,-⟩ :=
      h.2.1.signed channel ⟨htype,hat,toOption_eq_some.mp hunsigned,hread⟩
      hdestination.symm 200 hclaimed hlow
    exact absurd hnone (show strField unsignedTx "Signature"≠some signature from fun h => nomatch h)
  · exact hstays (h.2.2.2.1.closes channel ⟨htypeIdle,hatIdle,toOption_eq_some.mp hidle,hread⟩ 110
      hrequested (by decide)).1
  have hsome : closingWatch.requested.isSome := by
    rw [hrequested]
    rfl
  have hle := h.2.2.2.1.keepsTime channel ⟨htypeAgain,hatAgain,toOption_eq_some.mp hagain,hread⟩
    ⟨show getFlags (closeTx 1 3) &&& tfClose≠0 by decide +kernel,hfields.1.1.1.1.symm⟩ hsome 110
      hfields.2 115 hmoved
  exact absurd hle (by decide)

end Rxrpl.Tx
