import Rxrpl.InvariantChecks
import Rxrpl.LedgerRuns

/-!
# What becomes of one escrow or payment channel

A transaction on an escrow or a payment channel works on one key. `LockEffect` lists what it can do
to the entry at that key, with what it has checked before; entries at other keys that are neither
account roots nor directory pages nor tickets stay as they are, but for the fields in which the
engine records transactions.
-/

namespace Rxrpl.Tx

open Codec (AccountId)
open Function

/-! ## Keys of their own -/

/-- A key that no account root, no page of an owner directory and no ticket has. -/
structure Apart (crypto : Crypto) (k : Hash256) : Prop where
  account : ∀ id, k≠Keylet.account crypto id
  pages : k∉ownerPages crypto
  ticket : ∀ id, ∀ n < 2^32, k≠Keylet.ticket crypto id n

variable {crypto : Crypto}

theorem Crypto.Separated.apart_escrow (h : crypto.Separated) (id : AccountId) {n : ℕ}
    (hn : n < 2^32) : Apart crypto (Keylet.escrow crypto id n) := by
  have hrange : EntryKey.InRange (.escrow id n) := hn
  refine ⟨fun id' => ?_,?_,fun id' m hm => ?_⟩
  · exact h.ne hrange (show EntryKey.InRange (.account id') from trivial) (by simp)
  · rintro ⟨id',p,hp,he⟩
    exact h.ne (show EntryKey.InRange (.page id' p) from hp) hrange (by simp) he
  · exact h.ne hrange (show EntryKey.InRange (.ticket id' m) from hm) (by simp)

theorem Crypto.Separated.apart_payChannel (h : crypto.Separated) (src dst : AccountId) (n : ℕ) :
    Apart crypto (Keylet.payChannel crypto src dst n) := by
  refine ⟨fun id => h.payChannel src dst n (.account id) trivial,?_,fun id m hm =>
    h.payChannel src dst n (.ticket id m) hm⟩
  rintro ⟨id,p,hp,he⟩
  exact h.payChannel src dst n (.page id p) hp he.symm

/-- What is read after a commit where something was read before, the same or with the transaction
recorded. -/
def Recorded (d d' : Option Data) : Prop :=
  (d=none ∧ d'=none) ∨ ∃ e e', d=some e ∧ d'=some e' ∧ e.AgreeOff recordFields e'

theorem Recorded.refl (d : Option Data) : Recorded d d := by
  cases d with
  | none => exact .inl ⟨rfl,rfl⟩
  | some e => exact .inr ⟨e,e,rfl,rfl,.inl rfl⟩

def lockTarget (crypto : Crypto) (tx : Json) : TransactionType → Option Hash256
  | .escrowCreate => (accountField crypto tx "Account").map fun src =>
    Keylet.escrow crypto src (txSeqProxyValue tx)
  | .escrowFinish | .escrowCancel =>
    (escrowTarget crypto tx).toOption.map fun target => Keylet.escrow crypto target.1 target.2
  | .paymentChannelCreate =>
    (accountField crypto tx "Account").bind fun src =>
      (accountField crypto tx "Destination").map fun dst =>
      Keylet.payChannel crypto src dst (txSeqProxyValue tx)
  | .paymentChannelFund | .paymentChannelClaim => (parseChannel tx).toOption
  | _ => none

/-! ## Effects on one entry -/

/-- What a claim has checked, and the entry with the balance that it claims. -/
structure ClaimMade (tx channel claimed : Json) (accountStr chSrc : String) : Prop where
  accountField : strField tx "Account"=some accountStr
  chSrcField : strField channel "Account"=some chSrc
  party : accountStr=chSrc ∨ strField channel "Destination"=some accountStr
  claim : ∃ chAmount claimAmount, getXrpAmount channel=some chAmount ∧
    claimBalance tx channel chAmount=.ok (claimed,claimAmount)

/-- What a successful transaction at the given time does to the entry that it works on. -/
inductive LockEffect (crypto : Crypto) (tx : Json) (now : ℕ) : TransactionType → Option Data →
    Option Data → Prop
  | escrowCreated {accountStr destinationStr : String} {amount ownerNode : ℕ} {destNode : Option ℕ}
      (haccount : strField tx "Account"=some accountStr)
      (hdestination : strField tx "Destination"=some destinationStr)
      (hamount : getXrpAmount tx=some amount) :
      LockEffect crypto tx now .escrowCreate none
      (some (.json (escrowEntry tx accountStr destinationStr amount ownerNode destNode)))
  | escrowFinished {escrow : Json} (hafter : ∀ t, u64Field escrow "FinishAfter"=some t → t ≤ now) :
    LockEffect crypto tx now .escrowFinish (some (.json escrow)) none
  | escrowCancelled {escrow : Json} {t : ℕ} (hfield : u64Field escrow "CancelAfter"=some t)
      (hafter : t ≤ now) :
      LockEffect crypto tx now .escrowCancel (some (.json escrow)) none
  | channelCreated {accountStr destinationStr : String} {amount ownerNode : ℕ} {destNode : Option ℕ}
      (haccount : strField tx "Account"=some accountStr)
      (hdestination : strField tx "Destination"=some destinationStr)
      (hamount : getXrpAmount tx=some amount) :
      LockEffect crypto tx now .paymentChannelCreate none
      (some (.json (payChannelEntry tx accountStr destinationStr amount ownerNode destNode)))
  | channelFunded {channel : Json} {chAmount amount : ℕ}
      (hsource : strField channel "Account"=strField tx "Account")
      (hchAmount : getXrpAmount channel=some chAmount) (hamount : getXrpAmount tx=some amount) :
    LockEffect crypto tx now .paymentChannelFund (some (.json channel))
      (some (.json (fundedChannel tx channel chAmount amount)))
  | claimKept {channel claimed : Json} {accountStr chSrc : String}
      (claim : ClaimMade tx channel claimed accountStr chSrc) (hflag : getFlags tx &&& tfClose=0) :
    LockEffect crypto tx now .paymentChannelClaim (some (.json channel)) (some (.json claimed))
  | closeRequested {channel claimed : Json} {accountStr chSrc : String}
      (claim : ClaimMade tx channel claimed accountStr chSrc) (hflag : getFlags tx &&& tfClose≠0)
      (hsource : accountStr=chSrc) :
    LockEffect crypto tx now .paymentChannelClaim (some (.json channel))
      (some (.json (claimed.set "Expiration" (.int (closeExpiration claimed now)))))
  | channelClosed {channel claimed : Json} {accountStr chSrc : String}
      (claim : ClaimMade tx channel claimed accountStr chSrc) (hflag : getFlags tx &&& tfClose≠0)
      (hsource : accountStr≠chSrc) :
    LockEffect crypto tx now .paymentChannelClaim (some (.json channel)) none

section

variable {crypto : Crypto} {below : ReadView} {s s' : Sandbox below} {tx : Json}

open Keylet ViewM

/-! ## Frames of the handlers -/

theorem frame_removeKeepRoot (id : AccountId) (entry : Hash256) :
    Frame (ownerPages crypto) (removeFromOwnerDirKeepRoot crypto id entry : ViewM below Unit) :=
  (frame_dirRemove crypto _ entry true).mono (pageKeys_subset_ownerPages crypto id)

theorem frame_addToOwnerPages (id : AccountId) (entry : Hash256) :
    Frame (ownerPages crypto) (addToOwnerDir crypto id entry : ViewM below ℕ) :=
  (frame_addToOwnerDir crypto id entry).mono (pageKeys_subset_ownerPages crypto id)

theorem frame_linkDestination (src dst : AccountId) (entry : Hash256) :
    Frame (ownerPages crypto) (linkDestination crypto src dst entry : ViewM below (Option ℕ)) := by
  unfold linkDestination
  split
  · exact frame_bind (frame_addToOwnerPages dst entry) fun _ => frame_pure _
  · exact frame_pure _

theorem frame_unlinkDestination (src dst : AccountId) (entry : Hash256) :
    Frame (ownerPages crypto) (unlinkDestination crypto src dst entry : ViewM below Unit) := by
  unfold unlinkDestination
  split
  · exact frame_removeKeepRoot dst entry
  · exact frame_pure _

theorem frame_unlinkNamed (owner : AccountId) (escrow : Json) (entry : Hash256) :
    Frame (ownerPages crypto) (unlinkNamed crypto owner escrow entry : ViewM below Unit) := by
  unfold unlinkNamed
  split
  · exact frame_unlinkDestination owner _ entry
  · exact frame_pure _

/-- Two sandboxes that agree away from accounts, pages and one key. -/
def AgreeApart (crypto : Crypto) (k : Hash256) (s s' : Sandbox below) : Prop :=
  ∀ k', (∀ id, k'≠Keylet.account crypto id) → k'∉ownerPages crypto → k'≠k → s'.read k'=s.read k'

variable {chDst chSrc : String} {channel escrow : Json} {k : Hash256} {owner : AccountId} {seq : ℕ}
  {view : ReadView}

theorem Credited.read_eq {dst : AccountId} {destinationStr : String} {amount : ℕ}
    (h : Credited crypto dst destinationStr amount s s') (hk : k≠Keylet.account crypto dst) :
    s'.read k=s.read k := by
  cases h with
  | there account hread h => rw [h.read,update_of_ne hk]
  | created hread h => rw [h.read,update_of_ne hk]

theorem ClaimCredited.read_eq {claimAmount : ℕ} (h : ClaimCredited crypto chDst claimAmount s s')
    (hk : ∀ id, k≠Keylet.account crypto id) : s'.read k=s.read k := by
  cases h with
  | nothing hzero h => rw [h]
  | paid dst account hpos hdecode hread h => rw [h.read,update_of_ne (hk dst)]

variable {key : AccountId → AccountId → Hash256} {entry : String → String → ℕ → ℕ → Option ℕ → Json}

theorem LockCreation.agreeApart (c : LockCreation crypto tx key entry s s') :
    AgreeApart crypto (key c.src c.dst) s s' := by
  intro k haccount hpages hk
  rw [c.touch.read,c.insert.read,update_of_ne hk,
    (frame_linkDestination _ _ _).read_eq c.link hpages,
    (frame_addToOwnerPages _ _).read_eq c.list hpages,c.pay.read,update_of_ne (haccount _)]

theorem EscrowFinished.agreeApart (c : EscrowFinished crypto tx s s') :
    AgreeApart crypto (Keylet.escrow crypto c.owner c.seq) s s' := by
  intro k haccount hpages hk
  rw [c.count.read,update_of_ne (haccount _),c.erase.read,update_of_ne hk,
    (frame_unlinkDestination _ _ _).read_eq c.unlink hpages,
      (frame_removeKeepRoot _ _).read_eq c.unlist hpages,
    c.credit.read_eq (haccount _)]

theorem EscrowCancelled.agreeApart (c : EscrowCancelled crypto tx s s') :
    AgreeApart crypto (Keylet.escrow crypto c.owner c.seq) s s' := by
  intro k haccount hpages hk
  rw [c.erase.read,update_of_ne hk,(frame_unlinkNamed _ _ _).read_eq c.unlink hpages,
    (frame_removeKeepRoot _ _).read_eq c.unlist hpages,c.credit.read,update_of_ne (haccount _)]

theorem ChannelFunding.agreeApart (c : ChannelFunding crypto tx s s') :
    AgreeApart crypto c.channelKey s s' := by
  intro k haccount hpages hk
  rw [c.pay.read,update_of_ne (haccount _),c.fund.read,update_of_ne hk]

theorem ChannelClosed.agreeApart {channelKey : Hash256} {chAmount : ℕ}
    (c : ChannelClosed crypto channelKey channel chAmount chSrc chDst s s') :
      AgreeApart crypto channelKey s s' := by
  intro k haccount hpages hk
  rw [c.erase.read,update_of_ne hk,(frame_unlinkDestination _ _ _).read_eq c.unlink hpages,
    (frame_removeKeepRoot _ _).read_eq c.unlist hpages,c.pay.read,update_of_ne (haccount _)]

theorem ChannelClaim.agreeApart (c : ChannelClaim crypto tx s s') :
    AgreeApart crypto c.channelKey s s' := by
  intro k haccount hpages hk
  rw [← c.credit.read_eq haccount]
  cases c.settle with
  | kept hflag h => rw [h.read,update_of_ne hk]
  | requested hflag hsource h => rw [h.read,update_of_ne hk]
  | closed hflag hsource closing => exact closing.agreeApart k haccount hpages hk

/-! ## The entry that a handler works on -/

theorem LockCreation.read_target (c : LockCreation crypto tx key entry s s')
    (hk : Apart crypto (key c.src c.dst)) :
    s.read (key c.src c.dst)=none ∧ s'.read (key c.src c.dst) =
      some (.json (entry c.accountStr c.destinationStr c.amount c.ownerNode c.destNode)) := by
  constructor
  · rw [← c.fresh,(frame_linkDestination _ _ _).read_eq c.link hk.pages,
      (frame_addToOwnerPages _ _).read_eq c.list hk.pages,c.pay.read,update_of_ne (hk.account _)]
  · rw [c.touch.read,c.insert.read,update_self]

theorem EscrowFinished.read_target (c : EscrowFinished crypto tx s s')
    (hk : Apart crypto (Keylet.escrow crypto c.owner c.seq)) :
      s'.read (Keylet.escrow crypto c.owner c.seq)=none := by
  rw [c.count.read,update_of_ne (hk.account _),c.erase.read,update_self]

theorem EscrowCancelled.read_target (c : EscrowCancelled crypto tx s s') :
    s'.read (Keylet.escrow crypto c.owner c.seq)=none := by
  rw [c.erase.read,update_self]

theorem ChannelFunding.read_target (c : ChannelFunding crypto tx s s')
    (hk : Apart crypto c.channelKey) :
    s'.read c.channelKey=some (.json (fundedChannel tx c.channel c.chAmount c.amount)) := by
  rw [c.pay.read,update_of_ne (hk.account _),c.fund.read,update_self]

/-- The entry after a claim, as the flag and the sender have it. -/
theorem ChannelClaim.effect (c : ChannelClaim crypto tx s s')
    (hparty : c.accountStr=c.chSrc ∨ strField c.channel "Destination"=some c.accountStr) :
    LockEffect crypto tx below.parentCloseTime .paymentChannelClaim (some (.json c.channel))
      (s'.read c.channelKey) := by
  have hmade : ClaimMade tx c.channel c.claimed c.accountStr c.chSrc :=
    ⟨c.accountField,c.chSrcField,hparty,c.chAmount,c.claimAmount,c.chAmountField,c.claim⟩
  cases c.settle with
  | kept hflag h =>
    rw [h.read,update_self]
    exact .claimKept hmade hflag
  | requested hflag hsource h =>
    rw [h.read,update_self]
    exact .closeRequested hmade hflag hsource
  | closed hflag hsource closing =>
    rw [closing.erase.read,update_self]
    exact .channelClosed hmade hflag hsource

/-! ## What was checked before -/

theorem accountField_eq {entry : Json} {field str : String} {id : AccountId}
    (hfield : strField entry field=some str)
    (hdecode : Codec.decodeAccountId crypto.sha256 str=.ok id) :
      accountField crypto entry field=some id := by
  rw [accountField,hfield,Option.bind_some,hdecode]
  rfl

theorem EscrowTarget.target_eq {read : Hash256 → Option Data} (c : EscrowTarget crypto tx read) :
    escrowTarget crypto tx=.ok (c.owner,c.seq) :=
  bind_ok_iff.mpr ⟨_,okOr_eq_ok.mpr c.ownerField,bind_ok_iff.mpr ⟨_,okOr_eq_ok.mpr c.seqField,
    bind_ok_iff.mpr ⟨_,decodeAccount_eq_ok.mpr c.decodeOwner,rfl⟩⟩⟩

theorem readEscrow_ok (h : readEscrow crypto tx view=.ok escrow)
    (htarget : escrowTarget crypto tx=.ok (owner,seq)) :
    view.read (Keylet.escrow crypto owner seq)=some (.json escrow) := by
  obtain ⟨target,htarget',h⟩ := bind_ok h
  obtain ⟨bytes,hbytes,hparse⟩ := bind_ok h
  cases htarget.symm.trans htarget'
  rw [okOr_eq_ok.mp hbytes,Data.parse_eq_ok hparse]

theorem readChannel_ok (h : readChannel tx view=.ok channel) (hk : parseChannel tx=.ok k) :
    view.read k=some (.json channel) := by
  obtain ⟨k',hk',h⟩ := bind_ok h
  obtain ⟨bytes,hbytes,hparse⟩ := bind_ok h
  cases hk.symm.trans hk'
  rw [okOr_eq_ok.mp hbytes,Data.parse_eq_ok hparse]

theorem escrowFinishPreclaim_ok (h : escrowFinishPreclaim crypto tx view=.ok ())
    (htarget : escrowTarget crypto tx=.ok (owner,seq))
    (hread : view.read (Keylet.escrow crypto owner seq)=some (.json escrow)) :
    ∀ t, u64Field escrow "FinishAfter"=some t → t ≤ view.parentCloseTime := by
  obtain ⟨escrow',hescrow,h⟩ := bind_ok h
  cases hread.symm.trans (readEscrow_ok hescrow htarget)
  intro t ht
  rw [ht] at h
  dsimp only at h
  split_ifs at h with hle
  exact not_lt.mp hle

theorem escrowCancelPreclaim_ok (h : escrowCancelPreclaim crypto tx view=.ok ())
    (htarget : escrowTarget crypto tx=.ok (owner,seq))
    (hread : view.read (Keylet.escrow crypto owner seq)=some (.json escrow)) :
    ∃ t, u64Field escrow "CancelAfter"=some t ∧ t ≤ view.parentCloseTime := by
  obtain ⟨escrow',hescrow,h⟩ := bind_ok h
  cases hread.symm.trans (readEscrow_ok hescrow htarget)
  obtain ⟨t,ht,h⟩ := bind_ok h
  split_ifs at h with hle
  exact ⟨t,okOr_eq_ok.mp ht,not_lt.mp hle⟩

theorem payChannelFundPreclaim_ok (h : payChannelFundPreclaim crypto tx view=.ok ())
    (hk : parseChannel tx=.ok k) (hread : view.read k=some (.json channel)) :
      strField channel "Account"=strField tx "Account" := by
  obtain ⟨channel',hchannel,h⟩ := bind_ok h
  cases hread.symm.trans (readChannel_ok hchannel hk)
  obtain ⟨accountStr,haccount,h⟩ := bind_ok h
  obtain ⟨chSrc,hsrc,h⟩ := bind_ok h
  split_ifs at h with heq
  rw [okOr_eq_ok.mp hsrc,getAccount_eq_ok.mp haccount,not_not.mp heq]

theorem payChannelClaimPreclaim_ok (h : payChannelClaimPreclaim tx view=.ok ())
    (hk : parseChannel tx=.ok k) (hread : view.read k=some (.json channel)) {accountStr : String}
    (haccount : strField tx "Account"=some accountStr)
    (hsrc : strField channel "Account"=some chSrc) :
    accountStr=chSrc ∨ strField channel "Destination"=some accountStr := by
  obtain ⟨channel',hchannel,h⟩ := bind_ok h
  cases hread.symm.trans (readChannel_ok hchannel hk)
  obtain ⟨accountStr',haccount',h⟩ := bind_ok h
  cases haccount.symm.trans (getAccount_eq_ok.mp haccount')
  obtain ⟨chSrc',hsrc',h⟩ := bind_ok h
  cases hsrc.symm.trans (okOr_eq_ok.mp hsrc')
  obtain ⟨chDst,hdst,h⟩ := bind_ok h
  by_cases hsource : accountStr=chSrc
  · exact .inl hsource
  by_cases hdestination : accountStr=chDst
  · exact .inr (by rw [okOr_eq_ok.mp hdst,hdestination])
  · simp [hsource,hdestination] at h

end

/-! ## The entries that are written -/

section

variable {amount : ℕ}

theorem setBalance_fields (account : Json) (b : ℕ) :
    FieldsAgree chargeFields account (setBalance account b) :=
  fieldsAgree_set (by simp [chargeFields]) _ _

theorem adjustBalance_fields (account : Json) (b : ℕ) (delta : ℤ) :
    FieldsAgree chargeFields account (adjustOwnerCount (setBalance account b) delta) :=
  (setBalance_fields account b).trans
    ((adjustOwnerCount_fields _ delta).mono (by simp [chargeFields]))

theorem getBalance_adjustBalance (account : Json) {b : ℕ} (hb : b < 2^64) (delta : ℤ) :
    getBalance (adjustOwnerCount (setBalance account b) delta)=b := by
  rw [getBalance_congr (adjustOwnerCount_fields _ delta "Balance" (by decide)),
    getBalance_setBalance _ hb]

theorem escrowEntry_spec (tx : Json) (accountStr destinationStr : String) (hamount : amount < 2^64)
    (ownerNode : ℕ) (destNode : Option ℕ) :
    entryType (escrowEntry tx accountStr destinationStr amount ownerNode destNode)=some "Escrow" ∧
      getXrpAmount (escrowEntry tx accountStr destinationStr amount ownerNode destNode) =
        some amount ∧
      getBalance (escrowEntry tx accountStr destinationStr amount ownerNode destNode)=0 := by
  simp [escrowEntry,entryType,getXrpAmount,getBalance,getU64StrField,strField,Json.get_object,
    Json.find,Json.asStr,
    parseU64_natString hamount]

theorem payChannelEntry_spec (tx : Json) (accountStr destinationStr : String)
    (hamount : amount < 2^64) (ownerNode : ℕ) (destNode : Option ℕ) :
    entryType (payChannelEntry tx accountStr destinationStr amount ownerNode destNode) =
      some "PayChannel" ∧
      getXrpAmount (payChannelEntry tx accountStr destinationStr amount ownerNode destNode) =
        some amount ∧
      getBalance (payChannelEntry tx accountStr destinationStr amount ownerNode destNode)=0 := by
  have hzero : parseU64 "0"=some 0 := by decide
  simp [payChannelEntry,entryType,getXrpAmount,getBalance,getU64StrField,strField,Json.get_object,
    Json.find,
    Json.asStr,parseU64_natString hamount,hzero]

theorem getBalance_refunded (account : Json) (remaining : ℕ) :
    getBalance (refunded account remaining)=(getBalance account+remaining) % 2^64 := by
  unfold refunded
  split
  · exact getBalance_adjustBalance _ (Nat.mod_lt _ (by simp)) _
  · have hlt := getBalance_lt account
    rw [getBalance_congr (adjustOwnerCount_fields account (-1) "Balance" (by decide)),
      Nat.mod_eq_of_lt (by omega)]
    omega

end

/-! ## One transaction -/

theorem lockTransactor_effect {txType : TransactionType} {t : Transactor}
    (ht : lockTransactor crypto txType=some t) {tx : Json} {rules : Rules} {fees : FeeSettings}
    {view : ReadView} {s : Sandbox view} {child : Sandbox s.toReadView}
    (hsame : ∀ k, Apart crypto k → s.read k=view.read k)
    (hpreclaim : t.preclaim tx view rules=.ok ())
    (hrun : t.apply tx rules fees s.child=.ok (.tesSuccess,child)) :
    ∃ k, lockTarget crypto tx txType=some k ∧
      (Apart crypto k → LockEffect crypto tx view.parentCloseTime txType (view.read k)
        (child.read k)) ∧
      ∀ k', Apart crypto k' → k'≠k → child.read k'=view.read k' := by
  have hother : ∀ {k}, AgreeApart crypto k s.child child → ∀ k', Apart crypto k' → k'≠k →
    child.read k'=view.read k' := by
    intro k hagree k' hk' hne
    rw [hagree k' hk'.account hk'.pages hne,Sandbox.read_child,hsame k' hk']
  cases txType with
  | escrowCreate =>
    cases ht
    obtain ⟨-,⟨c⟩⟩ := escrowCreateApply_ok hrun
    refine ⟨_,by rw [lockTarget,accountField_eq c.accountField c.decodeSrc]; rfl,fun hk => ?_,
      hother c.agreeApart⟩
    obtain ⟨hnone,hsome⟩ := c.read_target hk
    rw [hsome,← hsame _ hk,← Sandbox.read_child,hnone]
    exact .escrowCreated c.accountField c.destinationField c.amountField
  | escrowFinish =>
    cases ht
    obtain ⟨-,⟨c⟩⟩ := escrowFinishApply_ok hrun
    refine ⟨_,by rw [lockTarget,c.target_eq]; rfl,fun hk => ?_,hother c.agreeApart⟩
    have hread : view.read (Keylet.escrow crypto c.owner c.seq)=some (.json c.escrow) := by
      rw [← hsame _ hk,← Sandbox.read_child,c.readEscrow]
    rw [c.read_target hk,hread]
    exact .escrowFinished (escrowFinishPreclaim_ok hpreclaim c.target_eq hread)
  | escrowCancel =>
    cases ht
    obtain ⟨-,⟨c⟩⟩ := escrowCancelApply_ok hrun
    refine ⟨_,by rw [lockTarget,c.target_eq]; rfl,fun hk => ?_,hother c.agreeApart⟩
    have hread : view.read (Keylet.escrow crypto c.owner c.seq)=some (.json c.escrow) := by
      rw [← hsame _ hk,← Sandbox.read_child,c.readEscrow]
    obtain ⟨t,hfield,hafter⟩ := escrowCancelPreclaim_ok hpreclaim c.target_eq hread
    rw [c.read_target,hread]
    exact .escrowCancelled hfield hafter
  | paymentChannelCreate =>
    cases ht
    obtain ⟨-,⟨c⟩⟩ := payChannelCreateApply_ok hrun
    refine ⟨_,by rw [lockTarget,accountField_eq c.accountField c.decodeSrc,
      accountField_eq c.destinationField c.decodeDst]; rfl,fun hk => ?_,hother c.agreeApart⟩
    obtain ⟨hnone,hsome⟩ := c.read_target hk
    rw [hsome,← hsame _ hk,← Sandbox.read_child,hnone]
    exact .channelCreated c.accountField c.destinationField c.amountField
  | paymentChannelFund =>
    cases ht
    obtain ⟨-,⟨c⟩⟩ := payChannelFundApply_ok hrun
    refine ⟨_,by rw [lockTarget,c.channelField]; rfl,fun hk => ?_,hother c.agreeApart⟩
    have hread : view.read c.channelKey=some (.json c.channel) := by
      rw [← hsame _ hk,← Sandbox.read_child,c.readChannel]
    rw [c.read_target hk,hread]
    exact .channelFunded (payChannelFundPreclaim_ok hpreclaim c.channelField hread) c.chAmountField
      c.amountField
  | paymentChannelClaim =>
    cases ht
    obtain ⟨-,⟨c⟩⟩ := payChannelClaimApply_ok hrun
    refine ⟨_,by rw [lockTarget,c.channelField]; rfl,fun hk => ?_,hother c.agreeApart⟩
    have hread : view.read c.channelKey=some (.json c.channel) := by
      rw [← hsame _ hk,← Sandbox.read_child,c.readChannel]
    rw [hread]
    exact c.effect
      (payChannelClaimPreclaim_ok hpreclaim c.channelField hread c.accountField c.chSrcField)
  | _ => cases ht

section

variable {env : Env} {engine : TxEngine}

variable {k : Hash256} {l : Ledger} {sub : Submission} {tx : Json} {txType : TransactionType}

theorem Charged.read_apart {rules : Rules} {view : ReadView} {s : Sandbox view}
    (h : Charged env tx view rules s) (hk : Apart env.crypto k) : s.read k=view.read k := by
  obtain ⟨id,-,hsame⟩ := h.read_eq
  exact hsame k (hk.account id) (fun hpage => hk.pages ⟨id,hpage⟩) (hk.ticket id)

/-- What a transaction on an escrow or channel does to the entries at keys of their own. -/
inductive LockStep (env : Env) (sub : Submission) (txType : TransactionType) (l : Ledger) : Stop →
    Ledger → Prop
  | failed {r : Stop} {l' : Ledger} (hr : r≠.ok .tesSuccess)
      (hkept : ∀ k, Apart env.crypto k → Recorded (l.read k) (l'.read k)) :
      LockStep env sub txType l r l'
  | done {l' : Ledger} (k : Hash256) (htarget : lockTarget env.crypto sub.tx txType=some k)
    (heffect : Apart env.crypto k →
      ∃ d, LockEffect env.crypto sub.tx sub.header.parentCloseTime txType (l.read k) d ∧
        Recorded d (l'.read k))
    (hkept : ∀ k', Apart env.crypto k' → k'≠k → Recorded (l.read k') (l'.read k')) :
    LockStep env sub txType l (.ok .tesSuccess) l'

theorem lock_step (hengine : RunsLocks env engine) (hopen : l.isOpen=true)
    (htype : typeOf sub.tx=some txType) (hlock : (lockTransactor env.crypto txType).isSome=true) :
    LockStep env sub txType l (sub.apply env engine l).1 (ledgerStep env engine l sub) := by
  obtain ⟨txType',t,htype',ht,hord⟩ :=
    IsLockTx.ordinary hengine (show IsLockTx env.crypto sub.tx from ⟨txType,htype,hlock⟩)
  cases htype.symm.trans htype'
  have hfate : Fate env t txType sub.tx (sub.opened l) sub.rules sub.fees _ _ :=
    apply_fate hord hopen
  unfold ledgerStep Submission.apply
  generalize apply env engine sub.tx (sub.opened l) sub.rules sub.fees=out at hfate ⊢
  obtain ⟨r,l'⟩ := out
  cases hfate with
  | stopped hr => exact .failed hr fun k _ => .refl _
  | claimed o hcharged hc hr =>
    refine .failed (fun h => hr (by simpa using h)) fun k hk => ?_
    have hrec : Recorded (o.sandbox.read k) (l'.read k) := hc.read_agreeOff k
    rw [hcharged.read_apart hk] at hrec
    exact hrec
  | applied s child o hpre hpreclaim hproxy hcharged hrun hsandbox hc =>
    obtain ⟨k,htarget,heffect,hother⟩ :=
      lockTransactor_effect ht (fun k hk => hcharged.read_apart hk) hpreclaim hrun
    have hrec : ∀ k, Recorded (child.read k) (l'.read k) := by
      intro k
      have h : Recorded (o.sandbox.read k) (l'.read k) := hc.read_agreeOff k
      rw [hsandbox,Sandbox.read_mergeChild] at h
      exact h
    refine .done k htarget (fun hk => ⟨child.read k,heffect hk,hrec k⟩) fun k' hk' hne => ?_
    have h := hrec k'
    rw [hother k' hk' hne] at h
    exact h

/-! ## One entry along a run -/

/-- The transaction is of a type and works on the entry at a key, with success. -/
structure Works (env : Env) (engine : TxEngine) (k : Hash256) (l : Ledger) (sub : Submission)
    (txType : TransactionType) (entry : Json) : Prop where
  typed : typeOf sub.tx=some txType
  target : lockTarget env.crypto sub.tx txType=some k
  done : (sub.apply env engine l).1=.ok .tesSuccess
  entry : l.read k=some (.json entry)

/-- The transaction leaves the entry at a key alone, whatever the ledger. -/
def Bystander (env : Env) (engine : TxEngine) (k : Hash256) (sub : Submission) : Prop :=
  ∀ l : Ledger, l.isOpen=true →
    (ledgerStep env engine l sub).isOpen=true ∧
      Recorded (l.read k) ((ledgerStep env engine l sub).read k)

/-- A transaction on escrows or channels, or one that leaves the entry at the key alone. -/
def Concerns (env : Env) (engine : TxEngine) (k : Hash256) (sub : Submission) : Prop :=
  IsLockTx env.crypto sub.tx ∨ Bystander env engine k sub

theorem isSome_lockTransactor_of_target {crypto : Crypto} (h : lockTarget crypto tx txType=some k) :
    (lockTransactor crypto txType).isSome=true := by
  unfold lockTarget at h
  split at h <;> first | rfl | cases h

theorem Concerns.isOpen (hengine : RunsLocks env engine) (h : Concerns env engine k sub)
    (hopen : l.isOpen=true) : (ledgerStep env engine l sub).isOpen=true := by
  obtain hlock | hother := h
  · obtain ⟨txType,t,-,-,hord⟩ := hlock.ordinary hengine
    have hfate : Fate env t txType sub.tx (sub.opened l) sub.rules sub.fees _ _ :=
      apply_fate hord hopen
    exact hfate.isOpen hopen
  · exact (hother l hopen).1

theorem lock_effect (hengine : RunsLocks env engine) (hk : Apart env.crypto k)
    (hopen : l.isOpen=true) (htype : typeOf sub.tx=some txType)
    (htarget : lockTarget env.crypto sub.tx txType=some k)
    (hdone : (sub.apply env engine l).1=.ok .tesSuccess) :
    ∃ d, LockEffect env.crypto sub.tx sub.header.parentCloseTime txType (l.read k) d ∧
      Recorded d ((ledgerStep env engine l sub).read k) := by
  have hstep := lock_step hengine hopen htype (isSome_lockTransactor_of_target htarget)
  rw [hdone] at hstep
  cases hstep with
  | failed hr hkept => exact (hr rfl).elim
  | done k' htarget' heffect hkept =>
    cases htarget.symm.trans htarget'
    exact heffect hk

theorem concerns_cases (hengine : RunsLocks env engine) (hk : Apart env.crypto k)
    (hsub : Concerns env engine k sub) (hopen : l.isOpen=true) :
    (∃ txType, typeOf sub.tx=some txType ∧ lockTarget env.crypto sub.tx txType=some k ∧
        (sub.apply env engine l).1=.ok .tesSuccess) ∨
      Recorded (l.read k) ((ledgerStep env engine l sub).read k) := by
  obtain ⟨txType,htype,hlock⟩ | hother := hsub
  · have hstep := lock_step hengine hopen htype hlock
    generalize hr : (sub.apply env engine l).1=r at hstep
    cases hstep with
    | failed hr' hkept => exact .inr (hkept k hk)
    | done k' htarget heffect hkept =>
      by_cases he : k=k'
      · exact .inl ⟨txType,htype,he ▸ htarget,rfl⟩
      · exact .inr (hkept k hk he)
  · exact .inr (hother l hopen).2

end

/-! ## Transactions of two parties -/

def escrowParties : Ledger :=
  openLedger 0 [(Keylet.account paddedCrypto (party 1),accountRoot 1 "1000" 1 0),
    (Keylet.account paddedCrypto (party 2),accountRoot 2 "1000" 1 0)]

def escrowTx (more : List (String × Json)) : Json :=
  .obj
    ([("TransactionType",.str "EscrowCreate"),("Account",.str (address 1)),
    ("Destination",.str (address 2)),
    ("Amount",.str "500"),("FinishAfter",.int 100),("Fee",.str "10"),
      ("Sequence",.int 1)]++more)

def finishTx (sequence : ℕ) : Json :=
  .obj [("TransactionType",.str "EscrowFinish"),("Account",.str (address 2)),
    ("Owner",.str (address 1)),
    ("OfferSequence",.int 1),("Fee",.str "10"),("Sequence",.int sequence)]

/-- The second party claims the escrow as if it were a payment channel. -/
def claimTx : Json :=
  .obj [("TransactionType",.str "PaymentChannelClaim"),("Account",.str (address 2)),
    ("Channel",.str (hashText (Keylet.escrow paddedCrypto (party 1) 1))),("Balance",.str "500"),
      ("Fee",.str "10"),
    ("Sequence",.int 1)]

end Rxrpl.Tx
