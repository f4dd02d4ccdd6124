import Rxrpl.EscrowHandlers

/-!
# Payment channels

The transactors `PaymentChannelCreate`, `PaymentChannelFund` and `PaymentChannelClaim`, and what a
successful run of each has done. A fund and a claim take the entry at the key in the field
`Channel`, whatever its type.
-/

namespace Rxrpl.Tx

open Codec (AccountId)

def disallowIncomingPayChan : ℕ := 0x10000000

def tfClose : ℕ := 0x00020000

section

variable (crypto : Crypto)

/-! ## PaymentChannelCreate -/

variable (tx : Json)

def payChannelCreatePreflight : Except TransactionResult Unit :=
  okOr (getXrpAmount tx) .temBadAmount >>= fun amount =>
  if amount=0 then .error .temBadAmount
  else
    getDestination tx >>= fun _ =>
    okOr (getU32Field tx "SettleDelay") .temMalformed >>= fun settleDelay =>
    if settleDelay=0 then .error .temMalformed
    else
      okOr (strField tx "PublicKey") .temMalformed >>= fun _ =>
      getAccount tx >>= fun account =>
      getDestination tx >>= fun destination =>
      if account=destination then .error .temBadSend else .ok ()

def payChannelCreatePreclaim (view : ReadView) : Except TransactionResult Unit :=
  getAccount tx >>= fun accountStr =>
  readAccountByAddress crypto view accountStr >>= fun src =>
  getDestination tx >>= fun destinationStr =>
  readAccountByAddress crypto view destinationStr >>= fun dst =>
  if getFlags dst.2 &&& disallowIncomingPayChan≠0 && accountStr≠destinationStr then
    .error .tecNoPermission
  else if getFlags dst.2 &&& requireDestTag≠0 && (getU32Field tx "DestinationTag").isNone
    then .error .tecDstTagNeeded
  else
    okOr (getXrpAmount tx) .temBadAmount >>= fun amount =>
    if getBalance src.2 < (amount+getFee tx) % 2^64 then .error .tecUnfundedPayment else .ok ()

/-- The entry that `PaymentChannelCreate` inserts. The two fields that preflight requires are
unwrapped in the source. -/
def payChannelEntry (accountStr destinationStr : String) (amount ownerNode : ℕ)
    (destNode : Option ℕ) : Json :=
  let entry := Json.object [("LedgerEntryType",.str "PayChannel"),("Account",.str accountStr),
    ("Destination",.str destinationStr),("Amount",.str (natString amount)),
      ("Balance",.str "0"),
    ("SettleDelay",.int ((getU32Field tx "SettleDelay").getD 0)),
      ("PublicKey",.str ((strField tx "PublicKey").getD "")),
    ("Sequence",.int (txSeqProxyValue tx)),("Flags",.int 0),
      ("OwnerNode",.str (u64Hex ownerNode)),
    ("PreviousTxnID",.str zeroHashText),("PreviousTxnLgrSeq",.int 0)]
  let entry := setOptional entry "DestinationNode" (destNode.map fun n => .str (u64Hex n))
  let entry := setOptional entry "CancelAfter" ((getU32Field tx "CancelAfter").map fun n => .int n)
  let entry := setOptional entry "DestinationTag"
    ((getU32Field tx "DestinationTag").map fun n => .int n)
  setOptional entry "SourceTag" ((getU32Field tx "SourceTag").map fun n => .int n)

def payChannelCreateApply {below : ReadView} (tx : Json) : ViewM below TransactionResult :=
  ViewM.lift (getAccount tx) >>= fun accountStr =>
  ViewM.lift (getDestination tx) >>= fun destinationStr =>
  ViewM.lift (okOr (getXrpAmount tx) .temBadAmount) >>= fun amount =>
  ViewM.lift (decodeAccount crypto.sha256 accountStr) >>= fun src =>
  ViewM.lift (decodeAccount crypto.sha256 destinationStr) >>= fun dst =>
  ViewM.readEntry (Keylet.account crypto src) .terNoAccount >>= fun account =>
  if getBalance account < amount then ViewM.fail .tecUnfundedPayment
  else
    ViewM.update (Keylet.account crypto src)
      (adjustOwnerCount (setBalance account (getBalance account-amount)) 1) >>= fun _ =>
    let channelKey := Keylet.payChannel crypto src dst (txSeqProxyValue tx)
    addToOwnerDir crypto src channelKey >>= fun ownerNode =>
    linkDestination crypto src dst channelKey >>= fun destNode =>
    ViewM.insert channelKey
      (payChannelEntry tx accountStr destinationStr amount ownerNode destNode) >>= fun _ =>
    touchDestination crypto src dst >>= fun _ =>
    pure .tesSuccess

def payChannelCreate : Transactor where
  preflight := fun tx _ _ => payChannelCreatePreflight tx
  preclaim := fun tx view _ => payChannelCreatePreclaim crypto tx view
  apply := fun tx _ _ => payChannelCreateApply crypto tx

/-! ## PaymentChannelFund -/

def parseChannel : Except TransactionResult Hash256 :=
  okOr (strField tx "Channel") .temMalformed >>= fun hex =>
  okOr (Codec.hexDecode (utf8 hex)).toOption .temMalformed >>= fun bytes =>
  okOr (Hash256.fromSlice bytes) .temMalformed

def payChannelFundPreflight : Except TransactionResult Unit :=
  parseChannel tx >>= fun _ =>
  okOr (getXrpAmount tx) .temBadAmount >>= fun amount =>
  if amount=0 then .error .temBadAmount else .ok ()

/-- The entry that a transaction names, as preclaim reads it. -/
def readChannel (view : ReadView) : Except TransactionResult Json :=
  parseChannel tx >>= fun channelKey =>
  okOr (view.read channelKey) .tecNoEntry >>= fun bytes =>
  bytes.parse

def payChannelFundPreclaim (view : ReadView) : Except TransactionResult Unit :=
  readChannel tx view >>= fun channel =>
  getAccount tx >>= fun accountStr =>
  okOr (strField channel "Account") .tefInternal >>= fun chSrc =>
  if accountStr≠chSrc then .error .tecNoPermission
  else
    readAccountByAddress crypto view accountStr >>= fun src =>
    okOr (getXrpAmount tx) .temBadAmount >>= fun amount =>
    if getBalance src.2 < (amount+getFee tx) % 2^64 then .error .tecUnfundedPayment else .ok ()

def fundedChannel (tx channel : Json) (chAmount amount : ℕ) : Json :=
  setOptional (channel.set "Amount" (.str (natString ((chAmount+amount) % 2^64)))) "Expiration"
    ((getU32Field tx "Expiration").map fun n => .int n)

def payChannelFundApply {below : ReadView} (tx : Json) : ViewM below TransactionResult :=
  ViewM.lift (parseChannel tx) >>= fun channelKey =>
  ViewM.lift (okOr (getXrpAmount tx) .temBadAmount) >>= fun amount =>
  ViewM.lift (getAccount tx) >>= fun accountStr =>
  ViewM.readEntry channelKey .tecNoEntry >>= fun channel =>
  ViewM.lift (okOr (getXrpAmount channel) .tefInternal) >>= fun chAmount =>
  ViewM.update channelKey (fundedChannel tx channel chAmount amount) >>= fun _ =>
  ViewM.lift (decodeAccount crypto.sha256 accountStr) >>= fun id =>
  ViewM.readEntry (Keylet.account crypto id) .terNoAccount >>= fun account =>
  if getBalance account < amount then ViewM.fail .tecUnfundedPayment
  else
    ViewM.update (Keylet.account crypto id) (setBalance account (getBalance account-amount)) >>=
      fun _ =>
    pure .tesSuccess

def payChannelFund : Transactor where
  preflight := fun tx _ _ => payChannelFundPreflight tx
  preclaim := fun tx view _ => payChannelFundPreclaim crypto tx view
  apply := fun tx _ _ => payChannelFundApply crypto tx

/-! ## PaymentChannelClaim -/

def payChannelClaimPreflight : Except TransactionResult Unit :=
    parseChannel tx >>= fun _ => .ok ()

def payChannelClaimPreclaim (view : ReadView) : Except TransactionResult Unit :=
  readChannel tx view >>= fun channel =>
  getAccount tx >>= fun accountStr =>
  okOr (strField channel "Account") .tefInternal >>= fun chSrc =>
  okOr (strField channel "Destination") .tefInternal >>= fun chDst =>
  if accountStr≠chSrc && accountStr≠chDst then .error .tecNoPermission else .ok ()

/-- The claim of a new balance: the entry with it, and by how much it is raised. -/
def claimBalance (tx channel : Json) (chAmount : ℕ) : Except TransactionResult (Json × ℕ) :=
  match getU64StrField tx "Balance" with
  | none => .ok (channel,0)
  | some newBalance =>
    if chAmount < newBalance then .error .tecUnfundedPayment
    else if newBalance < getBalance channel then .error .temMalformed
    else .ok (channel.set "Balance" (.str (natString newBalance)),newBalance-getBalance channel)

def creditClaim {below : ReadView} (chDst : String) (claimAmount : ℕ) : ViewM below Unit :=
  if 0 < claimAmount then
    ViewM.lift (decodeAccount crypto.sha256 chDst) >>= fun dst =>
    ViewM.readEntry (Keylet.account crypto dst) .terNoAccount >>= fun account =>
    ViewM.update (Keylet.account crypto dst)
      (setBalance account ((getBalance account+claimAmount) % 2^64))
  else pure ()

/-- The time at which a close that the source requests takes effect. -/
def closeExpiration (channel : Json) (now : ℕ) : ℕ :=
  min (now+(getU32Field channel "SettleDelay").getD 0) (2^32-1)

def refunded (account : Json) (remaining : ℕ) : Json :=
  adjustOwnerCount (if 0 < remaining then setBalance account ((getBalance account+remaining) % 2^64)
    else account) (-1)

/-- The end of a claim that closes the channel at once. -/
def closeChannel {below : ReadView} (channelKey : Hash256) (channel : Json) (chAmount : ℕ)
    (chSrc chDst : String) : ViewM below Unit :=
  ViewM.lift (decodeAccount crypto.sha256 chSrc) >>= fun src =>
  ViewM.readEntry (Keylet.account crypto src) .terNoAccount >>= fun account =>
  ViewM.update (Keylet.account crypto src) (refunded account (chAmount-getBalance channel)) >>=
    fun _ =>
  removeFromOwnerDirKeepRoot crypto src channelKey >>= fun _ =>
  ViewM.lift (decodeAccount crypto.sha256 chDst) >>= fun dst =>
  unlinkDestination crypto src dst channelKey >>= fun _ =>
  ViewM.erase channelKey

/-- The last part of a claim: `tfClose` by the source sets the expiration, by the destination it
closes the channel, and without it the entry is written back. -/
def settleClaim {below : ReadView} (tx : Json) (accountStr : String) (channelKey : Hash256)
    (channel : Json) (chAmount : ℕ) (chSrc chDst : String) : ViewM below Unit :=
  if getFlags tx &&& tfClose≠0 then
    if accountStr=chSrc then
      ViewM.update channelKey
        (channel.set "Expiration" (.int (closeExpiration channel below.parentCloseTime)))
    else closeChannel crypto channelKey channel chAmount chSrc chDst
  else ViewM.update channelKey channel

def payChannelClaimApply {below : ReadView} (tx : Json) : ViewM below TransactionResult :=
  ViewM.lift (parseChannel tx) >>= fun channelKey =>
  ViewM.lift (getAccount tx) >>= fun accountStr =>
  ViewM.readEntry channelKey .tecNoEntry >>= fun channel =>
  ViewM.lift (okOr (getXrpAmount channel) .tefInternal) >>= fun chAmount =>
  ViewM.lift (okOr (strField channel "Account") .tefInternal) >>= fun chSrc =>
  ViewM.lift (okOr (strField channel "Destination") .tefInternal) >>= fun chDst =>
  ViewM.lift (claimBalance tx channel chAmount) >>= fun claim =>
  creditClaim crypto chDst claim.2 >>= fun _ =>
  settleClaim crypto tx accountStr channelKey claim.1 chAmount chSrc chDst >>= fun _ =>
  pure .tesSuccess

def payChannelClaim : Transactor where
  preflight := fun tx _ _ => payChannelClaimPreflight tx
  preclaim := fun tx view _ => payChannelClaimPreclaim tx view
  apply := fun tx _ _ => payChannelClaimApply crypto tx

end

/-! ## What a successful run has done -/

section

variable {crypto : Crypto} {tx : Json} {below : ReadView} {s s' : Sandbox below}

abbrev ChannelCreation (crypto : Crypto) (tx : Json) (s s' : Sandbox below) :=
  LockCreation crypto tx (fun src dst => Keylet.payChannel crypto src dst (txSeqProxyValue tx))
    (payChannelEntry tx) s s'

variable {chAmount : ℕ} {chDst chSrc : String} {channel : Json} {channelKey : Hash256}
  {r : TransactionResult} {u : Unit}

theorem payChannelCreateApply_ok (h : payChannelCreateApply crypto tx s=.ok (r,s')) :
    r=.tesSuccess ∧ Nonempty (ChannelCreation crypto tx s s') := by
  obtain ⟨accountStr,haccount,h⟩ := ViewM.lift_bind_eq_ok.mp h
  obtain ⟨destinationStr,hdestination,h⟩ := ViewM.lift_bind_eq_ok.mp h
  obtain ⟨amount,hamount,h⟩ := ViewM.lift_bind_eq_ok.mp h
  obtain ⟨src,hsrc,h⟩ := ViewM.lift_bind_eq_ok.mp h
  obtain ⟨dst,hdst,h⟩ := ViewM.lift_bind_eq_ok.mp h
  obtain ⟨account,hread,h⟩ := ViewM.readEntry_bind_eq_ok.mp h
  obtain ⟨hfunded,h⟩ := ViewM.ite_fail_eq_ok.mp h
  obtain ⟨_,paid,hpay,h⟩ := ViewM.bind_eq_ok.mp h
  obtain ⟨ownerNode,listed,hlist,h⟩ := ViewM.bind_eq_ok.mp h
  obtain ⟨destNode,linked,hlink,h⟩ := ViewM.bind_eq_ok.mp h
  obtain ⟨_,inserted,hinsert,h⟩ := ViewM.bind_eq_ok.mp h
  obtain ⟨_,t,htouch,h⟩ := ViewM.bind_eq_ok.mp h
  obtain ⟨rfl,rfl⟩ := ViewM.pure_eq_ok.mp h
  exact ⟨rfl,⟨{
    accountStr, destinationStr, amount, src, dst, account, ownerNode, destNode, paid, listed,
      linked, inserted
    accountField := getAccount_eq_ok.mp haccount
    destinationField := getDestination_eq_ok.mp hdestination
    amountField := okOr_eq_ok.mp hamount
    decodeSrc := decodeAccount_eq_ok.mp hsrc
    decodeDst := decodeAccount_eq_ok.mp hdst
    readAccount := hread
    funded := not_lt.mp hfunded
    pay := (ViewM.update_eq_ok hpay).2
    list := hlist
    link := hlink
    fresh := (ViewM.insert_eq_ok hinsert).1
    insert := (ViewM.insert_eq_ok hinsert).2
    touch := touchDestination_ok htouch }⟩⟩

structure ChannelFunding (crypto : Crypto) (tx : Json) (s s' : Sandbox below) where
  channelKey : Hash256
  amount : ℕ
  accountStr : String
  channel : Json
  chAmount : ℕ
  id : AccountId
  account : Json
  funded : Sandbox below
  channelField : parseChannel tx=.ok channelKey
  amountField : getXrpAmount tx=some amount
  accountField : strField tx "Account"=some accountStr
  readChannel : s.read channelKey=some (.json channel)
  chAmountField : getXrpAmount channel=some chAmount
  decodeAccount : Codec.decodeAccountId crypto.sha256 accountStr=.ok id
  fund : s.Became funded (Function.update s.read channelKey
    (some (.json (fundedChannel tx channel chAmount amount))))
  readAccount : funded.read (Keylet.account crypto id)=some (.json account)
  affordable : amount ≤ getBalance account
  pay : funded.Became s' (Function.update funded.read (Keylet.account crypto id)
    (some (.json (setBalance account (getBalance account-amount)))))

theorem payChannelFundApply_ok (h : payChannelFundApply crypto tx s=.ok (r,s')) :
    r=.tesSuccess ∧ Nonempty (ChannelFunding crypto tx s s') := by
  obtain ⟨channelKey,hchannel,h⟩ := ViewM.lift_bind_eq_ok.mp h
  obtain ⟨amount,hamount,h⟩ := ViewM.lift_bind_eq_ok.mp h
  obtain ⟨accountStr,haccount,h⟩ := ViewM.lift_bind_eq_ok.mp h
  obtain ⟨channel,hread,h⟩ := ViewM.readEntry_bind_eq_ok.mp h
  obtain ⟨chAmount,hchAmount,h⟩ := ViewM.lift_bind_eq_ok.mp h
  obtain ⟨_,funded,hfund,h⟩ := ViewM.bind_eq_ok.mp h
  obtain ⟨id,hid,h⟩ := ViewM.lift_bind_eq_ok.mp h
  obtain ⟨account,hreadAccount,h⟩ := ViewM.readEntry_bind_eq_ok.mp h
  obtain ⟨haffordable,h⟩ := ViewM.ite_fail_eq_ok.mp h
  obtain ⟨_,t,hpay,h⟩ := ViewM.bind_eq_ok.mp h
  obtain ⟨rfl,rfl⟩ := ViewM.pure_eq_ok.mp h
  exact ⟨rfl,⟨{
    channelKey, amount, accountStr, channel, chAmount, id, account, funded
    channelField := hchannel
    amountField := okOr_eq_ok.mp hamount
    accountField := getAccount_eq_ok.mp haccount
    readChannel := hread
    chAmountField := okOr_eq_ok.mp hchAmount
    decodeAccount := decodeAccount_eq_ok.mp hid
    fund := (ViewM.update_eq_ok hfund).2
    readAccount := hreadAccount
    affordable := not_lt.mp haffordable
    pay := (ViewM.update_eq_ok hpay).2 }⟩⟩

inductive ClaimCredited (crypto : Crypto) (chDst : String) (claimAmount : ℕ)
    (s s' : Sandbox below) : Prop
  | nothing (hzero : claimAmount=0) (h : s'=s)
  | paid (dst : AccountId) (account : Json) (hpos : 0 < claimAmount)
      (hdecode : Codec.decodeAccountId crypto.sha256 chDst=.ok dst)
      (hread : s.read (Keylet.account crypto dst)=some (.json account))
    (h : s.Became s' (Function.update s.read (Keylet.account crypto dst)
      (some (.json (setBalance account ((getBalance account+claimAmount) % 2^64))))))

theorem creditClaim_ok {claimAmount : ℕ} (h : creditClaim crypto chDst claimAmount s=.ok (u,s')) :
    ClaimCredited crypto chDst claimAmount s s' := by
  unfold creditClaim at h
  split at h
  · rename_i hpos
    obtain ⟨dst,hdst,h⟩ := ViewM.lift_bind_eq_ok.mp h
    obtain ⟨account,hread,h⟩ := ViewM.readEntry_bind_eq_ok.mp h
    exact .paid dst account hpos (decodeAccount_eq_ok.mp hdst) hread (ViewM.update_eq_ok h).2
  · rename_i hzero
    obtain ⟨-,rfl⟩ := ViewM.pure_eq_ok.mp h
    exact .nothing (by omega) rfl

/-- The close of a channel by its destination. -/
structure ChannelClosed (crypto : Crypto) (channelKey : Hash256) (channel : Json) (chAmount : ℕ)
    (chSrc chDst : String) (s s' : Sandbox below) where
  src : AccountId
  dst : AccountId
  account : Json
  refund : Sandbox below
  unlisted : Sandbox below
  unlinked : Sandbox below
  decodeSrc : Codec.decodeAccountId crypto.sha256 chSrc=.ok src
  decodeDst : Codec.decodeAccountId crypto.sha256 chDst=.ok dst
  readAccount : s.read (Keylet.account crypto src)=some (.json account)
  pay : s.Became refund (Function.update s.read (Keylet.account crypto src)
    (some (.json (refunded account (chAmount-getBalance channel)))))
  unlist : removeFromOwnerDirKeepRoot crypto src channelKey refund=.ok ((),unlisted)
  unlink : unlinkDestination crypto src dst channelKey unlisted=.ok ((),unlinked)
  erase : unlinked.Became s' (Function.update unlinked.read channelKey none)

theorem closeChannel_ok
    (h : closeChannel crypto channelKey channel chAmount chSrc chDst s=.ok (u,s')) :
    Nonempty (ChannelClosed crypto channelKey channel chAmount chSrc chDst s s') := by
  obtain ⟨src,hsrc,h⟩ := ViewM.lift_bind_eq_ok.mp h
  obtain ⟨account,hread,h⟩ := ViewM.readEntry_bind_eq_ok.mp h
  obtain ⟨_,refund,hpay,h⟩ := ViewM.bind_eq_ok.mp h
  obtain ⟨_,unlisted,hunlist,h⟩ := ViewM.bind_eq_ok.mp h
  obtain ⟨dst,hdst,h⟩ := ViewM.lift_bind_eq_ok.mp h
  obtain ⟨_,unlinked,hunlink,h⟩ := ViewM.bind_eq_ok.mp h
  exact ⟨{
    src, dst, account, refund, unlisted, unlinked
    decodeSrc := decodeAccount_eq_ok.mp hsrc
    decodeDst := decodeAccount_eq_ok.mp hdst
    readAccount := hread
    pay := (ViewM.update_eq_ok hpay).2
    unlist := hunlist
    unlink := hunlink
    erase := (ViewM.erase_eq_ok h).2 }⟩

inductive ClaimSettled (crypto : Crypto) (tx : Json) (accountStr : String) (channelKey : Hash256)
    (channel : Json) (chAmount : ℕ) (chSrc chDst : String) (s s' : Sandbox below) : Prop
  | kept (hflag : getFlags tx &&& tfClose=0)
      (h : s.Became s' (Function.update s.read channelKey (some (.json channel))))
  | requested (hflag : getFlags tx &&& tfClose≠0) (hsource : accountStr=chSrc)
    (h : s.Became s' (Function.update s.read channelKey
      (some
        (.json (channel.set "Expiration" (.int (closeExpiration channel below.parentCloseTime)))))))
  | closed (hflag : getFlags tx &&& tfClose≠0) (hsource : accountStr≠chSrc)
      (c : ChannelClosed crypto channelKey channel chAmount chSrc chDst s s')

theorem settleClaim_ok {accountStr : String}
    (h : settleClaim crypto tx accountStr channelKey channel chAmount chSrc chDst s=.ok (u,s')) :
    ClaimSettled crypto tx accountStr channelKey channel chAmount chSrc chDst s s' := by
  unfold settleClaim at h
  split at h
  · rename_i hflag
    split at h
    · rename_i hsource
      exact .requested hflag hsource (ViewM.update_eq_ok h).2
    · rename_i hsource
      obtain ⟨c⟩ := closeChannel_ok h
      exact .closed hflag hsource c
  · rename_i hflag
    exact .kept (not_not.mp hflag) (ViewM.update_eq_ok h).2

structure ChannelClaim (crypto : Crypto) (tx : Json) (s s' : Sandbox below) where
  channelKey : Hash256
  accountStr : String
  channel : Json
  chAmount : ℕ
  chSrc : String
  chDst : String
  claimed : Json
  claimAmount : ℕ
  credited : Sandbox below
  channelField : parseChannel tx=.ok channelKey
  accountField : strField tx "Account"=some accountStr
  readChannel : s.read channelKey=some (.json channel)
  chAmountField : getXrpAmount channel=some chAmount
  chSrcField : strField channel "Account"=some chSrc
  chDstField : strField channel "Destination"=some chDst
  claim : claimBalance tx channel chAmount=.ok (claimed,claimAmount)
  credit : ClaimCredited crypto chDst claimAmount s credited
  settle : ClaimSettled crypto tx accountStr channelKey claimed chAmount chSrc chDst credited s'

theorem payChannelClaimApply_ok (h : payChannelClaimApply crypto tx s=.ok (r,s')) :
    r=.tesSuccess ∧ Nonempty (ChannelClaim crypto tx s s') := by
  obtain ⟨channelKey,hchannel,h⟩ := ViewM.lift_bind_eq_ok.mp h
  obtain ⟨accountStr,haccount,h⟩ := ViewM.lift_bind_eq_ok.mp h
  obtain ⟨channel,hread,h⟩ := ViewM.readEntry_bind_eq_ok.mp h
  obtain ⟨chAmount,hchAmount,h⟩ := ViewM.lift_bind_eq_ok.mp h
  obtain ⟨chSrc,hchSrc,h⟩ := ViewM.lift_bind_eq_ok.mp h
  obtain ⟨chDst,hchDst,h⟩ := ViewM.lift_bind_eq_ok.mp h
  obtain ⟨⟨claimed,claimAmount⟩,t,h₇,h⟩ := ViewM.bind_eq_ok.mp h
  obtain ⟨hclaim,rfl⟩ := ViewM.lift_eq_ok.mp h₇
  obtain ⟨_,credited,hcredit,h⟩ := ViewM.bind_eq_ok.mp h
  obtain ⟨_,t,hsettle,h⟩ := ViewM.bind_eq_ok.mp h
  obtain ⟨rfl,rfl⟩ := ViewM.pure_eq_ok.mp h
  exact ⟨rfl,⟨{
    channelKey, accountStr, channel, chAmount, chSrc, chDst, claimed, claimAmount, credited
    channelField := hchannel
    accountField := getAccount_eq_ok.mp haccount
    readChannel := hread
    chAmountField := okOr_eq_ok.mp hchAmount
    chSrcField := okOr_eq_ok.mp hchSrc
    chDstField := okOr_eq_ok.mp hchDst
    claim := hclaim
    credit := creditClaim_ok hcredit
    settle := settleClaim_ok hsettle }⟩⟩

end

end Rxrpl.Tx
