import Rxrpl.TxEngine

/-!
# Escrows

The transactors `EscrowCreate`, `EscrowFinish` and `EscrowCancel`. For each one lemma says what a
successful run has read and written, step by step; the properties of escrows are derived from these.
-/

namespace Rxrpl.Tx

open Codec (AccountId)

def okOr {α : Type} (x : Option α) (r : TransactionResult) : Except TransactionResult α :=
  match x with
  | some a => .ok a
  | none => .error r

theorem okOr_eq_ok {α : Type} {x : Option α} {r : TransactionResult} {a : α} : okOr x r=.ok a ↔
    x=some a := by
  cases x <;> simp [okOr]

def readAccountByAddress (crypto : Crypto) (view : ReadView) (address : String) :
    Except TransactionResult (Hash256 × Json) :=
  decodeAccount crypto.sha256 address >>= fun id =>
  okOr (view.read (Keylet.account crypto id)) .terNoAccount >>= fun bytes =>
  bytes.parse >>= fun account =>
  .ok (Keylet.account crypto id,account)

def requireDestTag : ℕ := 0x00020000

def setOptional (entry : Json) (field : String) (x : Option Json) : Json :=
  match x with
  | some v => entry.set field v
  | none => entry

theorem get_setOptional (entry : Json) (field field' : String) (x : Option Json) :
    (setOptional entry field x).get field'=if field'=field then x.or (entry.get field')
      else entry.get field' := by
  cases x <;> simp [setOptional]

@[simp] theorem get_setOptional_ne {field field' : String} (h : field'≠field) (entry : Json)
    (x : Option Json) : (setOptional entry field x).get field'=entry.get field' := by
  rw [get_setOptional,if_neg h]

/-- The account root of an account that is created with a balance. -/
def newAccountRoot (address : String) (balance : ℕ) : Json :=
  Json.object [("LedgerEntryType",.str "AccountRoot"),("Account",.str address),
    ("Balance",.str (natString balance)),
    ("Sequence",.int 1),("OwnerCount",.int 0),("Flags",.int 0)]

section

variable (crypto : Crypto)

/-! ## EscrowCreate -/

variable (tx : Json)

def escrowCreatePreflight : Except TransactionResult Unit :=
  okOr (getXrpAmount tx) .temBadAmount >>= fun amount =>
  if amount=0 then .error .temBadAmount
  else
    getDestination tx >>= fun _ =>
    if (getU32Field tx "FinishAfter").isNone && (strField tx "Condition").isNone then
      .error .temMalformed
    else
      match getU32Field tx "CancelAfter", getU32Field tx "FinishAfter" with
      | some cancel, some finish => if cancel ≤ finish then .error .temBadExpiration else .ok ()
      | _, _ => .ok ()

def escrowCreatePreclaim (view : ReadView) : Except TransactionResult Unit :=
  getAccount tx >>= fun accountStr =>
  readAccountByAddress crypto view accountStr >>= fun _ =>
  getDestination tx >>= fun destinationStr =>
  match readAccountByAddress crypto view destinationStr with
  | .ok (_,dst) =>
    if getFlags dst &&& requireDestTag≠0 && (getU32Field tx "DestinationTag").isNone then
      .error .tecDstTagNeeded
    else .ok ()
  | .error _ => .ok ()

def escrowEntry (accountStr destinationStr : String) (amount ownerNode : ℕ)
    (destNode : Option ℕ) : Json :=
  let entry := Json.object [("LedgerEntryType",.str "Escrow"),("Account",.str accountStr),
    ("Destination",.str destinationStr),("Amount",.str (natString amount)),
      ("Sequence",.int (txSeqProxyValue tx)),
    ("Flags",.int 0),("OwnerNode",.str (u64Hex ownerNode)),("PreviousTxnID",.str zeroHashText),
    ("PreviousTxnLgrSeq",.int 0)]
  let entry := setOptional entry "DestinationNode" (destNode.map fun n => .str (u64Hex n))
  let entry := setOptional entry "FinishAfter" ((getU32Field tx "FinishAfter").map fun n => .int n)
  let entry := setOptional entry "CancelAfter" ((getU32Field tx "CancelAfter").map fun n => .int n)
  let entry := setOptional entry "Condition" ((strField tx "Condition").map .str)
  let entry := setOptional entry "SourceTag" ((getU32Field tx "SourceTag").map fun n => .int n)
  setOptional entry "DestinationTag" ((getU32Field tx "DestinationTag").map fun n => .int n)

/-- The link of an entry into the directory of its destination, when that is another account. -/
def linkDestination {below : ReadView} (src dst : AccountId) (entry : Hash256) :
    ViewM below (Option ℕ) :=
  if dst≠src then addToOwnerDir crypto dst entry >>= fun page => pure (some page) else pure none

/-- The recipient's account root, written back so that the transaction is recorded on it. -/
def touchDestination {below : ReadView} (src dst : AccountId) : ViewM below Unit :=
  if dst≠src then ViewM.touch (Keylet.account crypto dst) else pure ()

def escrowCreateApply {below : ReadView} (tx : Json) (fees : FeeSettings) :
    ViewM below TransactionResult :=
  ViewM.lift (getAccount tx) >>= fun accountStr =>
  ViewM.lift (getDestination tx) >>= fun destinationStr =>
  ViewM.lift (okOr (getXrpAmount tx) .temBadAmount) >>= fun amount =>
  ViewM.lift (decodeAccount crypto.sha256 accountStr) >>= fun src =>
  ViewM.readEntry (Keylet.account crypto src) .terNoAccount >>= fun account =>
  let reserve := fees.accountReserve ((getOwnerCount account+1) % 2^32)
  if getBalance account < reserve then ViewM.fail .tecInsufficientReserve
  else if getBalance account < min (reserve+amount) (2^64-1) then ViewM.fail .tecUnfunded
  else if getBalance account < amount then ViewM.fail .tecUnfundedPayment
  else
    ViewM.update (Keylet.account crypto src)
      (adjustOwnerCount (setBalance account (getBalance account-amount)) 1) >>= fun _ =>
    let escrowKey := Keylet.escrow crypto src (txSeqProxyValue tx)
    ViewM.lift (decodeAccount crypto.sha256 destinationStr) >>= fun dst =>
    addToOwnerDir crypto src escrowKey >>= fun ownerNode =>
    linkDestination crypto src dst escrowKey >>= fun destNode =>
    ViewM.insert escrowKey (escrowEntry tx accountStr destinationStr amount ownerNode destNode) >>=
      fun _ =>
    touchDestination crypto src dst >>= fun _ =>
    pure .tesSuccess

def escrowCreate : Transactor where
  preflight := fun tx _ _ => escrowCreatePreflight tx
  preclaim := fun tx view _ => escrowCreatePreclaim crypto tx view
  apply := fun tx _ fees => escrowCreateApply crypto tx fees

/-! ## EscrowFinish and EscrowCancel -/

def escrowTarget : Except TransactionResult (AccountId × ℕ) :=
  okOr (strField tx "Owner") .temMalformed >>= fun ownerStr =>
  okOr (getU32Field tx "OfferSequence") .temMalformed >>= fun offerSeq =>
  decodeAccount crypto.sha256 ownerStr >>= fun owner =>
  .ok (owner,offerSeq)

def readEscrow (view : ReadView) : Except TransactionResult Json :=
  escrowTarget crypto tx >>= fun target =>
  okOr (view.read (Keylet.escrow crypto target.1 target.2)) .tecNoTarget >>= fun bytes =>
  bytes.parse

def escrowFinishPreflight : Except TransactionResult Unit :=
  okOr (strField tx "Owner") .temMalformed >>= fun _ =>
  okOr (getU32Field tx "OfferSequence") .temMalformed >>= fun _ =>
  if (strField tx "Condition").isSome≠(strField tx "Fulfillment").isSome then .error .temMalformed
    else .ok ()

def escrowFinishPreclaim (view : ReadView) : Except TransactionResult Unit :=
  readEscrow crypto tx view >>= fun escrow =>
  match u64Field escrow "FinishAfter" with
  | some finishAfter => if view.parentCloseTime < finishAfter then .error .tecNoPermission
    else .ok ()
  | none => .ok ()

/-- The credit of a finished escrow to its destination, which is created when it is not there. -/
def creditOrCreate {below : ReadView} (dst : AccountId) (destinationStr : String) (amount : ℕ) :
    ViewM below Unit :=
  ViewM.read (Keylet.account crypto dst) >>= fun
  | some bytes =>
    ViewM.lift bytes.parse >>= fun account =>
    ViewM.update (Keylet.account crypto dst)
      (setBalance account ((getBalance account+amount) % 2^64))
  | none => ViewM.insert (Keylet.account crypto dst) (newAccountRoot destinationStr amount)

/-- The removal of an entry from the directory of its destination, when that is another account. -/
def unlinkDestination {below : ReadView} (src dst : AccountId) (entry : Hash256) :
    ViewM below Unit :=
  if dst≠src then removeFromOwnerDirKeepRoot crypto dst entry else pure ()

def escrowFinishApply {below : ReadView} (tx : Json) : ViewM below TransactionResult :=
  ViewM.lift (escrowTarget crypto tx) >>= fun target =>
  let owner := target.1
  let escrowKey := Keylet.escrow crypto owner target.2
  ViewM.readEntry escrowKey .tecNoTarget >>= fun escrow =>
  ViewM.lift (okOr (getXrpAmount escrow) .tefInternal) >>= fun amount =>
  ViewM.lift (okOr (strField escrow "Destination") .tefInternal) >>= fun destinationStr =>
  ViewM.lift (decodeAccount crypto.sha256 destinationStr) >>= fun dst =>
  creditOrCreate crypto dst destinationStr amount >>= fun _ =>
  removeFromOwnerDirKeepRoot crypto owner escrowKey >>= fun _ =>
  unlinkDestination crypto owner dst escrowKey >>= fun _ =>
  ViewM.erase escrowKey >>= fun _ =>
  ViewM.readEntry (Keylet.account crypto owner) .terNoAccount >>= fun account =>
  ViewM.update (Keylet.account crypto owner) (adjustOwnerCount account (-1)) >>= fun _ =>
  pure .tesSuccess

def escrowFinish : Transactor where
  preflight := fun tx _ _ => escrowFinishPreflight tx
  preclaim := fun tx view _ => escrowFinishPreclaim crypto tx view
  apply := fun tx _ _ => escrowFinishApply crypto tx

def escrowCancelPreflight : Except TransactionResult Unit :=
  okOr (strField tx "Owner") .temMalformed >>= fun _ =>
  okOr (getU32Field tx "OfferSequence") .temMalformed >>= fun _ =>
  .ok ()

def escrowCancelPreclaim (view : ReadView) : Except TransactionResult Unit :=
  readEscrow crypto tx view >>= fun escrow =>
  okOr (u64Field escrow "CancelAfter") .tecNoPermission >>= fun cancelAfter =>
  if view.parentCloseTime < cancelAfter then .error .tecNoPermission else .ok ()

def accountField (entry : Json) (field : String) : Option AccountId :=
  (strField entry field).bind fun s => (Codec.decodeAccountId crypto.sha256 s).toOption

/-- The removal of an entry from the directory of the destination it names, if it names one. -/
def unlinkNamed {below : ReadView} (owner : AccountId) (escrow : Json) (entry : Hash256) :
    ViewM below Unit :=
  match accountField crypto escrow "Destination" with
  | some dst => unlinkDestination crypto owner dst entry
  | none => pure ()

def escrowCancelApply {below : ReadView} (tx : Json) : ViewM below TransactionResult :=
  ViewM.lift (escrowTarget crypto tx) >>= fun target =>
  let owner := target.1
  let escrowKey := Keylet.escrow crypto owner target.2
  ViewM.readEntry escrowKey .tecNoTarget >>= fun escrow =>
  ViewM.lift (okOr (getXrpAmount escrow) .tefInternal) >>= fun amount =>
  ViewM.readEntry (Keylet.account crypto owner) .terNoAccount >>= fun account =>
  ViewM.update (Keylet.account crypto owner)
    (adjustOwnerCount (setBalance account ((getBalance account+amount) % 2^64)) (-1)) >>= fun _ =>
  removeFromOwnerDirKeepRoot crypto owner escrowKey >>= fun _ =>
  unlinkNamed crypto owner escrow escrowKey >>= fun _ =>
  ViewM.erase escrowKey >>= fun _ =>
  pure .tesSuccess

def escrowCancel : Transactor where
  preflight := fun tx _ _ => escrowCancelPreflight tx
  preclaim := fun tx view _ => escrowCancelPreclaim crypto tx view
  apply := fun tx _ _ => escrowCancelApply crypto tx

end

/-! ## What a successful run has done -/

section

variable {crypto : Crypto} {tx : Json} {fees : FeeSettings} {below : ReadView}
  {s s' : Sandbox below}

/-- A successful creation of an escrow or channel: the account pays and counts it, the two
directories list it, and the entry is inserted. -/
structure LockCreation (crypto : Crypto) (tx : Json) (key : AccountId → AccountId → Hash256)
    (entry : String → String → ℕ → ℕ → Option ℕ → Json) (s s' : Sandbox below) where
  accountStr : String
  destinationStr : String
  amount : ℕ
  src : AccountId
  dst : AccountId
  account : Json
  ownerNode : ℕ
  destNode : Option ℕ
  paid : Sandbox below
  listed : Sandbox below
  linked : Sandbox below
  inserted : Sandbox below
  accountField : strField tx "Account"=some accountStr
  destinationField : strField tx "Destination"=some destinationStr
  amountField : getXrpAmount tx=some amount
  decodeSrc : Codec.decodeAccountId crypto.sha256 accountStr=.ok src
  decodeDst : Codec.decodeAccountId crypto.sha256 destinationStr=.ok dst
  readAccount : s.read (Keylet.account crypto src)=some (.json account)
  funded : amount ≤ getBalance account
  pay : s.Became paid (Function.update s.read (Keylet.account crypto src)
    (some (.json (adjustOwnerCount (setBalance account (getBalance account-amount)) 1))))
  list : addToOwnerDir crypto src (key src dst) paid=.ok (ownerNode,listed)
  link : linkDestination crypto src dst (key src dst) listed=.ok (destNode,linked)
  fresh : linked.read (key src dst)=none
  insert : linked.Became inserted (Function.update linked.read (key src dst)
    (some (.json (entry accountStr destinationStr amount ownerNode destNode))))
  touch : inserted.Became s' inserted.read

abbrev EscrowCreation (crypto : Crypto) (tx : Json) (s s' : Sandbox below) :=
  LockCreation crypto tx (fun src _ => Keylet.escrow crypto src (txSeqProxyValue tx))
    (escrowEntry tx) s s'

variable {dst : AccountId} {r : TransactionResult} {u : Unit}

theorem touchDestination_ok {src : AccountId} (h : touchDestination crypto src dst s=.ok (u,s')) :
    s.Became s' s.read := by
  unfold touchDestination at h
  split at h
  · exact ViewM.touch_eq_ok h
  · obtain ⟨-,rfl⟩ := ViewM.pure_eq_ok.mp h
    exact .rfl

theorem escrowCreateApply_ok (h : escrowCreateApply crypto tx fees s=.ok (r,s')) :
    r=.tesSuccess ∧ Nonempty (EscrowCreation crypto tx s s') := by
  obtain ⟨accountStr,haccount,h⟩ := ViewM.lift_bind_eq_ok.mp h
  obtain ⟨destinationStr,hdestination,h⟩ := ViewM.lift_bind_eq_ok.mp h
  obtain ⟨amount,hamount,h⟩ := ViewM.lift_bind_eq_ok.mp h
  obtain ⟨src,hsrc,h⟩ := ViewM.lift_bind_eq_ok.mp h
  obtain ⟨account,hread,h⟩ := ViewM.readEntry_bind_eq_ok.mp h
  dsimp only at h
  split at h
  · exact (ViewM.fail_eq_ok.mp h).elim
  split at h
  · exact (ViewM.fail_eq_ok.mp h).elim
  obtain ⟨hfunded,h⟩ := ViewM.ite_fail_eq_ok.mp h
  obtain ⟨_,paid,hpay,h⟩ := ViewM.bind_eq_ok.mp h
  obtain ⟨dst,hdst,h⟩ := ViewM.lift_bind_eq_ok.mp h
  obtain ⟨ownerNode,listed,hlist,h⟩ := ViewM.bind_eq_ok.mp h
  obtain ⟨destNode,linked,hlink,h⟩ := ViewM.bind_eq_ok.mp h
  obtain ⟨_,inserted,hinsert,h⟩ := ViewM.bind_eq_ok.mp h
  obtain ⟨_,t,htouch,h⟩ := ViewM.bind_eq_ok.mp h
  obtain ⟨rfl,rfl⟩ := ViewM.pure_eq_ok.mp h
  exact ⟨rfl,⟨{
    accountStr, destinationStr, amount, src, dst, account, ownerNode, destNode, paid, listed,
      linked, inserted
    accountField := getAccount_eq_ok.mp haccount
    destinationField := getDestination_eq_ok.mp hdestination
    amountField := okOr_eq_ok.mp hamount
    decodeSrc := decodeAccount_eq_ok.mp hsrc
    decodeDst := decodeAccount_eq_ok.mp hdst
    readAccount := hread
    funded := not_lt.mp hfunded
    pay := (ViewM.update_eq_ok hpay).2
    list := hlist
    link := hlink
    fresh := (ViewM.insert_eq_ok hinsert).1
    insert := (ViewM.insert_eq_ok hinsert).2
    touch := touchDestination_ok htouch }⟩⟩

structure EscrowTarget (crypto : Crypto) (tx : Json) (read : Hash256 → Option Data) where
  ownerStr : String
  owner : AccountId
  seq : ℕ
  escrow : Json
  amount : ℕ
  ownerField : strField tx "Owner"=some ownerStr
  decodeOwner : Codec.decodeAccountId crypto.sha256 ownerStr=.ok owner
  seqField : getU32Field tx "OfferSequence"=some seq
  readEscrow : read (Keylet.escrow crypto owner seq)=some (.json escrow)
  amountField : getXrpAmount escrow=some amount

theorem EscrowTarget.seq_lt {read : Hash256 → Option Data} (c : EscrowTarget crypto tx read) :
    c.seq < 2^32 :=
  getU32Field_lt c.seqField

theorem escrowTarget_ok {target : AccountId × ℕ} (h : escrowTarget crypto tx=.ok target) :
    ∃ ownerStr, strField tx "Owner"=some ownerStr ∧
      Codec.decodeAccountId crypto.sha256 ownerStr=.ok target.1 ∧
      getU32Field tx "OfferSequence"=some target.2 := by
  obtain ⟨ownerStr,howner,h⟩ := bind_ok h
  obtain ⟨seq,hseq,h⟩ := bind_ok h
  obtain ⟨owner,hdecode,h⟩ := bind_ok h
  cases h
  exact ⟨ownerStr,okOr_eq_ok.mp howner,decodeAccount_eq_ok.mp hdecode,okOr_eq_ok.mp hseq⟩

/-- The credit of an amount to an account, which may be a new one. -/
inductive Credited (crypto : Crypto) (dst : AccountId) (destinationStr : String) (amount : ℕ)
    (s s' : Sandbox below) : Prop
  | there (account : Json) (hread : s.read (Keylet.account crypto dst)=some (.json account))
    (h : s.Became s' (Function.update s.read (Keylet.account crypto dst)
      (some (.json (setBalance account ((getBalance account+amount) % 2^64))))))
  | created (hread : s.read (Keylet.account crypto dst)=none)
    (h : s.Became s' (Function.update s.read (Keylet.account crypto dst)
      (some (.json (newAccountRoot destinationStr amount)))))

theorem creditOrCreate_ok {destinationStr : String} {amount : ℕ}
    (h : creditOrCreate crypto dst destinationStr amount s=.ok (u,s')) :
    Credited crypto dst destinationStr amount s s' := by
  obtain ⟨bytes,t,h₁,h⟩ := ViewM.bind_eq_ok.mp h
  obtain ⟨hread,rfl⟩ := ViewM.read_eq_ok.mp h₁
  cases bytes with
  | none => exact .created hread (ViewM.insert_eq_ok h).2
  | some bytes =>
    obtain ⟨account,hparse,h⟩ := ViewM.lift_bind_eq_ok.mp h
    exact .there account (by rw [hread,Data.parse_eq_ok hparse]) (ViewM.update_eq_ok h).2

/-- A successful `EscrowFinish`: the destination is credited, the entry leaves both directories and
the ledger, and the owner counts one entry less. -/
structure EscrowFinished (crypto : Crypto) (tx : Json) (s s' : Sandbox below) extends EscrowTarget
    crypto tx s.read where
  destinationStr : String
  dst : AccountId
  account : Json
  credited : Sandbox below
  unlisted : Sandbox below
  unlinked : Sandbox below
  erased : Sandbox below
  destinationField : strField escrow "Destination"=some destinationStr
  decodeDst : Codec.decodeAccountId crypto.sha256 destinationStr=.ok dst
  credit : Credited crypto dst destinationStr amount s credited
  unlist : removeFromOwnerDirKeepRoot crypto owner (Keylet.escrow crypto owner seq) credited =
    .ok ((),unlisted)
  unlink : unlinkDestination crypto owner dst (Keylet.escrow crypto owner seq) unlisted =
    .ok ((),unlinked)
  erase : unlinked.Became erased
    (Function.update unlinked.read (Keylet.escrow crypto owner seq) none)
  readAccount : erased.read (Keylet.account crypto owner)=some (.json account)
  count : erased.Became s' (Function.update erased.read (Keylet.account crypto owner)
    (some (.json (adjustOwnerCount account (-1)))))

theorem escrowFinishApply_ok (h : escrowFinishApply crypto tx s=.ok (r,s')) :
    r=.tesSuccess ∧ Nonempty (EscrowFinished crypto tx s s') := by
  obtain ⟨⟨owner,seq⟩,t,h₁,h⟩ := ViewM.bind_eq_ok.mp h
  obtain ⟨htarget,rfl⟩ := ViewM.lift_eq_ok.mp h₁
  obtain ⟨ownerStr,howner,hdecode,hseq⟩ := escrowTarget_ok htarget
  obtain ⟨escrow,hread,h⟩ := ViewM.readEntry_bind_eq_ok.mp h
  obtain ⟨amount,hamount,h⟩ := ViewM.lift_bind_eq_ok.mp h
  obtain ⟨destinationStr,hdestination,h⟩ := ViewM.lift_bind_eq_ok.mp h
  obtain ⟨dst,hdst,h⟩ := ViewM.lift_bind_eq_ok.mp h
  obtain ⟨_,credited,hcredit,h⟩ := ViewM.bind_eq_ok.mp h
  obtain ⟨_,unlisted,hunlist,h⟩ := ViewM.bind_eq_ok.mp h
  obtain ⟨_,unlinked,hunlink,h⟩ := ViewM.bind_eq_ok.mp h
  obtain ⟨_,erased,herase,h⟩ := ViewM.bind_eq_ok.mp h
  obtain ⟨account,haccount,h⟩ := ViewM.readEntry_bind_eq_ok.mp h
  obtain ⟨_,t,hcount,h⟩ := ViewM.bind_eq_ok.mp h
  obtain ⟨rfl,rfl⟩ := ViewM.pure_eq_ok.mp h
  exact ⟨rfl,⟨{
    ownerStr, owner, seq, escrow, amount, destinationStr, dst, account, credited, unlisted,
      unlinked, erased
    ownerField := howner
    decodeOwner := hdecode
    seqField := hseq
    readEscrow := hread
    amountField := okOr_eq_ok.mp hamount
    destinationField := okOr_eq_ok.mp hdestination
    decodeDst := decodeAccount_eq_ok.mp hdst
    credit := creditOrCreate_ok hcredit
    unlist := hunlist
    unlink := hunlink
    erase := (ViewM.erase_eq_ok herase).2
    readAccount := haccount
    count := (ViewM.update_eq_ok hcount).2 }⟩⟩

/-- A successful `EscrowCancel`: the owner is credited and counts one entry less, and the entry
leaves both directories and the ledger. -/
structure EscrowCancelled (crypto : Crypto) (tx : Json) (s s' : Sandbox below) extends EscrowTarget
    crypto tx s.read where
  account : Json
  credited : Sandbox below
  unlisted : Sandbox below
  unlinked : Sandbox below
  readAccount : s.read (Keylet.account crypto owner)=some (.json account)
  credit : s.Became credited (Function.update s.read (Keylet.account crypto owner)
    (some
      (.json (adjustOwnerCount (setBalance account ((getBalance account+amount) % 2^64)) (-1)))))
  unlist : removeFromOwnerDirKeepRoot crypto owner (Keylet.escrow crypto owner seq) credited =
    .ok ((),unlisted)
  unlink : unlinkNamed crypto owner escrow (Keylet.escrow crypto owner seq) unlisted =
    .ok ((),unlinked)
  erase : unlinked.Became s' (Function.update unlinked.read (Keylet.escrow crypto owner seq) none)

theorem escrowCancelApply_ok (h : escrowCancelApply crypto tx s=.ok (r,s')) :
    r=.tesSuccess ∧ Nonempty (EscrowCancelled crypto tx s s') := by
  obtain ⟨⟨owner,seq⟩,t,h₁,h⟩ := ViewM.bind_eq_ok.mp h
  obtain ⟨htarget,rfl⟩ := ViewM.lift_eq_ok.mp h₁
  obtain ⟨ownerStr,howner,hdecode,hseq⟩ := escrowTarget_ok htarget
  obtain ⟨escrow,hread,h⟩ := ViewM.readEntry_bind_eq_ok.mp h
  obtain ⟨amount,hamount,h⟩ := ViewM.lift_bind_eq_ok.mp h
  obtain ⟨account,haccount,h⟩ := ViewM.readEntry_bind_eq_ok.mp h
  obtain ⟨_,credited,hcredit,h⟩ := ViewM.bind_eq_ok.mp h
  obtain ⟨_,unlisted,hunlist,h⟩ := ViewM.bind_eq_ok.mp h
  obtain ⟨_,unlinked,hunlink,h⟩ := ViewM.bind_eq_ok.mp h
  obtain ⟨_,t,herase,h⟩ := ViewM.bind_eq_ok.mp h
  obtain ⟨rfl,rfl⟩ := ViewM.pure_eq_ok.mp h
  exact ⟨rfl,⟨{
    ownerStr, owner, seq, escrow, amount, account, credited, unlisted, unlinked
    ownerField := howner
    decodeOwner := hdecode
    seqField := hseq
    readEscrow := hread
    amountField := okOr_eq_ok.mp hamount
    readAccount := haccount
    credit := (ViewM.update_eq_ok hcredit).2
    unlist := hunlist
    unlink := hunlink
    erase := (ViewM.erase_eq_ok herase).2 }⟩⟩

end

end Rxrpl.Tx
