import Rxrpl.OwnerDirectory
import Rxrpl.BinarySerializer

/-!
# The transaction engine

`TxEngine::apply_inner`: the checks before anything is written, the fee and the sequence or ticket
in a sandbox over the ledger, the transactor in a child sandbox, the hooks, the invariant checks,
and the commit. Transactors, invariant checks, hooks and metadata are parameters; a transactor is
given a sandbox and returns one over the same view.

The state map holds its entries in the JSON form in which `LedgerView::read` returns them.
-/

namespace Rxrpl.Tx

open Codec (AccountId decodeAccountId)

/-! ## Ledgers -/

inductive LedgerState
  | open | closed | validated
  deriving DecidableEq

structure LedgerHeader where
  sequence : ℕ
  drops : ℕ
  parentCloseTime : ℕ
  closeTime : ℕ
  parentHash : Hash256

/-- The source's `Ledger`, its two maps by their contents. -/
structure Ledger where
  header : LedgerHeader
  stateMap : HashMap Hash256 Data
  txMap : HashMap Hash256 Bytes
  state : LedgerState
  destroyedDrops : ℕ
  txCount : ℕ

inductive LedgerError
  | immutable | shaMapNotFound
  deriving DecidableEq

namespace Ledger

def isOpen (l : Ledger) : Bool := l.state=.open

def read (l : Ledger) (k : Hash256) : Option Data := l.stateMap.lookup k

def succState (l : Ledger) (k : Hash256) : Option Hash256 :=
    (l.stateMap.keys.filter fun k' => decide (k < k')).min?

/-- `LedgerView::with_fees`. -/
def view (l : Ledger) (fees : FeeSettings) : ReadView where
  read := l.read
  succ := l.succState
  seq := l.header.sequence
  fees := fees
  drops := l.header.drops
  parentCloseTime := l.header.parentCloseTime
  closeTime := l.header.closeTime
  parentHash := l.header.parentHash

def putState (e : Σ _ : Hash256, Data) (l : Ledger) : Except LedgerError Ledger :=
  if !l.isOpen then .error .immutable else .ok { l with stateMap := l.stateMap.insert e.1 e.2 }

def deleteState (e : Σ _ : Hash256, Data) (l : Ledger) : Except LedgerError Ledger :=
  if !l.isOpen then .error .immutable
  else if (l.stateMap.lookup e.1).isNone then .error .shaMapNotFound
  else .ok { l with stateMap := l.stateMap.erase e.1 }

def addTransaction (key : Hash256) (leaf : Bytes) (l : Ledger) : Except LedgerError Ledger :=
  if !l.isOpen then .error .immutable
  else .ok { l with txMap := l.txMap.insert key leaf, txCount := (l.txCount+1) % 2^32 }

def addDestroyed (drops : ℕ) (l : Ledger) : Except LedgerError Ledger :=
  if !l.isOpen then .error .immutable
  else .ok { l with destroyedDrops := (l.destroyedDrops+drops) % 2^64 }

/-- A loop that stops at the first error and leaves what it has done so far. -/
def forEach {α : Type} (step : α → Ledger → Except LedgerError Ledger) : List α → Ledger →
    Except LedgerError Unit × Ledger
  | [], l => (.ok (),l)
  | a::as, l =>
    match step a l with
    | .ok l' => forEach step as l'
    | .error e => (.error e,l)

/-- One part of `apply_to_ledger` after another. -/
def andThen (r : Except LedgerError Unit × Ledger) (f : Ledger → Except LedgerError Unit × Ledger) :
    Except LedgerError Unit × Ledger :=
  match r with
  | (.ok (),l) => f l
  | (.error e,l) => (.error e,l)

end Ledger

/-! ## Changes on their way into the ledger -/

/-- The entry with the transaction that modified it, when it has a field for that. -/
def stampEntry (txId : String) (ledgerSeq : ℕ) (d : Data) : Data :=
  match d with
  | .json (.obj members) =>
    if (Json.find "PreviousTxnID" members).isSome then
      .json (((Json.obj members).set "PreviousTxnID" (.str txId)).set "PreviousTxnLgrSeq"
        (.int ledgerSeq))
    else d
  | d => d

def threadEntry (txId : String) (d : Data) : Data :=
  match d with
  | .json (.obj members) =>
    if (Json.find "AccountTxnID" members).isSome then .json
      ((Json.obj members).set "AccountTxnID" (.str txId)) else d
  | d => d

namespace SandboxChanges

def stampPreviousTxn (c : SandboxChanges) (txId : String) (ledgerSeq : ℕ) : SandboxChanges :=
  { c with
    updates := c.updates.mapValues (stampEntry txId ledgerSeq)
    inserts := c.inserts.mapValues (stampEntry txId ledgerSeq) }

def threadAccountTxnId (c : SandboxChanges) (accountKey : Hash256) (txId : String) :
    SandboxChanges :=
  if (c.updates.lookup accountKey).isSome then
    { c with updates := c.updates.modifyExisting accountKey (threadEntry txId) }
  else { c with inserts := c.inserts.modifyExisting accountKey (threadEntry txId) }

def applyToLedger (c : SandboxChanges) (l : Ledger) : Except LedgerError Unit × Ledger :=
  Ledger.andThen (Ledger.forEach Ledger.putState c.inserts.entries l) fun l =>
  Ledger.andThen (Ledger.forEach Ledger.putState c.updates.entries l) fun l =>
  Ledger.andThen (Ledger.forEach Ledger.deleteState c.deletes.entries l) fun l =>
  if 0 < c.destroyedDrops then Ledger.forEach Ledger.addDestroyed [c.destroyedDrops] l
    else (.ok (),l)

end SandboxChanges

/-! ## Transactors -/

/-- The source's `Rules`: the enabled amendments. -/
structure Rules where
  enabled : Hash256 → Bool

def featureId (crypto : Crypto) (name : String) : Hash256 := crypto.sha512Half (utf8 name)

/-- The trait `Transactor`; the engine computes a base fee and does not use it. -/
structure Transactor where
  preflight : Json → Rules → FeeSettings → Except TransactionResult Unit
  preclaim : Json → ReadView → Rules → Except TransactionResult Unit
  apply : {below : ReadView} → Json → Rules → FeeSettings → ViewM below TransactionResult

structure InvariantCheck where
  name : String
  check : SandboxChanges → ℕ → ℕ → Option Json → Except String Unit

/-- What the engine takes from elsewhere: the hook engine, which runs a hook's code for a hook
entry, a transaction, its hash, the destination and the view, and the leaf of the transaction map,
which holds the transaction and its metadata. -/
structure Env where
  crypto : Crypto
  executeHook : Bytes → Json → Json → Hash256 → AccountId → (Hash256 → Option Data) → Option Bool
  leaf : Json → SandboxChanges → SandboxChanges → ℕ → TransactionResult → Option Json → Bytes

structure TxEngine where
  registry : TransactionType → Option Transactor
  invariants : List InvariantCheck
  skipSignatureVerification : Bool

inductive TxEngineError
  | transactionFailed (r : TransactionResult)
  | unknownTransactionType (name : String)
  | codec (e : Codec.CodecError)
  | ledger (e : LedgerError)
  | invariantViolated (msg : String)

def runInvariantChecks (checks : List InvariantCheck) (changes : SandboxChanges)
    (dropsBefore dropsAfter : ℕ) (tx : Option Json) : Except String Unit :=
  match checks with
  | [] => .ok ()
  | check::checks =>
    match check.check changes dropsBefore dropsAfter tx with
    | .ok () => runInvariantChecks checks changes dropsBefore dropsAfter tx
    | .error e => .error ("invariant '"++check.name++"' violated: "++e)

def computeTxHash (crypto : Crypto) (tx : Json) : Except Codec.CodecError Hash256 :=
  (Codec.encode crypto.sha256 tx).map fun bytes =>
    crypto.sha512Half (HashPrefix.transactionId.toBytes++bytes)

/-! ## Authorisation -/

section

variable (crypto : Crypto) (tx : Json) (view : ReadView)

def senderId : Option AccountId := (strField tx "Account").bind fun s =>
    (decodeAccountId crypto.sha256 s).toOption

def signers : List Json := ((tx.get "Signers").bind Json.asArray).getD []

/-- The account of a public key in a text. -/
def keyAccount (hex : String) : Option AccountId :=
  (Codec.hexDecode (utf8 hex)).toOption.map crypto.accountIdFromPublicKey

/-- `lsfDisableMaster` on an account root. -/
def masterDisabled (account : Json) : Bool := getFlags account &&& 0x00100000≠0

def regularKey (account : Json) : Option AccountId :=
  (strField account "RegularKey").bind fun s => (decodeAccountId crypto.sha256 s).toOption

/-- The check of a single signature: the master key unless it is disabled, or the regular key. -/
def checkSingleSign : Option TransactionResult :=
  if !(signers tx).isEmpty then none
  else
    match senderId crypto tx, (strField tx "SigningPubKey").bind fun hex => if hex="" then none
      else keyAccount crypto hex with
    | some id, some signer =>
      match (view.read (Keylet.account crypto id)).bind Data.fromSlice with
      | some account =>
        if signer=id then if masterDisabled account then some .tefMasterDisabled else none
        else if some signer=regularKey crypto account then none
        else some .tefBadAuth
      | none => none
    | _, _ => none

def signerWeight (entries : List Json) (account : String) : Option ℕ :=
  entries.findSome? fun e =>
    let entry := (e.get "SignerEntry").getD e
    if strField entry "Account"=some account then u64Field entry "SignerWeight" else none

/-- Whether a key may sign for a member of the list. -/
def signerAuthorized (account signer : AccountId) : Bool :=
  match view.read (Keylet.account crypto account) with
  | none => signer=account
  | some bytes =>
    let root := bytes.fromSlice.getD .null
    if signer=account then !masterDisabled root else some signer=regularKey crypto root

/-- The loop over the signers, with the accounts seen and the weight so far. -/
def sumWeights (entries : List Json) : List Json → List String → ℕ → Except TransactionResult ℕ
  | [], _, total => .ok total
  | s::rest, seen, total =>
    let signer := (s.get "Signer").getD s
    let account := (strField signer "Account").getD ""
    if account∈seen then .error .temInvalid
    else
      match signerWeight entries account with
      | none => .error .tefBadSignature
      | some weight =>
        match decodeAccountId crypto.sha256 account with
        | .error _ => .error .temInvalid
        | .ok id =>
          match (strField signer "SigningPubKey").bind (keyAccount crypto) with
          | none => .error .tefBadSignature
          | some key =>
            if signerAuthorized crypto view id key then
              sumWeights entries rest (seen++[account]) (min (total+weight) (2^64-1))
            else .error .tefBadAuth

/-- The check of a multi-signed transaction against the signer list of its account. -/
def checkMultiSign : Option TransactionResult :=
  if (signers tx).isEmpty then none
  else
    match senderId crypto tx with
    | none => none
    | some id =>
      match view.read (Keylet.signerList crypto id) with
      | none => some .tefNotMultiSigning
      | some bytes =>
        match bytes.fromSlice with
        | none => none
        | some list =>
          match sumWeights crypto view (((list.get "SignerEntries").bind Json.asArray).getD [])
            (signers tx) [] 0 with
          | .error r => some r
          | .ok total => if total < (u64Field list "SignerQuorum").getD 0 then some .tefBadQuorum
            else none

def checkSeqProxy : Except TransactionResult Unit :=
  getAccount tx >>= fun s =>
  decodeAccount crypto.sha256 s >>= fun id =>
  match view.read (Keylet.account crypto id) with
  | none => .error .terNoAccount
  | some bytes =>
    bytes.parse >>= fun account =>
    match getU32Field tx "TicketSequence" with
    | some ticketSeq =>
      if (view.read (Keylet.ticket crypto id ticketSeq)).isSome then .ok ()
      else if ticketSeq < getSequence account then .error .tefNoTicket
      else .error .terPreTicket
    | none =>
      let txSeq := (getU32Field tx "Sequence").getD 0
      if txSeq=getSequence account then .ok ()
      else if getSequence account < txSeq then .error .terPreSeq
      else .error .tefPastSeq

end

/-! ## Hooks -/

/-- The loop over the hooks of a definition: whether one of them rolled back. -/
def runHooks (env : Env) (tx : Json) (txHash : Hash256) (dest : AccountId)
    (read : Hash256 → Option Data) (hooks : List Json) : Bool :=
  hooks.foldl (fun rollback hook =>
    match (strField hook "CreateCode").bind fun hex => if hex="" then none
      else (Codec.hexDecode (utf8 hex)).toOption with
    | none => rollback
    | some code => rollback || (env.executeHook code hook tx txHash dest read).getD false) false

/-- `execute_hooks_for_tx`, as far as the engine uses its result: whether a hook rolled back. -/
def executeHooksForTx (env : Env) (tx : Json) (txHash : Hash256) (read : Hash256 → Option Data) :
    Option Bool :=
  (strField tx "Destination").bind fun s =>
  (decodeAccountId env.crypto.sha256 s).toOption.bind fun dest =>
  (read (Keylet.hookDefinition env.crypto dest)).bind fun bytes =>
  bytes.fromSlice.bind fun definition =>
  ((definition.get "Hooks").bind Json.asArray).bind fun hooks =>
  if hooks.isEmpty then none else some (runHooks env tx txHash dest read hooks)

/-- Whether a hook of the destination rolls a transaction back; a transaction without a hash is
given the zero hash. -/
def hooksRollBack (env : Env) (tx : Json) (read : Hash256 → Option Data) : Bool :=
  (executeHooksForTx env tx ((computeTxHash env.crypto tx).toOption.getD .zero) read).getD false

/-! ## Batches -/

def maxBatchSize : ℕ := 8

/-- One turn of the loop of `extract_inner_txs`. -/
def extractInnerTx (raw : Json) : Except TransactionResult Json :=
  match (raw.get "RawTransaction").bind fun v => v.get "InnerTx" with
  | none => .error .temMalformed
  | some inner =>
    match strField inner "TransactionType" with
    | none => .error .temMalformed
    | some innerType =>
      if innerType="BatchSubmit" then .error .temMalformed
      else if (TransactionType.fromName innerType).isNone then .error .temMalformed
      else if (strField inner "Account").isNone then .error .temMalformed
      else .ok inner

def extractInnerTxs (tx : Json) : Except TransactionResult (List Json) :=
  match (tx.get "RawTransactions").bind Json.asArray with
  | none => .error .temMalformed
  | some raws =>
    if raws.isEmpty || maxBatchSize < raws.length then .error .temMalformed
      else raws.mapM extractInnerTx

section

variable (env : Env) (engine : TxEngine)

def chargeInnerFee {below : ReadView} (tx : Json) : ViewM below Unit :=
  let fee := getFee tx
  if 0 < fee then
    (match getAccount tx with
      | .ok s => ViewM.lift (decodeAccount env.crypto.sha256 s)
      | .error _ => ViewM.fail .temMalformed) >>= fun id =>
    ViewM.readEntry (Keylet.account env.crypto id) .terNoAccount >>= fun account =>
    if getBalance account < fee then ViewM.fail .terInsufFee
    else
      ViewM.update (Keylet.account env.crypto id) (setBalance account (getBalance account-fee)) >>=
        fun _ =>
      fun s => .ok ((),s.destroyDrops fee)
  else pure ()

/-- One turn of the loop of `apply_batch`. -/
def applyInnerTx {below : ReadView} (rules : Rules) (fees : FeeSettings) (tx : Json) :
    ViewM below Unit :=
  match (strField tx "TransactionType").bind TransactionType.fromName with
  | none => ViewM.fail .temMalformed
  | some innerType =>
    match engine.registry innerType with
    | none => ViewM.fail .temMalformed
    | some transactor =>
      ViewM.lift (transactor.preflight tx rules fees) >>= fun _ =>
      (fun s => ViewM.lift (transactor.preclaim tx s.toReadView rules) s) >>= fun _ =>
      chargeInnerFee env tx >>= fun _ =>
      transactor.apply tx rules fees >>= fun result =>
      if result=.tesSuccess then pure () else ViewM.fail result

def applyInnerTxs {below : ReadView} (rules : Rules) (fees : FeeSettings) : List Json →
    ViewM below Unit
  | [] => pure ()
  | tx::rest => applyInnerTx env engine rules fees tx >>= fun _ => applyInnerTxs rules fees rest

def applyBatch {below : ReadView} (tx : Json) (rules : Rules) (fees : FeeSettings) :
    ViewM below TransactionResult :=
  ViewM.lift (extractInnerTxs tx) >>= fun inner =>
  applyInnerTxs env engine rules fees inner >>= fun _ => pure .tesSuccess

/-! ## Applying a transaction -/

abbrev Stop := Except TxEngineError TransactionResult

/-- Steps 2 to 5: preflight, signature, authorisation, sequence and preclaim. Either the result that
is returned at once, or the `tec` of preclaim, if there is one. -/
def gates (transactor : Transactor) (txType : TransactionType) (tx : Json) (view : ReadView)
    (rules : Rules) (fees : FeeSettings) (tapRetry : Bool) :
    Except TransactionResult (Option TransactionResult) :=
  transactor.preflight tx rules fees >>= fun _ =>
  if !txType.isPseudo && !engine.skipSignatureVerification && !env.crypto.verifySignature tx
    then .error .tefBadSignature
  else
    match if txType.isPseudo then none
      else (checkSingleSign env.crypto tx view).or (checkMultiSign env.crypto tx view) with
    | some r => .error r
    | none =>
      (if txType.isPseudo then .ok () else checkSeqProxy env.crypto tx view) >>= fun _ =>
      match transactor.preclaim tx view rules with
      | .ok () => .ok none
      | .error r =>
        if r.isClaimed then if tapRetry && r.isRetryableTec then .error r else .ok (some r)
        else .error r

/-- Step 6: the fee and the sequence or ticket of the sender. -/
def chargeSender {view : ReadView} (tx : Json) (s : Sandbox view) : Except Stop (Sandbox view) :=
  match getAccount tx >>= decodeAccount env.crypto.sha256 with
  | .error r => .error (.error (.transactionFailed r))
  | .ok id =>
    match ViewM.readEntry (Keylet.account env.crypto id) .terNoAccount s with
    | .error r => .error (.error (.transactionFailed r))
    | .ok (account,s) =>
      if getBalance account < getFee tx then .error (.ok .terInsufFee)
      else
        let account := if 0 < getFee tx then setBalance account (getBalance account-getFee tx)
          else account
        match consumeSeqOrTicket env.crypto id account tx s with
        | .error r => .error (.error (.transactionFailed r))
        | .ok (account,s) =>
          match ViewM.update (Keylet.account env.crypto id) account s with
          | .error r => .error (.error (.transactionFailed r))
          | .ok ((),s) => .ok (if 0 < getFee tx then s.destroyDrops (getFee tx) else s)

/-- The sandbox of step 6 with the settings of the amendments. -/
def openSandbox (view : ReadView) (rules : Rules) : Sandbox view :=
  { Sandbox.new view with
    sortedDirectories := rules.enabled (featureId env.crypto "SortedDirectories")
    threadDirectories := rules.enabled (featureId env.crypto "fixPreviousTxnID") }

/-- What goes to the invariant checks and the commit. -/
structure Outcome (view : ReadView) where
  result : TransactionResult
  sandbox : Sandbox view
  delivered : Option Json

/-- What runs in the child sandbox: the transactor, or the loop over a batch. -/
def handler {below : ReadView} (transactor : Transactor) (txType : TransactionType) (tx : Json)
    (rules : Rules) (fees : FeeSettings) : ViewM below TransactionResult :=
  if txType=.batchSubmit then applyBatch env engine tx rules fees
    else transactor.apply tx rules fees

/-- Step 7: the transactor in a child sandbox, and the hooks after a success. -/
def runHandler {view : ReadView} (transactor : Transactor) (txType : TransactionType) (tx : Json)
    (rules : Rules) (fees : FeeSettings) (tapRetry : Bool) (s : Sandbox view) :
    Except Stop (Outcome view) :=
  match handler env engine transactor txType tx rules fees s.child with
  | .ok (r,child) =>
    if r.isSuccess then
      if hooksRollBack env tx (s.mergeChild child).read then .error (.ok .tecHookRejected)
      else .ok ⟨r,s.mergeChild child,child.deliveredAmount⟩
    else if r.isClaimed then
      if tapRetry && r.isRetryableTec then .error (.ok r) else .ok ⟨r,s,child.deliveredAmount⟩
    else .ok ⟨r,s.mergeChild child,child.deliveredAmount⟩
  | .error r =>
    -- what the handler had noted as delivered is lost with its state; only the metadata would show
    -- it
    if r.isClaimed then if tapRetry && r.isRetryableTec then .error (.ok r) else .ok ⟨r,s,none⟩
    else .error (.ok r)

/-- The changes with the transaction recorded on the entries they write. -/
def committedChanges (txType : TransactionType) (tx : Json) (txHash : Hash256) (ledgerSeq : ℕ)
    {view : ReadView} (o : Outcome view) : SandboxChanges :=
  let stamped := o.sandbox.changes.stampPreviousTxn (hashText txHash) ledgerSeq
  match if !txType.isPseudo && o.result.isSuccess then senderId env.crypto tx else none with
  | some id => stamped.threadAccountTxnId (Keylet.account env.crypto id) (hashText txHash)
  | none => stamped

/-- Step 9: the stamps, the metadata and the writes to the ledger. -/
def commit (txType : TransactionType) (tx : Json) (l : Ledger) {view : ReadView}
    (o : Outcome view) : Stop × Ledger :=
  match computeTxHash env.crypto tx with
  | .error e => (.error (.codec e),l)
  | .ok txHash =>
    let changes := committedChanges env txType tx txHash l.header.sequence o
    let leaf := env.leaf tx o.sandbox.changes changes l.txCount o.result o.delivered
    match changes.applyToLedger l with
    | (.error e,l) => (.error (.ledger e),l)
    | (.ok (),l) =>
      match l.addTransaction txHash leaf with
      | .error e => (.error (.ledger e),l)
      | .ok l => (.ok o.result,l)

/-- Steps 6 and 7: the outcome, or what is returned without one. -/
def execute (transactor : Transactor) (txType : TransactionType) (tx : Json) (view : ReadView)
    (rules : Rules)
    (fees : FeeSettings) (tapRetry : Bool) (preclaimTec : Option TransactionResult) :
      Except Stop (Outcome view) :=
  (if txType.isPseudo then .ok (openSandbox env view rules)
    else chargeSender env tx (openSandbox env view rules)) >>= fun s =>
  match preclaimTec with
  | some r => .ok ⟨r,s,none⟩
  | none => runHandler env engine transactor txType tx rules fees tapRetry s

/-- Step 8 and the rest of `apply_inner`. -/
def checkAndCommit (txType : TransactionType) (tx : Json) (l : Ledger) {view : ReadView}
    (o : Outcome view) : Stop × Ledger :=
  let dropsAfter := l.header.drops-o.sandbox.changes.destroyedDrops
  match runInvariantChecks engine.invariants o.sandbox.changes l.header.drops dropsAfter
      (if txType.isPseudo then none else some tx) with
  | .error msg => (.error (.invariantViolated msg),l)
  | .ok () => commit env txType tx l o

/-- `apply_inner` for a transaction whose transactor is known. -/
def applyWith (transactor : Transactor) (txType : TransactionType) (tx : Json) (l : Ledger)
    (rules : Rules) (fees : FeeSettings) (tapRetry : Bool) : Stop × Ledger :=
  match gates env engine transactor txType tx (l.view fees) rules fees tapRetry with
  | .error r => (.ok r,l)
  | .ok preclaimTec =>
    match execute env engine transactor txType tx (l.view fees) rules fees tapRetry preclaimTec with
    | .error stop => (stop,l)
    | .ok o => checkAndCommit env engine txType tx l o

def applyInner (tx : Json) (l : Ledger) (rules : Rules) (fees : FeeSettings) (tapRetry : Bool) :
    Stop × Ledger :=
  match strField tx "TransactionType" with
  | none => (.error (.unknownTransactionType "missing"),l)
  | some name =>
    match TransactionType.fromName name with
    | none => (.error (.unknownTransactionType name),l)
    | some txType =>
      match engine.registry txType with
      | none => (.error (.unknownTransactionType name),l)
      | some transactor => applyWith env engine transactor txType tx l rules fees tapRetry

def apply (tx : Json) (l : Ledger) (rules : Rules) (fees : FeeSettings) : Stop × Ledger :=
  applyInner env engine tx l rules fees false

def applyRetriable (tx : Json) (l : Ledger) (rules : Rules) (fees : FeeSettings) : Stop × Ledger :=
  applyInner env engine tx l rules fees true

end

end Rxrpl.Tx
