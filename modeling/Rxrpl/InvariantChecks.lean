import Rxrpl.TxEngine

/-!
# The default invariant checks

The twenty checks of `default_invariant_checks`, in their order, with their messages. They look at
the entries that a transaction inserts, updates and deletes, and two of them at what an updated
entry was before. Floating-point numbers and the messages of the JSON parser are parameters.
-/

namespace Rxrpl.Tx

/-- What the checks take from libraries: `f64` and the parser's messages. -/
structure CheckLibrary where
  F64 : Type
  parse : String → Option F64
  display : F64 → String
  zero : F64
  epsilon : F64
  abs : F64 → F64
  sqrt : F64 → F64
  add : F64 → F64 → F64
  mul : F64 → F64 → F64
  lt : F64 → F64 → Bool
  le : F64 → F64 → Bool
  eq : F64 → F64 → Bool
  parseError : Data → String

abbrev Entries := List (Σ _ : Hash256, Data)

def entryType (entry : Json) : Option String := strField entry "LedgerEntryType"

/-- A loop over entries that passes over bytes that are no JSON. -/
def forEntries (f : Hash256 → Json → Except String Unit) : Entries → Except String Unit
  | [] => .ok ()
  | e::rest =>
    match e.2.fromSlice with
    | none => forEntries f rest
    | some entry => f e.1 entry >>= fun _ => forEntries f rest

/-- Such a loop over the entries of one type. -/
def forType (type : String) (f : Hash256 → Json → Except String Unit) : Entries →
    Except String Unit :=
  forEntries fun key entry => if entryType entry=some type then f key entry else .ok ()

namespace SandboxChanges

/-- `updates.iter().chain(inserts.iter())`. -/
def updatesInserts (c : SandboxChanges) : Entries := c.updates.entries++c.inserts.entries

/-- `inserts.iter().chain(updates.iter())`. -/
def insertsUpdates (c : SandboxChanges) : Entries := c.inserts.entries++c.updates.entries

end SandboxChanges

def maxXrpDrops : ℕ := 100000000000000000

def startsWithMinus (s : String) : Bool := s.toList.head?=some '-'

def txTypeText (tx : Option Json) : String :=
    (tx.bind fun t => strField t "TransactionType").getD ""

/-- `format!("{:?}", x)` of an optional text. -/
def debugOption : Option String → String
  | none => "None"
  | some s => "Some(\""++s++"\")"

/-! ## Accounts and fees -/

def xrpNotCreated : InvariantCheck where
  name := "XrpNotCreated"
  check := fun _ dropsBefore dropsAfter _ =>
    if dropsBefore < dropsAfter then
      .error ("XRP supply increased from "++natString dropsBefore++" to "++natString dropsAfter)
    else .ok ()

def xrpBalanceRange : InvariantCheck where
  name := "XrpBalanceRange"
  check := fun changes _ _ _ => forType "AccountRoot" (fun key entry =>
    match strField entry "Balance" with
    | none => .ok ()
    | some s =>
      if startsWithMinus s then .error ("account at "++hashText key++" has negative balance: "++s)
      else
        match parseU64 s with
        | none => .error ("account at "++hashText key++" has unparseable balance: "++s)
        | some drops =>
          if maxXrpDrops < drops then
            .error
              ("account at "++hashText key++" has balance "++natString drops++" exceeding max " ++
              natString maxXrpDrops)
          else .ok ()) changes.updatesInserts

def noNegativeBalance : InvariantCheck where
  name := "NoNegativeBalance"
  check := fun changes _ _ _ => forType "AccountRoot" (fun key entry =>
    match strField entry "Balance" with
    | none => .ok ()
    | some s =>
      if startsWithMinus s then .error ("account at "++hashText key++" has negative balance: "++s)
      else .ok ()) changes.updatesInserts

def accountRootNotDeleted : InvariantCheck where
  name := "AccountRootNotDeleted"
  check := fun changes _ _ _ => forType "AccountRoot" (fun key entry =>
    let balance := (strField entry "Balance").getD "0"
    let ownerCount := (u64Field entry "OwnerCount").getD 0
    if balance≠"0" ∨ ownerCount≠0 then
      .error
        ("AccountRoot at "++hashText
        key++" deleted with non-zero balance ("++balance++") or owners (" ++
        natString ownerCount++")")
    else .ok ()) changes.deletes.entries

def knownEntryTypes : List String :=
  ["AccountRoot","Amendments","AMM","Bridge","Check","Credential","DID","Delegate",
    "DepositPreauth",
    "DirectoryNode","Escrow","FeeSettings","LedgerHashes","Loan","LoanBroker","MPToken",
      "MPTokenIssuance",
    "NFTokenOffer","NFTokenPage","NegativeUNL","Offer","Oracle","PayChannel",
      "PermissionedDomain","RippleState",
    "SignerList","Ticket","Vault","XChainOwnedClaimID","XChainOwnedCreateAccountClaimID"]

variable (lib : CheckLibrary)

def validLedgerEntryType : InvariantCheck where
  name := "ValidLedgerEntryType"
  check := fun changes _ _ _ => changes.inserts.entries.forM fun e =>
    match e.2.fromSlice with
    | none => .error ("insert at "++hashText e.1++" is not valid JSON: "++lib.parseError e.2)
    | some entry =>
      match entryType entry with
      | none => .error ("insert at "++hashText e.1++" missing LedgerEntryType field")
      | some type =>
        if type∈knownEntryTypes then .ok ()
        else .error ("insert at "++hashText e.1++" has unknown LedgerEntryType: "++type)

def ledgerEntryTypesMatch : InvariantCheck where
  name := "LedgerEntryTypesMatch"
  check := fun changes _ _ _ => changes.updates.entries.forM fun e =>
    match changes.originals.lookup e.1 with
    | none => .ok ()
    | some original =>
      match e.2.fromSlice, original.fromSlice with
      | none, _ => .error ("update at "++hashText e.1++" is not valid JSON: "++lib.parseError e.2)
      | some _, none =>
        .error ("original at "++hashText e.1++" is not valid JSON: "++lib.parseError original)
      | some entry, some old =>
        if entryType entry≠entryType old then
          .error ("entry at "++hashText e.1++" changed LedgerEntryType from "++debugOption
            (entryType old)++" to " ++
            debugOption (entryType entry))
        else .ok ()

def validNewAccountRoot : InvariantCheck where
  name := "ValidNewAccountRoot"
  check := fun changes _ _ _ => forType "AccountRoot" (fun key entry =>
    match strField entry "Account" with
    | none => .error ("new AccountRoot at "++hashText key++" missing Account field")
    | some account =>
      if account="" then .error ("new AccountRoot at "++hashText key++" has empty Account")
      else
        match strField entry "Balance" with
        | none => .error ("new AccountRoot at "++hashText key++" missing Balance field")
        | some s =>
          match parseU64 s with
          | none => .error ("new AccountRoot at "++hashText key++" has invalid Balance: "++s)
          | some _ =>
            if (entry.get "AMMID").isSome || (entry.get "VaultID").isSome ||
              (entry.get "LoanBrokerID").isSome then .ok ()
            else
              match u64Field entry "Sequence" with
              | some n => if 0 < n then .ok ()
                else .error ("new AccountRoot at "++hashText key++" has Sequence=0")
              | none => .error ("new AccountRoot at "++hashText key++" missing Sequence field"))
    changes.inserts.entries

/-- The fees of the transactions in a batch, in `u64`. -/
def innerFees (tx : Json) : List ℕ :=
  (((tx.get "RawTransactions").bind Json.asArray).getD []).filterMap fun raw =>
    ((raw.get "RawTransaction").bind fun v => v.get "InnerTx").bind fun inner =>
      (strField inner "Fee").map fun s => (parseU64 s).getD 0

def transactionFeeCheck : InvariantCheck where
  name := "TransactionFeeCheck"
  check := fun changes _ _ tx =>
    match tx with
    | none => .ok ()
    | some tx =>
      let feeStr := (strField tx "Fee").getD "0"
      match parseU64 feeStr with
      | none => .error ("transaction has invalid Fee: "++feeStr)
      | some totalFee =>
        if strField tx "TransactionType"=some "BatchSubmit" then
          let totalWithInner := (innerFees tx).foldl (fun total fee => (total+fee) % 2^64) totalFee
          if changes.destroyedDrops≠totalFee ∧ changes.destroyedDrops≠totalWithInner then
            .error
              ("destroyed_drops ("++natString changes.destroyedDrops++") != outer Fee ("++natString
              totalFee ++
              ") or total ("++natString totalWithInner++")")
          else .ok ()
        else if changes.destroyedDrops≠totalFee then
          .error ("destroyed_drops ("++natString changes.destroyedDrops++") != Fee ("++natString
            totalFee++")")
        else .ok ()

/-! ## Trust lines and offers -/

def checkAmountNotXrp (amount : Json) (field : String) (key : Hash256) : Except String Unit :=
  if amount.asStr.isSome then .error
    ("RippleState at "++hashText key++" has "++field++" as string (XRP drops format)")
  else if strField amount "currency"=some "XRP" then
    .error ("RippleState at "++hashText key++" has "++field++".currency == \"XRP\"")
  else .ok ()

/-- A check of a field that may be absent. -/
def checkField (entry : Json) (field : String) (f : Json → Except String Unit) :
    Except String Unit :=
  match entry.get field with
  | some v => f v
  | none => .ok ()

def noXrpTrustLines : InvariantCheck where
  name := "NoXrpTrustLines"
  check := fun changes _ _ _ => forType "RippleState" (fun key entry =>
    checkField entry "LowLimit" (fun low => checkAmountNotXrp low "LowLimit" key) >>= fun _ =>
    checkField entry "HighLimit" fun high => checkAmountNotXrp high "HighLimit" key)
      changes.insertsUpdates

/-- `validate_amount`. -/
def validateOfferAmount (amount : Json) (field : String) (key : Hash256) :
    Except String Unit :=
  match amount.asStr with
  | some s =>
    match parseU64 s with
    | none => .error ("Offer at "++hashText key++" has invalid "++field++": "++s)
    | some drops => if drops=0 then .error ("Offer at "++hashText key++" has zero "++field)
      else .ok ()
  | none =>
    if amount.asObject.isSome then
      match strField amount "value" with
      | none => .error ("Offer at "++hashText key++" has "++field++" missing value field")
      | some s =>
        match lib.parse s with
        | none => .error ("Offer at "++hashText key++" has invalid "++field++".value: "++s)
        | some value =>
          if lib.le value lib.zero then
            .error ("Offer at "++hashText key++" has non-positive "++field++".value: "++s)
          else .ok ()
    else .error ("Offer at "++hashText key++" has unexpected "++field++" type")

/-- A side of an offer, which has to be there. -/
def checkOfferSide (entry : Json) (field : String) (key : Hash256) :
    Except String Unit :=
  match entry.get field with
  | none => .error ("Offer at "++hashText key++" missing "++field)
  | some amount => validateOfferAmount lib amount field key

def noBadOffers : InvariantCheck where
  name := "NoBadOffers"
  check := fun changes _ _ _ => forType "Offer" (fun key entry =>
    checkOfferSide lib entry "TakerPays" key >>= fun _ => checkOfferSide lib entry "TakerGets" key)
      changes.insertsUpdates

/-- `is_zero_value` of a field. -/
def isZeroValue (entry : Json) (field : String) : Bool :=
  match (entry.get field).bind Json.asObject with
  | some members => ((Json.find "value" members).bind Json.asStr).any fun s =>
    s="0" || s="0.0" || s="-0"
  | none => false

def noZeroBalanceEntries : InvariantCheck where
  name := "NoZeroBalanceEntries"
  check := fun changes _ _ _ => forType "RippleState" (fun key entry =>
    let reserved := (u64Field entry "Flags").getD 0 &&& (0x00010000 ||| 0x00020000)≠0
    if isZeroValue entry "Balance" && isZeroValue entry "LowLimit" && isZeroValue entry
      "HighLimit" && !reserved then
      .error
        ("RippleState at "++hashText key++" has zero balance and zero limits -- should be deleted")
    else .ok ()) changes.insertsUpdates

/-- One side of `NoDeepFreezeWithoutFreeze`. -/
def checkDeepFreeze (flags deep plain : ℕ) (msg : String) : Except String Unit :=
  if flags &&& deep≠0 ∧ flags &&& plain=0 then .error msg else .ok ()

def noDeepFreezeWithoutFreeze : InvariantCheck where
  name := "NoDeepFreezeWithoutFreeze"
  check := fun changes _ _ _ => forType "RippleState" (fun key entry =>
    let flags := (u64Field entry "Flags").getD 0
    checkDeepFreeze flags 0x10000000 0x00400000
      ("RippleState at "++hashText key++" has lsfLowDeepFreeze without lsfLowFreeze") >>= fun _ =>
    checkDeepFreeze flags 0x20000000 0x00800000
      ("RippleState at "++hashText key++" has lsfHighDeepFreeze without lsfHighFreeze"))
        changes.updatesInserts

/-! ## Tokens, escrows and the rest -/

/-- The entry of a token page at a position that has no identifier. -/
def missingTokenId (tokens : List Json) : Option ℕ :=
  tokens.findIdx? fun entry => ((entry.get "NFToken").bind fun n => strField n "NFTokenID").isNone

def nftokenPageBounds : InvariantCheck where
  name := "NFTokenPageBounds"
  check := fun changes _ _ _ => forType "NFTokenPage" (fun key entry =>
    match (entry.get "NFTokens").bind Json.asArray with
    | none => .error ("NFTokenPage at "++hashText key++" missing NFTokens array")
    | some tokens =>
      if tokens.isEmpty then
        .error ("NFTokenPage at "++hashText key++" has empty NFTokens array (should be deleted)")
      else
        match missingTokenId tokens with
        | some i =>
          .error ("NFTokenPage at "++hashText key++" entry "++natString i++" missing NFTokenID")
        | none => .ok ()) changes.insertsUpdates

/-- One counter of `NFTokenCountTracking`; `tracked` when the transaction may raise it by one. -/
def checkCounter (old new : Json) (field noun : String) (tracked : Bool) (key : Hash256) :
    Except String Unit :=
  let diff := (u64Field new field).getD 0-(u64Field old field).getD 0
  if tracked then
    if 1 < diff then
      .error ("AccountRoot at "++hashText key++": "++field++" increased by "++natString
        diff++" (expected 0 or 1)")
    else .ok ()
  else if diff≠0 then
    .error ("AccountRoot at "++hashText key++": "++field++" changed by "++natString
      diff++" on non-"++noun++" tx")
  else .ok ()

def nftokenCountTracking : InvariantCheck where
  name := "NFTokenCountTracking"
  check := fun changes _ _ tx =>
    let success := ((tx.bind fun t => t.get "meta").bind fun m =>
      strField m "TransactionResult").getD "tesSUCCESS"="tesSUCCESS"
    forType "AccountRoot" (fun key entry =>
      match (changes.originals.lookup key).bind Data.fromSlice with
      | none => .ok ()
      | some old =>
        checkCounter old entry "MintedNFTokens" "mint" (txTypeText tx="NFTokenMint" && success)
          key >>= fun _ =>
        checkCounter old entry "BurnedNFTokens" "burn" (txTypeText tx="NFTokenBurn" && success) key)
      changes.updates.entries

def noZeroEscrow : InvariantCheck where
  name := "NoZeroEscrow"
  check := fun changes _ _ _ => forType "Escrow" (fun key entry =>
    match strField entry "Amount" with
    | none => .error ("Escrow at "++hashText key++" missing Amount")
    | some s =>
      match parseU64 s with
      | none => .error ("Escrow at "++hashText key++" has unparseable Amount: "++s)
      | some drops =>
        if drops=0 then .error ("Escrow at "++hashText key++" has zero Amount")
        else if maxXrpDrops < drops then
          .error
            ("Escrow at "++hashText key++" has Amount "++natString
            drops++" exceeding max "++natString maxXrpDrops)
        else .ok ()) changes.insertsUpdates

def balanceMagnitude (entry : Json) : lib.F64 :=
  let number := fun s => lib.abs ((lib.parse s).getD lib.zero)
  match ((entry.get "Balance").bind Json.asObject).bind fun o =>
    (Json.find "value" o).bind Json.asStr with
  | some s => number s
  | none =>
    match strField entry "Balance" with
    | some s => number s
    | none =>
      match strField entry "MPTAmount" with
      | some s => number s
      | none => lib.zero

def isTrustLineOrMptoken (entry : Json) : Bool :=
    entryType entry=some "RippleState" || entryType entry=some "MPToken"

def validClawback : InvariantCheck where
  name := "ValidClawback"
  check := fun changes _ _ tx =>
    if txTypeText tx≠"Clawback" then .ok ()
    else
      forEntries (fun key entry =>
        if isTrustLineOrMptoken entry then
          match (changes.originals.lookup key).bind Data.fromSlice with
          | none => .ok ()
          | some old =>
            if lib.lt (balanceMagnitude lib old) (balanceMagnitude lib entry) then
              .error ("Clawback increased balance magnitude at "++hashText key++" (" ++
                lib.display (balanceMagnitude lib old)++" -> "++lib.display
                  (balanceMagnitude lib entry)++")")
            else .ok ()
        else .ok ()) changes.updates.entries >>= fun _ =>
      if changes.updates.entries.any fun e => e.2.fromSlice.any isTrustLineOrMptoken then .ok ()
      else .error "Clawback did not modify any RippleState or MPToken entry"

def ammTxTypes : List String :=
  ["AMMCreate","AMMDeposit","AMMWithdraw","AMMClawback","AMMBid","AMMVote","AMMDelete"]

/-- `parse_amount` of a field. -/
def ammAmount (entry : Json) (field : String) : Option lib.F64 :=
  (entry.get field).bind fun v =>
    match v.asStr with
    | some s => lib.parse s
    | none => (strField v "value").bind lib.parse

/-- A field of an AMM that must not be negative; an absent one ends the check of the entry. -/
def ammField (key : Hash256) (entry : Json) (field : String)
    (next : lib.F64 → Except String Unit) : Except String Unit :=
  match ammAmount lib entry field with
  | none => .ok ()
  | some v =>
    if lib.le lib.zero v then next v
    else .error ("AMM at "++hashText key++" has negative "++field++": "++lib.display v)

def validAmm : InvariantCheck where
  name := "ValidAmm"
  check := fun changes _ _ tx =>
    if txTypeText tx∉ammTxTypes then .ok ()
    else forType "AMM" (fun key entry =>
      ammField lib key entry "Asset1Amount" fun asset1 =>
      ammField lib key entry "Asset2Amount" fun asset2 =>
      ammField lib key entry "LPTokenBalance" fun lpTokens =>
      if txTypeText tx="AMMDelete" && lib.eq asset1 lib.zero && lib.eq asset2 lib.zero && lib.eq
        lpTokens lib.zero then .ok ()
      else
        let mean := lib.sqrt (lib.mul asset1 asset2)
        if lib.lt (lib.add mean lib.epsilon) lpTokens then
          .error ("AMM at "++hashText key++": sqrt("++lib.display asset1++" * "++lib.display
            asset2++") = " ++
            lib.display mean++" < LPTokens "++lib.display lpTokens)
        else .ok ()) changes.updatesInserts

/-- One rule of `ValidMptIssuance`: an entry of a type appears or disappears only in some
transactions. -/
def checkLifecycle (type : String) (allowed : List String) (verb expected : String)
    (tx : Option Json) (key : Hash256) (entry : Json) : Except String Unit :=
  if entryType entry=some type ∧ txTypeText tx∉allowed then
    .error
      (type++" "++verb++" at "++hashText key++" by "++txTypeText tx++" (expected "++expected++")")
  else .ok ()

def validMptIssuance : InvariantCheck where
  name := "ValidMptIssuance"
  check := fun changes _ _ tx =>
    forEntries (fun key entry =>
      checkLifecycle "MPTokenIssuance" ["MPTokenIssuanceCreate","VaultCreate"] "created"
        "MPTokenIssuanceCreate" tx key
        entry >>= fun _ =>
      checkLifecycle "MPToken" ["MPTokenAuthorize","VaultCreate","VaultDeposit"] "created"
        "MPTokenAuthorize" tx key entry)
      changes.inserts.entries >>= fun _ =>
    forEntries (fun key entry =>
      checkLifecycle "MPTokenIssuance" ["MPTokenIssuanceDestroy","VaultDelete"] "deleted"
        "MPTokenIssuanceDestroy" tx key
        entry >>= fun _ =>
      checkLifecycle "MPToken" ["MPTokenAuthorize","Clawback","VaultDelete","VaultWithdraw"]
        "deleted"
        "MPTokenAuthorize or Clawback" tx key entry)
      changes.deletes.entries

/-- A text of a loan that has to be a non-negative `i64` when it is there. -/
def checkLoanNumber (entry : Json) (field noun : String) (key : Hash256) : Except String Unit :=
  match strField entry field with
  | none => .ok ()
  | some s =>
    let n := (Codec.parseI64 (utf8 s)).getD (-1)
    if n < 0 then
      .error (noun++" at "++hashText key++" has invalid "++field++": "++ascii (Codec.intText n))
    else .ok ()

/-- `format!("{:?}", obj.get("Status"))`, as far as it can be reached: an integer. -/
def debugStatus (entry : Json) : String :=
  match u64Field entry "Status" with
  | some n => "Some(Number("++natString n++"))"
  | none => "None"

def validLoan : InvariantCheck where
  name := "ValidLoan"
  check := fun changes _ _ _ => forEntries (fun key entry =>
    match entryType entry with
    | some "Loan" =>
      checkLoanNumber entry "PrincipalOutstanding" "Loan" key >>= fun _ =>
      match u64Field entry "Status" with
      | none | some 0 | some 1 => .ok ()
      | _ => .error ("Loan at "++hashText key++" has invalid Status: "++debugStatus entry)
    | some "LoanBroker" => checkLoanNumber entry "DebtTotal" "LoanBroker" key
    | _ => .ok ()) changes.updatesInserts

def maxCredentials : ℕ := 10

def credentialKey (crypto : Crypto) (entry : Json) : Option (Bytes × Bytes) :=
  let inner := (entry.get "Credential").getD entry
  (strField inner "Issuer").bind fun issuer =>
  (strField inner "CredentialType").map fun credType =>
    ((if (utf8 issuer).length=40 then (Codec.hexDecode (utf8 issuer)).toOption
      else (Codec.decodeAccountId crypto.sha256 issuer).toOption.map (·.asBytes)).getD
        (utf8 issuer),
    (Codec.hexDecode (utf8 credType)).toOption.getD (utf8 credType))

def pairLt (p q : Bytes × Bytes) : Bool := decide (p.1 < q.1) || p.1=q.1 && decide (p.2 < q.2)

/-- The loop over the credentials, with the position and the key before. -/
def checkCredentials (crypto : Crypto) (key : Hash256) : ℕ → Option (Bytes × Bytes) → List Json →
    Except String Unit
  | _, _, [] => .ok ()
  | i, prev, entry::rest =>
    match credentialKey crypto entry with
    | none =>
      .error
      ("PermissionedDomain at "++hashText key++" entry "++natString
      i++" missing Issuer or CredentialType")
    | some current =>
      if prev.all fun p => pairLt p current then checkCredentials crypto key (i+1)
        (some current) rest
      else
        .error
          ("PermissionedDomain at "++hashText
          key++": AcceptedCredentials not sorted/unique at index "++natString i)

def validPermissionedDomain (crypto : Crypto) : InvariantCheck where
  name := "ValidPermissionedDomain"
  check := fun changes _ _ _ => forType "PermissionedDomain" (fun key entry =>
    match (entry.get "AcceptedCredentials").bind Json.asArray with
    | none => .error ("PermissionedDomain at "++hashText key++" missing AcceptedCredentials")
    | some creds =>
      if creds.isEmpty then .error
        ("PermissionedDomain at "++hashText key++" has empty AcceptedCredentials")
      else if maxCredentials < creds.length then
        .error
          ("PermissionedDomain at "++hashText key++" has "++natString
          creds.length++" credentials (max " ++
          natString maxCredentials++")")
      else checkCredentials crypto key 0 none creds) changes.insertsUpdates

def defaultInvariantChecks (crypto : Crypto) (lib : CheckLibrary) : List InvariantCheck :=
  [xrpNotCreated,xrpBalanceRange,noNegativeBalance,accountRootNotDeleted,
    validLedgerEntryType lib,
    ledgerEntryTypesMatch lib,noXrpTrustLines,noBadOffers lib,noZeroBalanceEntries,
      validNewAccountRoot,
    transactionFeeCheck,nftokenPageBounds,nftokenCountTracking,noDeepFreezeWithoutFreeze,
      noZeroEscrow,
    validClawback lib,validAmm lib,validMptIssuance,validLoan,validPermissionedDomain crypto]

end Rxrpl.Tx
