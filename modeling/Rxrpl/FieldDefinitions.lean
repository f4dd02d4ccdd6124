import Rxrpl.HashMap
import Rxrpl.Json
import Rxrpl.Numeral

/-!
# The field definitions

The tables of `definitions.json` and the look-ups of `definitions.rs`. The fields are listed
by type code and field code; the order of the file does not matter, because the source
builds its maps from it and no header and no name occurs twice.
-/

namespace Rxrpl.Codec

open List

/-- The types of `TYPES`, and those that only the parser names. -/
inductive FieldType
  | uint8 | uint16 | uint32 | uint64 | int32 | int64 | hash128 | hash160 | hash192 | hash256
  | amount | blob | accountId | stObject | stArray | vector256 | pathSet | issue | currency
  | xchainBridge | number | uint96 | uint160 | uint192 | uint224 | uint256 | uint384 | uint512
  | transaction | ledgerEntry | validation | metadata | notPresent | done | unknown
deriving DecidableEq, Repr

namespace FieldType

def name : FieldType → String
  | .uint8 => "UInt8"
  | .uint16 => "UInt16"
  | .uint32 => "UInt32"
  | .uint64 => "UInt64"
  | .int32 => "Int32"
  | .int64 => "Int64"
  | .hash128 => "Hash128"
  | .hash160 => "Hash160"
  | .hash192 => "Hash192"
  | .hash256 => "Hash256"
  | .amount => "Amount"
  | .blob => "Blob"
  | .accountId => "AccountID"
  | .stObject => "STObject"
  | .stArray => "STArray"
  | .vector256 => "Vector256"
  | .pathSet => "PathSet"
  | .issue => "Issue"
  | .currency => "Currency"
  | .xchainBridge => "XChainBridge"
  | .number => "Number"
  | .uint96 => "UInt96"
  | .uint160 => "UInt160"
  | .uint192 => "UInt192"
  | .uint224 => "UInt224"
  | .uint256 => "UInt256"
  | .uint384 => "UInt384"
  | .uint512 => "UInt512"
  | .transaction => "Transaction"
  | .ledgerEntry => "LedgerEntry"
  | .validation => "Validation"
  | .metadata => "Metadata"
  | .notPresent => "NotPresent"
  | .done => "Done"
  | .unknown => "Unknown"

/-- The type code of `TYPES`; a type that is not listed has the code `-1`. -/
def code : FieldType → ℤ
  | .uint8 => 16
  | .uint16 => 1
  | .uint32 => 2
  | .uint64 => 3
  | .int32 => 10
  | .int64 => 11
  | .hash128 => 4
  | .hash160 => 17
  | .hash192 => 21
  | .hash256 => 5
  | .amount => 6
  | .blob => 7
  | .accountId => 8
  | .stObject => 14
  | .stArray => 15
  | .vector256 => 19
  | .pathSet => 18
  | .issue => 24
  | .currency => 26
  | .xchainBridge => 25
  | .number => 9
  | .uint96 => 20
  | .uint384 => 22
  | .uint512 => 23
  | .transaction => 10001
  | .ledgerEntry => 10002
  | .validation => 10003
  | .metadata => 10004
  | .notPresent => 0
  | .done => -1
  | .unknown => -2
  | .uint160 | .uint192 | .uint224 | .uint256 => -1

end FieldType

/-- The source's `FieldDef`, whose `type_code` is the code of its type. -/
structure FieldDef where
  name : String
  nth : ℤ
  fieldType : FieldType
  isSerialized : Bool
  isSigningField : Bool
deriving DecidableEq, Repr

namespace FieldDef

def typeCode (d : FieldDef) : ℤ := d.fieldType.code

def sortKey (d : FieldDef) : ℤ × ℤ := (d.typeCode,d.nth)

end FieldDef

section

/-- A serialised field that a signature covers. -/
private def field (nth : ℤ) (name : String) (ty : FieldType) : FieldDef :=
    ⟨name,nth,ty,true,true⟩

/-- A serialised field that no signature covers. -/
private def unsigned (nth : ℤ) (name : String) (ty : FieldType) : FieldDef :=
    ⟨name,nth,ty,true,false⟩

/-- A field that is not serialised. -/
private def internal (nth : ℤ) (name : String) (ty : FieldType) : FieldDef :=
    ⟨name,nth,ty,false,false⟩

private def group (ty : FieldType) (rows : List (FieldType → FieldDef)) : List FieldDef :=
    rows.map (· ty)

def fields : List FieldDef :=
  group .unknown [internal (-1) "Invalid",internal 0 "Generic"] ++
  group .uint16 [field 1 "LedgerEntryType",field 2 "TransactionType",field 3 "SignerWeight",
    field 4 "TransferFee",field 5 "TradingFee",field 6 "DiscountedFee",field 16 "Version",
    field 17 "HookStateChangeCount",field 18 "HookEmitCount",field 19 "HookExecutionIndex",
    field 20 "HookApiVersion",field 21 "LedgerFixType",field 22 "ManagementFeeRate"] ++
  group .uint32 [field 1 "NetworkID",field 2 "Flags",field 3 "SourceTag",field 4 "Sequence",
    field 5 "PreviousTxnLgrSeq",field 6 "LedgerSequence",field 7 "CloseTime",
      field 8 "ParentCloseTime",
    field 9 "SigningTime",field 10 "Expiration",field 11 "TransferRate",field 12 "WalletSize",
    field 13 "OwnerCount",field 14 "DestinationTag",field 15 "LastUpdateTime",
      field 16 "HighQualityIn",
    field 17 "HighQualityOut",field 18 "LowQualityIn",field 19 "LowQualityOut",
      field 20 "QualityIn",
    field 21 "QualityOut",field 22 "StampEscrow",field 23 "BondAmount",field 24 "LoadFee",
    field 25 "OfferSequence",field 26 "FirstLedgerSequence",field 27 "LastLedgerSequence",
    field 28 "TransactionIndex",field 29 "OperationLimit",field 30 "ReferenceFeeUnits",
    field 31 "ReserveBase",field 32 "ReserveIncrement",field 33 "SetFlag",field 34 "ClearFlag",
    field 35 "SignerQuorum",field 36 "CancelAfter",field 37 "FinishAfter",
      field 38 "SignerListID",
    field 39 "SettleDelay",field 40 "TicketCount",field 41 "TicketSequence",
      field 42 "NFTokenTaxon",
    field 43 "MintedNFTokens",field 44 "BurnedNFTokens",field 45 "HookStateCount",
      field 46 "EmitGeneration",
    field 48 "VoteWeight",field 50 "FirstNFTokenSequence",field 51 "OracleDocumentID",
    field 52 "PermissionValue",field 53 "MutableFlags",field 54 "StartDate",
      field 55 "PaymentInterval",
    field 56 "GracePeriod",field 57 "PreviousPaymentDate",field 58 "NextPaymentDueDate",
    field 59 "PaymentRemaining",field 60 "PaymentTotal",field 61 "LoanSequence",
      field 62 "CoverRateMinimum",
    field 63 "CoverRateLiquidation",field 64 "OverpaymentFee",field 65 "InterestRate",
    field 66 "LateInterestRate",field 67 "CloseInterestRate",
      field 68 "OverpaymentInterestRate"] ++
  group .uint64 [field 1 "IndexNext",field 2 "IndexPrevious",field 3 "BookNode",
    field 4 "OwnerNode",
    field 5 "BaseFee",field 6 "ExchangeRate",field 7 "LowNode",field 8 "HighNode",
      field 9 "DestinationNode",
    field 10 "Cookie",field 11 "ServerVersion",field 12 "NFTokenOfferNode",field 13 "EmitBurden",
    field 16 "HookOn",field 17 "HookInstructionCount",field 18 "HookReturnCode",
      field 19 "ReferenceCount",
    field 20 "XChainClaimID",field 21 "XChainAccountCreateCount",
      field 22 "XChainAccountClaimCount",
    field 23 "AssetPrice",field 24 "MaximumAmount",field 25 "OutstandingAmount",
      field 26 "MPTAmount",
    field 27 "IssuerNode",field 28 "SubjectNode",field 29 "LockedAmount",field 30 "VaultNode",
    field 31 "LoanBrokerNode"] ++
  group .hash128 [field 1 "EmailHash"] ++
  group .hash256 [field 1 "LedgerHash",field 2 "ParentHash",field 3 "TransactionHash",
    field 4 "AccountHash",
    field 5 "PreviousTxnID",field 6 "LedgerIndex",field 7 "WalletLocator",field 8 "RootIndex",
    field 9 "AccountTxnID",field 10 "NFTokenID",field 11 "EmitParentTxnID",field 12 "EmitNonce",
    field 13 "EmitHookHash",field 14 "AMMID",field 16 "BookDirectory",field 17 "InvoiceID",
    field 18 "Nickname",field 19 "Amendment",field 21 "Digest",field 22 "Channel",
      field 23 "ConsensusHash",
    field 24 "CheckID",field 25 "ValidatedHash",field 26 "PreviousPageMin",
      field 27 "NextPageMin",
    field 28 "NFTokenBuyOffer",field 29 "NFTokenSellOffer",field 30 "HookStateKey",
      field 31 "HookHash",
    field 32 "HookNamespace",field 33 "HookSetTxnID",field 34 "DomainID",field 35 "VaultID",
    field 36 "ParentBatchID",field 37 "LoanBrokerID",field 38 "LoanID",
      field 39 "ReferenceHolding",
    internal 257 "hash",internal 258 "index"] ++
  group .amount [field 1 "Amount",field 2 "Balance",field 3 "LimitAmount",field 4 "TakerPays",
    field 5 "TakerGets",field 6 "LowLimit",field 7 "HighLimit",field 8 "Fee",field 9 "SendMax",
    field 10 "DeliverMin",field 11 "Amount2",field 12 "BidMin",field 13 "BidMax",
      field 16 "MinimumOffer",
    field 17 "RippleEscrow",field 18 "DeliveredAmount",field 19 "NFTokenBrokerFee",
      field 22 "BaseFeeDrops",
    field 23 "ReserveBaseDrops",field 24 "ReserveIncrementDrops",field 25 "LPTokenOut",
      field 26 "LPTokenIn",
    field 27 "EPrice",field 28 "Price",field 29 "SignatureReward",
      field 30 "MinAccountCreateAmount",
    field 31 "LPTokenBalance",internal 258 "taker_gets_funded",
      internal 259 "taker_pays_funded"] ++
  group .blob [field 1 "PublicKey",field 2 "MessageKey",field 3 "SigningPubKey",
    unsigned 4 "TxnSignature",
    field 5 "URI",unsigned 6 "Signature",field 7 "Domain",field 8 "FundCode",
      field 9 "RemoveCode",
    field 10 "ExpireCode",field 11 "CreateCode",field 12 "MemoType",field 13 "MemoData",
    field 14 "MemoFormat",field 16 "Fulfillment",field 17 "Condition",
      unsigned 18 "MasterSignature",
    field 19 "UNLModifyValidator",field 20 "ValidatorToDisable",field 21 "ValidatorToReEnable",
    field 22 "HookStateData",field 23 "HookReturnString",field 24 "HookParameterName",
    field 25 "HookParameterValue",field 26 "DIDDocument",field 27 "Data",field 28 "AssetClass",
    field 29 "Provider",field 30 "MPTokenMetadata",field 31 "CredentialType"] ++
  group .accountId [field 1 "Account",field 2 "Owner",field 3 "Destination",field 4 "Issuer",
    field 5 "Authorize",field 6 "Unauthorize",field 8 "RegularKey",field 9 "NFTokenMinter",
    field 10 "EmitCallback",field 11 "Holder",field 12 "Delegate",field 16 "HookAccount",
    field 18 "OtherChainSource",field 19 "OtherChainDestination",
      field 20 "AttestationSignerAccount",
    field 21 "AttestationRewardAccount",field 22 "LockingChainDoor",field 23 "IssuingChainDoor",
    field 24 "Subject",field 25 "Borrower",field 26 "Counterparty"] ++
  group .number [field 1 "Number",field 2 "AssetsAvailable",field 3 "AssetsMaximum",
    field 4 "AssetsTotal",
    field 5 "LossUnrealized",field 6 "DebtTotal",field 7 "DebtMaximum",field 8 "CoverAvailable",
    field 9 "LoanOriginationFee",field 10 "LoanServiceFee",field 11 "LatePaymentFee",
    field 12 "ClosePaymentFee",field 13 "PrincipalOutstanding",field 14 "PrincipalRequested",
    field 15 "TotalValueOutstanding",field 16 "PeriodicPayment",
      field 17 "ManagementFeeOutstanding"] ++
  group .int32 [field 1 "LoanScale"] ++
  group .stObject [field 1 "ObjectEndMarker",field 2 "TransactionMetaData",field 3 "CreatedNode",
    field 4 "DeletedNode",field 5 "ModifiedNode",field 6 "PreviousFields",field 7 "FinalFields",
    field 8 "NewFields",field 9 "TemplateEntry",field 10 "Memo",field 11 "SignerEntry",
      field 12 "NFToken",
    field 13 "EmitDetails",field 14 "Hook",field 15 "Permission",field 16 "Signer",
      field 18 "Majority",
    field 19 "DisabledValidator",field 20 "EmittedTxn",field 21 "HookExecution",
      field 22 "HookDefinition",
    field 23 "HookParameter",field 24 "HookGrant",field 25 "VoteEntry",field 26 "AuctionSlot",
    field 27 "AuthAccount",field 28 "XChainClaimProofSig",field 29 "XChainCreateAccountProofSig",
    field 30 "XChainClaimAttestationCollectionElement",
    field 31 "XChainCreateAccountAttestationCollectionElement",field 32 "PriceData",
      field 33 "Credential",
    field 34 "RawTransaction",field 35 "BatchSigner",field 36 "Book",
      unsigned 37 "CounterpartySignature"] ++
  group .stArray [field 1 "ArrayEndMarker",unsigned 3 "Signers",field 4 "SignerEntries",
    field 5 "Template",
    field 6 "Necessary",field 7 "Sufficient",field 8 "AffectedNodes",field 9 "Memos",
      field 10 "NFTokens",
    field 11 "Hooks",field 12 "VoteSlots",field 13 "AdditionalBooks",field 16 "Majorities",
    field 17 "DisabledValidators",field 18 "HookExecutions",field 19 "HookParameters",
      field 20 "HookGrants",
    field 21 "XChainClaimAttestations",field 22 "XChainCreateAccountAttestations",
      field 24 "PriceDataSeries",
    field 25 "AuthAccounts",field 26 "AuthorizeCredentials",field 27 "UnauthorizeCredentials",
    field 28 "AcceptedCredentials",field 29 "Permissions",field 30 "RawTransactions",
    unsigned 31 "BatchSigners"] ++
  group .uint8 [field 1 "CloseResolution",field 2 "Method",field 3 "TransactionResult",
    field 4 "Scale",
    field 5 "AssetScale",field 16 "TickSize",field 17 "UNLModifyDisabling",field 18 "HookResult",
    field 19 "WasLockingChainSend",field 20 "WithdrawalPolicy"] ++
  group .hash160
    [field 1 "TakerPaysCurrency",field 2 "TakerPaysIssuer",field 3 "TakerGetsCurrency",
    field 4 "TakerGetsIssuer"] ++
  group .pathSet [field 1 "Paths"] ++
  group .vector256
    [field 1 "Indexes",field 2 "Hashes",field 3 "Amendments",field 4 "NFTokenOffers",
    field 5 "CredentialIDs"] ++
  group .hash192 [field 1 "MPTokenIssuanceID",field 2 "ShareMPTID"] ++
  group .issue [field 1 "LockingChainIssue",field 2 "IssuingChainIssue",field 3 "Asset",
    field 4 "Asset2"] ++
  group .xchainBridge [field 1 "XChainBridge"] ++
  group .currency [field 1 "BaseAsset",field 2 "QuoteAsset"] ++
  group .transaction [internal 257 "Transaction"] ++
  group .ledgerEntry [internal 257 "LedgerEntry"] ++
  group .validation [internal 257 "Validation"] ++
  group .metadata [internal 257 "Metadata"]

/-- `TRANSACTION_TYPES`; two names share the code 71. -/
def transactionTypes : List (String × ℤ) :=
  [("Invalid",-1),("Payment",0),("EscrowCreate",1),("EscrowFinish",2),("AccountSet",3),
    ("EscrowCancel",4),("SetRegularKey",5),("OfferCreate",7),("OfferCancel",8),
      ("TicketCreate",10),
    ("SignerListSet",12),("PaymentChannelCreate",13),("PaymentChannelFund",14),
    ("PaymentChannelClaim",15),("CheckCreate",16),("CheckCash",17),("CheckCancel",18),
    ("DepositPreauth",19),("TrustSet",20),("AccountDelete",21),("NFTokenMint",25),
      ("NFTokenBurn",26),
    ("NFTokenCreateOffer",27),("NFTokenCancelOffer",28),("NFTokenAcceptOffer",29),
      ("Clawback",30),
    ("AMMClawback",31),("AMMCreate",35),("AMMDeposit",36),("AMMWithdraw",37),
      ("AMMVote",38),
    ("AMMBid",39),("AMMDelete",40),("XChainCreateClaimID",41),("XChainCommit",42),
      ("XChainClaim",43),
    ("XChainAccountCreateCommit",44),("XChainAddClaimAttestation",45),
    ("XChainAddAccountCreateAttestation",46),("XChainModifyBridge",47),
      ("XChainCreateBridge",48),
    ("DIDSet",49),("DIDDelete",50),("OracleSet",51),("OracleDelete",52),
      ("LedgerStateFix",53),
    ("MPTokenIssuanceCreate",54),("MPTokenIssuanceDestroy",55),("MPTokenIssuanceSet",56),
    ("MPTokenAuthorize",57),("CredentialCreate",58),("CredentialAccept",59),
      ("CredentialDelete",60),
    ("NFTokenModify",61),("PermissionedDomainSet",62),("PermissionedDomainDelete",63),
      ("DelegateSet",64),
    ("VaultCreate",65),("VaultSet",66),("VaultDelete",67),("VaultDeposit",68),
      ("VaultWithdraw",69),
    ("VaultClawback",70),("Batch",71),("BatchSubmit",71),("LoanBrokerSet",74),
      ("LoanBrokerDelete",75),
    ("LoanBrokerCoverDeposit",76),("LoanBrokerCoverWithdraw",77),
      ("LoanBrokerCoverClawback",78),
    ("LoanSet",80),("LoanDelete",81),("LoanManage",82),("LoanPay",84),
      ("EnableAmendment",100),
    ("SetFee",101),("UNLModify",102)]

def ledgerEntryTypes : List (String × ℤ) :=
  [("Invalid",-1),("NFTokenOffer",55),("Check",67),("DID",73),("NegativeUNL",78),
    ("NFTokenPage",80),
    ("SignerList",83),("Ticket",84),("AccountRoot",97),("DirectoryNode",100),
      ("Amendments",102),
    ("LedgerHashes",104),("Bridge",105),("Offer",111),("DepositPreauth",112),
    ("XChainOwnedClaimID",113),("RippleState",114),("FeeSettings",115),
    ("XChainOwnedCreateAccountClaimID",116),("Escrow",117),("PayChannel",120),("AMM",121),
    ("MPTokenIssuance",126),("MPToken",127),("Oracle",128),("Credential",129),
    ("PermissionedDomain",130),("Delegate",131),("Vault",132),("LoanBroker",136),
      ("Loan",137)]

end

/-! ## Look-ups -/

def getField (name : String) : Option FieldDef := fields.find? (·.name == name)

/-- `get_field_by_header`; fields with a negative code have no header. -/
def getFieldByHeader (typeCode fieldCode : ℤ) : Option FieldDef :=
  fields.find? fun d => decide (0 ≤ d.typeCode ∧ 0 ≤ d.nth) && d.sortKey == (typeCode,fieldCode)

def codeOf (table : List (String × ℤ)) (name : String) : Option ℤ :=
    (table.find? (·.1 == name)).map (·.2)

/-- The name of a code. The source inverts the table in the order of a hash map, and the last
of several names stays. -/
def nameOf (o : HashMap.IterOrder) (table : List (String × ℤ)) (code : ℤ) : Option String :=
  ((o.order table).reverse.find? (·.2 == code)).map (·.1)

def getTransactionTypeCode (name : String) : Option ℤ := codeOf transactionTypes name

def getTransactionTypeName (o : HashMap.IterOrder) (code : ℤ) : Option String :=
    nameOf o transactionTypes code

def getLedgerEntryTypeCode (name : String) : Option ℤ := codeOf ledgerEntryTypes name

def getLedgerEntryTypeName (o : HashMap.IterOrder) (code : ℤ) : Option String :=
    nameOf o ledgerEntryTypes code

def isDecimalUint64 (name : String) : Bool :=
  name == "MaximumAmount" || name == "OutstandingAmount" || name == "MPTAmount"

def getGranularPermissionCode (name : String) : Option ℕ :=
  codes.find? (·.1 == name) |>.map (·.2)
where
  codes : List (String × ℕ) :=
    [("TrustlineAuthorize",65537),("TrustlineFreeze",65538),("TrustlineUnfreeze",65539),
      ("AccountDomainSet",65540),("AccountEmailHashSet",65541),("AccountMessageKeySet",65542),
      ("AccountTransferRateSet",65543),("AccountTickSizeSet",65544),("PaymentMint",65545),
      ("PaymentBurn",65546),("MPTokenIssuanceLock",65547),("MPTokenIssuanceUnlock",65548)]

/-- `resolve_permission_value`; the code of a transaction type is cast to `u32` before one is
added. -/
def resolvePermissionValue (name : String) : Option ℕ :=
  match getGranularPermissionCode name with
  | some v => some v
  | none => (getTransactionTypeCode name).map fun c => ((c % 2^32).toNat+1) % 2^32

/-! ## The tables are keyed -/

/-- Distinct numbers, checked with a set of bits. -/
private def distinctNat : List ℕ → ℕ → Bool
  | [], _ => true
  | n::ns, seen => !seen.testBit n && distinctNat ns (seen ||| 1 <<< n)

private theorem testBit_mark (seen n k : ℕ) :
    (seen ||| 1 <<< n).testBit k=(seen.testBit k || decide (k=n)) := by
  simp only [Nat.testBit_or,Nat.one_shiftLeft,Nat.testBit_two_pow]
  simp [eq_comm]

private theorem nodup_of_distinctNat {ns : List ℕ} {seen : ℕ} (h : distinctNat ns seen) :
    ns.Nodup ∧ ∀ n∈ns, seen.testBit n=false := by
  induction ns generalizing seen with
  | nil => simp
  | cons n ns ih =>
    rw [distinctNat,Bool.and_eq_true,Bool.not_eq_true'] at h
    obtain ⟨hnodup,hfresh⟩ := ih h.2
    simp only [testBit_mark,Bool.or_eq_false_iff,decide_eq_false_iff_not] at hfresh
    refine ⟨nodup_cons.mpr ⟨fun hn => (hfresh n hn).2 rfl,hnodup⟩,?_⟩
    intro k hk
    rcases mem_cons.mp hk with rfl | hk
    · exact h.1
    · exact (hfresh k hk).1

/-- A number for a name, small enough for a set of bits. -/
private def nameHash (name : String) : ℕ := (utf8 name).foldl (fun a c => a*256+c.toNat) 0 % 1000003

private theorem nodup_of_nameHash {α : Type} {f : α → String} {l : List α}
    (h : distinctNat (l.map fun a => nameHash (f a)) 0) : (l.map f).Nodup := by
  have hnodup := (nodup_of_distinctNat h).1
  rw [← Function.comp_def,← map_map] at hnodup
  exact hnodup.of_map _

theorem find?_key {α κ : Type} [DecidableEq κ] {f : α → κ} {l : List α} (h : (l.map f).Nodup)
    {a : α} (ha : a∈l) : l.find? (f · == f a)=some a := by
  induction l with
  | nil => cases ha
  | cons a' l ih =>
    rw [map_cons,nodup_cons] at h
    rcases mem_cons.mp ha with rfl | ha
    · simp
    · have hne : f a'≠f a := fun he => h.1 (he ▸ mem_map_of_mem ha)
      rw [find?_cons_of_neg (by simpa using hne)]
      exact ih h.2 ha

/-- What the tables hold, read off once: the fields are listed by their headers, and no name is in a
table twice. -/
private theorem tables_keyed :
    (fields.IsChain fun d d' => d.typeCode*65536+d.nth < d'.typeCode*65536+d'.nth) ∧
      (∀ d∈fields, d.isSerialized → 0 < d.typeCode ∧ d.typeCode < 256 ∧ 0 < d.nth ∧ d.nth < 256) ∧
      distinctNat (fields.map fun d => nameHash d.name) 0 ∧
        distinctNat (transactionTypes.map fun t => nameHash t.1) 0 ∧
      distinctNat (ledgerEntryTypes.map fun t => nameHash t.1) 0 := by
  decide +kernel

theorem nodup_sortKeys : (fields.map (·.sortKey)).Nodup := by
  have hpairwise := isChain_iff_pairwise.mp tables_keyed.1
  refine pairwise_map.mpr (hpairwise.imp fun {d d'} hlt heq => ?_)
  obtain ⟨htype,hnth⟩ := Prod.mk.injEq .. ▸ heq
  rw [htype,hnth] at hlt
  exact lt_irrefl _ hlt

variable {d : FieldDef} {name : String}

theorem getField_eq_some_iff : getField name=some d ↔ d∈fields ∧ d.name=name := by
  constructor
  · intro h
    exact ⟨mem_of_find?_eq_some h,by simpa using find?_some h⟩
  · rintro ⟨hd,rfl⟩
    exact find?_key (nodup_of_nameHash tables_keyed.2.2.1) hd

theorem getField_name (h : d∈fields) : getField d.name=some d := getField_eq_some_iff.mpr ⟨h,rfl⟩

theorem getField_at (i : ℕ) (d : FieldDef) (h : fields[i]?=some d) : getField d.name=some d :=
  getField_name (mem_of_getElem? h)

theorem header_bounds (h : d∈fields) (hs : d.isSerialized) :
    0 < d.typeCode ∧ d.typeCode < 256 ∧ 0 < d.nth ∧ d.nth < 256 := tables_keyed.2.1 d h hs

theorem getFieldByHeader_eq_some_iff {typeCode fieldCode : ℤ} :
    getFieldByHeader typeCode fieldCode=some d ↔
      d∈fields ∧ 0 ≤ d.typeCode ∧ 0 ≤ d.nth ∧ d.sortKey=(typeCode,fieldCode) := by
  constructor
  · intro h
    have hfound := find?_some h
    simp only [Bool.and_eq_true,decide_eq_true_eq,beq_iff_eq] at hfound
    exact ⟨mem_of_find?_eq_some h,hfound.1.1,hfound.1.2,hfound.2⟩
  · rintro ⟨hd,htype,hnth,heq⟩
    obtain ⟨d',hd'⟩ : ∃ d', getFieldByHeader typeCode fieldCode=some d' := by
      apply Option.isSome_iff_exists.mp
      exact find?_isSome.mpr ⟨d,hd,by simp [htype,hnth,heq]⟩
    have hfound := find?_some hd'
    simp only [Bool.and_eq_true,decide_eq_true_eq,beq_iff_eq] at hfound
    have hmem := mem_of_find?_eq_some hd'
    rw [hd',inj_on_of_nodup_map nodup_sortKeys hmem hd (hfound.2.trans heq.symm)]

theorem getFieldByHeader_sortKey (h : d∈fields) (hs : d.isSerialized) :
    getFieldByHeader d.typeCode d.nth=some d := by
  obtain ⟨htype,-,hnth,-⟩ := header_bounds h hs
  exact getFieldByHeader_eq_some_iff.mpr ⟨h,htype.le,hnth.le,rfl⟩

theorem codeOf_nameOf {table : List (String × ℤ)} (hnodup : (table.map (·.1)).Nodup)
    {o : HashMap.IterOrder} {code : ℤ} (h : nameOf o table code=some name) :
    codeOf table name=some code := by
  obtain ⟨x,hx,rfl⟩ := Option.map_eq_some_iff.mp h
  have hmem : x∈table := (o.perm table).mem_iff.mp (mem_reverse.mp (mem_of_find?_eq_some hx))
  have hcode : x.2=code := by simpa using find?_some hx
  rw [codeOf,find?_key hnodup hmem,Option.map_some,hcode]

theorem nodup_transactionTypes : (transactionTypes.map (·.1)).Nodup :=
    nodup_of_nameHash tables_keyed.2.2.2.1

theorem nodup_ledgerEntryTypes : (ledgerEntryTypes.map (·.1)).Nodup :=
    nodup_of_nameHash tables_keyed.2.2.2.2

end Rxrpl.Codec
