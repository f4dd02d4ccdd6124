import Mathlib.Data.Int.Basic

/-!
# Transaction results and types

The result codes of `TransactionResult` with their numbers, which decide the category of a result,
and the transaction types with the names that `TransactionType::from_name` reads.
-/

namespace Rxrpl.Tx

/-- The source's `TransactionResult`; the names at the end are older aliases that share a number. -/
inductive TransactionResult
  | tesSuccess | tecClaimCost | tecPathPartial | tecUnfundedAdd | tecUnfundedOffer
  | tecUnfundedPayment | tecFailedProcessing | tecDirFull | tecInsufReserveLine
  | tecInsufReserveOffer | tecNoDst | tecNoDstInsuf | tecNoLineInsuf | tecNoLineRedundant
  | tecPathDry | tecUnfunded | tecNoAlternativeKey | tecNoRegularKey | tecOwners | tecNoIssuer
  | tecNoAuth | tecNoLine | tecInsufFee | tecFrozen | tecNoTarget | tecNoPermission | tecNoEntry
  | tecInsufficientReserve | tecNeedMasterKey | tecDstTagNeeded | tecInternalError | tecOversize
  | tecCryptoconditionError | tecInvariantFailed | tecExpired | tecDuplicate | tecKilled
  | tecHasObligations | tecTooSoon | tecHookRejected | tecMaxSequenceReached
  | tecNoSuitableNFTokenPage | tecNFTokenBuySellMismatch | tecNFTokenOfferTypeMismatch
  | tecCantAcceptOwnNFTokenOffer | tecInsufficientFunds | tecObjectNotFound
  | tecInsufficientPayment | tecUnfundedAmm | tecAmmBalance | tecAmmFailed | tecAmmInvalidTokens
  | tecAmmEmpty | tecAmmNotEmpty | tecAmmAccount | tecIncomplete | tecXChainBadTransferIssue
  | tecXChainNoClaimId | tecXChainBadClaimId | tecXChainClaimNoQuorum | tecXChainProofUnknownKey
  | tecXChainCreateAccountNonXrpIssue | tecXChainWrongChain | tecXChainRewardMismatch
  | tecXChainNoSignersList | tecXChainSendingAccountMismatch | tecXChainInsufCreateAmount
  | tecXChainAccountCreatePastSeq | tecXChainAccountCreateTooMany | tecXChainPaymentFailed
  | tecXChainSelfCommit | tecXChainBadPublicKeyAccountPair | tecXChainCreateAccountDisabled
  | tecEmptyDID | tecInvalidUpdateTime | tecTokenPairNotFound | tecArrayEmpty | tecArrayTooLarge
  | tecLocked | tecBadCredential | tecWrongAsset | tecLimitExceeded | tecPseudoAccount
  | tecPrecisionLoss | tecNoDelegatePermission | tefFailure | tefAlreadyMaster | tefBadAddOrDrop
  | tefBadAuth | tefBadLedger | tefCreated | tefException | tefInternal | tefNoAuthRequired
  | tefPastSeq | tefWrongPrior | tefMasterDisabled | tefMaxLedger | tefBadSignature | tefBadQuorum
  | tefNotMultiSigning | tefBadAuthMaster | tefInvariantFailed | tefTooBig | tefNoTicket
  | tefNFTokenIsNotTransferable | tefInvalidLedgerFixType | tefSeqNumPast | tefTooOld
  | tefNotTrustLine | terRetry | terFundsSpent | terInsufFee | terNoAccount | terNoAuth
  | terNoLine | terOwners | terPreSeq | terLastLedger | terNoRipple | terQueueFull | terPreTicket
  | terNoAmm | terAddressCollision | terNoDelegatePermission | temMalformed | temBadAmount
  | temBadCurrency | temBadExpiration | temBadFee | temBadIssuer | temBadLimit | temBadOffer
  | temBadPath | temBadPathLoop | temBadRegKey | temBadSendXrpLimit | temBadSendXrpMax
  | temBadSendXrpNoDir | temBadSendXrpPartial | temBadSendXrpPaths | temBadSequence
  | temBadSignature | temBadSrc | temBadTransferRate | temDstIsSrc | temDstNeeded | temInvalid
  | temInvalidFlag | temInvalidAccountId | temRedundant | temRippleRedundant | temDisabled
  | temBadSigner | temBadQuorum | temBadWeight | temBadTickSize | temInvalidCount
  | temCannotPreAuthSelf | temUncertain | temUnknown | temSeqAndTicket | temBadNFTokenTransfer
  | temBadAmmTokens | temXChainEqualDoorAccounts | temXChainBadProof | temXChainBridge
  | temXChainBridgeNondoorOwner | temXChainBridgeBadMinAccountCreateAmount
  | temXChainBridgeBadRewardAmount | temEmptyDid | temArrayEmpty | temArrayTooLarge
  | temBadTransferFee | temInvalidInnerBatch | temBadNFTokenBurnOffer | temBadSend | temBadTick
  | temDstIsObligatory | temDstIsRequired | temDstTagRequired | temDstTagNotNeeded
  | temSequenceTooHigh | temScaleOutOfRange | temMalformedRequest | temXChainTooMany
  | telLocalError | telBadDomain | telBadPathCount | telBadPublicKey | telFailedProcessing
  | telInsufFeeP | telNoDstPartial | telCanNotQueue | telCanNotQueueBalance | telCanNotQueueBlocks
  | telCanNotQueueBlocked | telCanNotQueueFee | telCanNotQueueFull | telWrongNetwork
  | telRequiresNetworkId | telNetworkIdMakesTxNonCanonical | telEnvRpcFailed | telNoAuthPeer
  | telCanNotQueueDrops | telCanNotQueueBusy | tecInsufReserveSupply | tecNFTokenBurnable
  | tecNFTokenNotBurnable | tecNFTokenOfferNotCleared | tecCannotRemoveGivenNode
  | tecTokenAlreadyOwned | tecMaxTokensReached | tecPreconditionFailed | tecXChainBadTransferPrice
  | tecXChainBadProof | tecXChainNonceNeeded | tecXChainCreateAccountNoQuorum
  | tecXChainInsufClaimFee | tecXChainPaymentEmpty | tecXChainBadDest | tecXChainNoDst
  | tecXChainSendingNotEmpty
  deriving DecidableEq

namespace TransactionResult

def code : TransactionResult → ℤ
  | .tesSuccess => 0 | .tecClaimCost => 100 | .tecPathPartial => 101 | .tecUnfundedAdd => 102
  | .tecUnfundedOffer => 103 | .tecUnfundedPayment => 104 | .tecFailedProcessing => 105
  | .tecDirFull => 121 | .tecInsufReserveLine => 122 | .tecInsufReserveOffer => 123
  | .tecNoDst => 124 | .tecNoDstInsuf => 125 | .tecNoLineInsuf => 126 | .tecNoLineRedundant => 127
  | .tecPathDry => 128 | .tecUnfunded => 129 | .tecNoAlternativeKey => 130 | .tecNoRegularKey => 131
  | .tecOwners => 132 | .tecNoIssuer => 133 | .tecNoAuth => 134 | .tecNoLine => 135
  | .tecInsufFee => 136 | .tecFrozen => 137 | .tecNoTarget => 138 | .tecNoPermission => 139
  | .tecNoEntry => 140 | .tecInsufficientReserve => 141 | .tecNeedMasterKey => 142
  | .tecDstTagNeeded => 143 | .tecInternalError => 144 | .tecOversize => 145
  | .tecCryptoconditionError => 146 | .tecInvariantFailed => 147 | .tecExpired => 148
  | .tecDuplicate => 149 | .tecKilled => 150 | .tecHasObligations => 151 | .tecTooSoon => 152
  | .tecHookRejected => 153 | .tecMaxSequenceReached => 154 | .tecNoSuitableNFTokenPage => 155
  | .tecNFTokenBuySellMismatch => 156 | .tecNFTokenOfferTypeMismatch => 157
  | .tecCantAcceptOwnNFTokenOffer => 158 | .tecInsufficientFunds => 159 | .tecObjectNotFound => 160
  | .tecInsufficientPayment => 161 | .tecUnfundedAmm => 162 | .tecAmmBalance => 163
  | .tecAmmFailed => 164 | .tecAmmInvalidTokens => 165 | .tecAmmEmpty => 166
  | .tecAmmNotEmpty => 167 | .tecAmmAccount => 168 | .tecIncomplete => 169
  | .tecXChainBadTransferIssue => 170 | .tecXChainNoClaimId => 171 | .tecXChainBadClaimId => 172
  | .tecXChainClaimNoQuorum => 173 | .tecXChainProofUnknownKey => 174
  | .tecXChainCreateAccountNonXrpIssue => 175 | .tecXChainWrongChain => 176
  | .tecXChainRewardMismatch => 177 | .tecXChainNoSignersList => 178
  | .tecXChainSendingAccountMismatch => 179 | .tecXChainInsufCreateAmount => 180
  | .tecXChainAccountCreatePastSeq => 181 | .tecXChainAccountCreateTooMany => 182
  | .tecXChainPaymentFailed => 183 | .tecXChainSelfCommit => 184
  | .tecXChainBadPublicKeyAccountPair => 185 | .tecXChainCreateAccountDisabled => 186
  | .tecEmptyDID => 187 | .tecInvalidUpdateTime => 188 | .tecTokenPairNotFound => 189
  | .tecArrayEmpty => 190 | .tecArrayTooLarge => 191 | .tecLocked => 192 | .tecBadCredential => 193
  | .tecWrongAsset => 194 | .tecLimitExceeded => 195 | .tecPseudoAccount => 196
  | .tecPrecisionLoss => 197 | .tecNoDelegatePermission => 198 | .tefFailure => -199
  | .tefAlreadyMaster => -198 | .tefBadAddOrDrop => -197 | .tefBadAuth => -196
  | .tefBadLedger => -195 | .tefCreated => -194 | .tefException => -193 | .tefInternal => -192
  | .tefNoAuthRequired => -191 | .tefPastSeq => -190 | .tefWrongPrior => -189
  | .tefMasterDisabled => -188 | .tefMaxLedger => -187 | .tefBadSignature => -186
  | .tefBadQuorum => -185 | .tefNotMultiSigning => -184 | .tefBadAuthMaster => -183
  | .tefInvariantFailed => -182 | .tefTooBig => -181 | .tefNoTicket => -180
  | .tefNFTokenIsNotTransferable => -179 | .tefInvalidLedgerFixType => -178 | .tefSeqNumPast => -190
  | .tefTooOld => -189 | .tefNotTrustLine => -181 | .terRetry => -99 | .terFundsSpent => -98
  | .terInsufFee => -97 | .terNoAccount => -96 | .terNoAuth => -95 | .terNoLine => -94
  | .terOwners => -93 | .terPreSeq => -92 | .terLastLedger => -91 | .terNoRipple => -90
  | .terQueueFull => -89 | .terPreTicket => -88 | .terNoAmm => -87 | .terAddressCollision => -86
  | .terNoDelegatePermission => -85 | .temMalformed => -299 | .temBadAmount => -298
  | .temBadCurrency => -297 | .temBadExpiration => -296 | .temBadFee => -295 | .temBadIssuer => -294
  | .temBadLimit => -293 | .temBadOffer => -292 | .temBadPath => -291 | .temBadPathLoop => -290
  | .temBadRegKey => -289 | .temBadSendXrpLimit => -288 | .temBadSendXrpMax => -287
  | .temBadSendXrpNoDir => -286 | .temBadSendXrpPartial => -285 | .temBadSendXrpPaths => -284
  | .temBadSequence => -283 | .temBadSignature => -282 | .temBadSrc => -281
  | .temBadTransferRate => -280 | .temDstIsSrc => -279 | .temDstNeeded => -278 | .temInvalid => -277
  | .temInvalidFlag => -276 | .temInvalidAccountId => -268 | .temRedundant => -275
  | .temRippleRedundant => -274 | .temDisabled => -273 | .temBadSigner => -272
  | .temBadQuorum => -271 | .temBadWeight => -270 | .temBadTickSize => -269
  | .temInvalidCount => -266 | .temCannotPreAuthSelf => -267 | .temUncertain => -265
  | .temUnknown => -264 | .temSeqAndTicket => -263 | .temBadNFTokenTransfer => -262
  | .temBadAmmTokens => -261 | .temXChainEqualDoorAccounts => -260 | .temXChainBadProof => -259
  | .temXChainBridge => -258 | .temXChainBridgeNondoorOwner => -257
  | .temXChainBridgeBadMinAccountCreateAmount => -256 | .temXChainBridgeBadRewardAmount => -255
  | .temEmptyDid => -254 | .temArrayEmpty => -253 | .temArrayTooLarge => -252
  | .temBadTransferFee => -251 | .temInvalidInnerBatch => -250 | .temBadNFTokenBurnOffer => -262
  | .temBadSend => -287 | .temBadTick => -283 | .temDstIsObligatory => -279
  | .temDstIsRequired => -278 | .temDstTagRequired => -277 | .temDstTagNotNeeded => -276
  | .temSequenceTooHigh => -267 | .temScaleOutOfRange => -265 | .temMalformedRequest => -263
  | .temXChainTooMany => -261 | .telLocalError => -399 | .telBadDomain => -398
  | .telBadPathCount => -397 | .telBadPublicKey => -396 | .telFailedProcessing => -395
  | .telInsufFeeP => -394 | .telNoDstPartial => -393 | .telCanNotQueue => -392
  | .telCanNotQueueBalance => -391 | .telCanNotQueueBlocks => -390 | .telCanNotQueueBlocked => -389
  | .telCanNotQueueFee => -388 | .telCanNotQueueFull => -387 | .telWrongNetwork => -386
  | .telRequiresNetworkId => -385 | .telNetworkIdMakesTxNonCanonical => -384
  | .telEnvRpcFailed => -383 | .telNoAuthPeer => -393 | .telCanNotQueueDrops => -390
  | .telCanNotQueueBusy => -385 | .tecInsufReserveSupply => 136 | .tecNFTokenBurnable => 156
  | .tecNFTokenNotBurnable => 157 | .tecNFTokenOfferNotCleared => 158
  | .tecCannotRemoveGivenNode => 147 | .tecTokenAlreadyOwned => 189 | .tecMaxTokensReached => 195
  | .tecPreconditionFailed => 195 | .tecXChainBadTransferPrice => 170 | .tecXChainBadProof => 170
  | .tecXChainNonceNeeded => 169 | .tecXChainCreateAccountNoQuorum => 173
  | .tecXChainInsufClaimFee => 180 | .tecXChainPaymentEmpty => 183 | .tecXChainBadDest => 176
  | .tecXChainNoDst => 178 | .tecXChainSendingNotEmpty => 179

def isSuccess (r : TransactionResult) : Bool := r.code == 0

/-- `is_tec`: a claimed failure. -/
def isTec (r : TransactionResult) : Bool := decide (100 ≤ r.code)

/-- `is_claimed`: the transaction goes into the ledger. -/
def isClaimed (r : TransactionResult) : Bool := r.isSuccess || r.isTec

/-- `is_retryable_tec`: `tecKILLED` alone is final in a pass that may be retried. -/
def isRetryableTec (r : TransactionResult) : Bool := r.isTec && r != .tecKilled

variable {r : TransactionResult}

theorem isSuccess_iff : r.isSuccess=true ↔ r=.tesSuccess := by
  cases r <;> decide

theorem not_isSuccess_of_isTec (h : r.isTec=true) : r.isSuccess=false := by
  simp only [isTec,decide_eq_true_eq] at h
  simp only [isSuccess,beq_eq_false_iff_ne]
  omega

end TransactionResult

inductive TransactionType
  | payment | escrowCreate | escrowFinish | accountSet | escrowCancel | setRegularKey | nickNameSet
  | offerCreate | offerCancel | signerListSet | paymentChannelCreate | paymentChannelFund
  | paymentChannelClaim | checkCreate | checkCash | checkCancel | depositPreauth | trustSet
  | accountDelete | setHook | nfTokenMint | nfTokenBurn | nfTokenCreateOffer | nfTokenCancelOffer
  | nfTokenAcceptOffer | clawback | ammClawback | ammCreate | ammDeposit | ammWithdraw | ammVote
  | ammBid | ammDelete | xChainCreateClaimId | xChainCommit | xChainClaim
  | xChainAccountCreateCommit | xChainAddClaimAttestation | xChainAddAccountCreateAttestation
  | xChainModifyBridge | xChainCreateBridge | didSet | didDelete | oracleSet | oracleDelete
  | ledgerStateFix | mpTokenIssuanceCreate | mpTokenIssuanceDestroy | mpTokenIssuanceSet
  | mpTokenAuthorize | credentialCreate | credentialAccept | credentialDelete | nfTokenModify
  | permissionedDomainSet | permissionedDomainDelete | delegateSet | vaultCreate | vaultSet
  | vaultDelete | vaultDeposit | vaultWithdraw | vaultClawback | batchSubmit | loanBrokerSet
  | loanBrokerDelete | loanBrokerCoverDeposit | loanBrokerCoverWithdraw | loanBrokerCoverClawback
  | loanSet | loanDelete | loanManage | loanPay | enableAmendment | setFee | unlModify
  | ticketCreate
  deriving DecidableEq

namespace TransactionType

/-- The names, in the order of `from_name`. -/
def names : List (String × TransactionType) := [
  ("Payment",.payment),("EscrowCreate",.escrowCreate),("EscrowFinish",.escrowFinish),
  ("AccountSet",.accountSet),("EscrowCancel",.escrowCancel),("SetRegularKey",.setRegularKey),
  ("NickNameSet",.nickNameSet),("OfferCreate",.offerCreate),("OfferCancel",.offerCancel),
  ("TicketCreate",.ticketCreate),("SignerListSet",.signerListSet),
  ("PaymentChannelCreate",.paymentChannelCreate),("PaymentChannelFund",.paymentChannelFund),
  ("PaymentChannelClaim",.paymentChannelClaim),("CheckCreate",.checkCreate),
    ("CheckCash",.checkCash),
  ("CheckCancel",.checkCancel),("DepositPreauth",.depositPreauth),("TrustSet",.trustSet),
  ("AccountDelete",.accountDelete),("SetHook",.setHook),("NFTokenMint",.nfTokenMint),
  ("NFTokenBurn",.nfTokenBurn),("NFTokenCreateOffer",.nfTokenCreateOffer),
  ("NFTokenCancelOffer",.nfTokenCancelOffer),("NFTokenAcceptOffer",.nfTokenAcceptOffer),
  ("Clawback",.clawback),("AMMClawback",.ammClawback),("AMMCreate",.ammCreate),
  ("AMMDeposit",.ammDeposit),("AMMWithdraw",.ammWithdraw),("AMMVote",.ammVote),
    ("AMMBid",.ammBid),
  ("AMMDelete",.ammDelete),("XChainCreateClaimID",.xChainCreateClaimId),
    ("XChainCommit",.xChainCommit),
  ("XChainClaim",.xChainClaim),("XChainAccountCreateCommit",.xChainAccountCreateCommit),
  ("XChainAddClaimAttestation",.xChainAddClaimAttestation),
  ("XChainAddAccountCreateAttestation",.xChainAddAccountCreateAttestation),
  ("XChainModifyBridge",.xChainModifyBridge),("XChainCreateBridge",.xChainCreateBridge),
  ("DIDSet",.didSet),("DIDDelete",.didDelete),("OracleSet",.oracleSet),
    ("OracleDelete",.oracleDelete),
  ("LedgerStateFix",.ledgerStateFix),("MPTokenAuthorize",.mpTokenAuthorize),
  ("MPTokenIssuanceCreate",.mpTokenIssuanceCreate),
    ("MPTokenIssuanceDestroy",.mpTokenIssuanceDestroy),
  ("MPTokenIssuanceSet",.mpTokenIssuanceSet),("CredentialCreate",.credentialCreate),
  ("CredentialAccept",.credentialAccept),("CredentialDelete",.credentialDelete),
  ("NFTokenModify",.nfTokenModify),("PermissionedDomainSet",.permissionedDomainSet),
  ("PermissionedDomainDelete",.permissionedDomainDelete),("DelegateSet",.delegateSet),
  ("VaultCreate",.vaultCreate),("VaultSet",.vaultSet),("VaultDelete",.vaultDelete),
  ("VaultDeposit",.vaultDeposit),("VaultWithdraw",.vaultWithdraw),
    ("VaultClawback",.vaultClawback),
  ("BatchSubmit",.batchSubmit),("LoanBrokerSet",.loanBrokerSet),
    ("LoanBrokerDelete",.loanBrokerDelete),
  ("LoanBrokerCoverDeposit",.loanBrokerCoverDeposit),
    ("LoanBrokerCoverWithdraw",.loanBrokerCoverWithdraw),
  ("LoanBrokerCoverClawback",.loanBrokerCoverClawback),("LoanSet",.loanSet),
    ("LoanDelete",.loanDelete),
  ("LoanManage",.loanManage),("LoanPay",.loanPay),("EnableAmendment",.enableAmendment),
  ("SetFee",.setFee),("UNLModify",.unlModify)]

def fromName (name : String) : Option TransactionType := names.lookup name

/-- `TxEngine::is_pseudo_transaction`. -/
def isPseudo : TransactionType → Bool
  | .enableAmendment | .setFee | .unlModify => true
  | _ => false

end TransactionType

end Rxrpl.Tx
