import Rxrpl.EntryKeys
import Rxrpl.EscrowHandlers
import Rxrpl.TxFates

/-!
# Who may sign for an account

A transaction is signed with one key or by members of a signer list. A key acts for an account when
it is the master key and that is not disabled, or the regular key. The engine checks this against
the ledger, also when the signatures themselves are not verified. The checks look up one field after
the other, and a field that is missing or cannot be read ends them without an objection.
-/

namespace Rxrpl.Tx

open Codec (AccountId)
open List

/-! ## Verification of signatures -/

inductive KeyType
  | ed25519
  | secp256k1
  deriving DecidableEq

def KeyType.fromPublicKey (key : Bytes) : Option KeyType :=
  if key.length≠33 then none
  else if key.head?=some 0xED then some .ed25519
  else if key.head?=some 0x02 ∨ key.head?=some 0x03 then some .secp256k1
  else none

/-- The functions of the crypto and codec crates that verification uses. -/
structure SignatureScheme where
  verify : KeyType → Bytes → Bytes → Bytes → Bool
  encodeForSigning : Json → Option Bytes
  encodeForMultisigning : Json → AccountId → Option Bytes

def SignatureScheme.accepts (scheme : SignatureScheme) (pubKeyHex sigHex : String)
    (message : Option Bytes) : Bool :=
  match (Codec.hexDecode (utf8 pubKeyHex)).toOption, (Codec.hexDecode (utf8 sigHex)).toOption,
    message with
  | some key, some sig, some signingBytes =>
    match KeyType.fromPublicKey key with
    | some keyType => scheme.verify keyType signingBytes key sig
    | none => false
  | _, _, _ => false

/-- One turn of the loop of `verify_multisig`. -/
def verifySigner (scheme : SignatureScheme) (sha : Codec.Sha256) (base wrapper : Json) : Bool :=
  match wrapper.get "Signer" with
  | none => false
  | some signer =>
    match strField signer "Account", strField signer "TxnSignature",
      strField signer "SigningPubKey" with
    | some account, some sigHex, some pubKeyHex =>
      match Codec.decodeAccountId sha account with
      | .ok id => scheme.accepts pubKeyHex sigHex (scheme.encodeForMultisigning base id)
      | .error _ => false
    | _, _, _ => false

/-- `verify_multisig` succeeds. -/
def verifyMultisig (scheme : SignatureScheme) (sha : Codec.Sha256) (tx : Json) : Bool :=
  !(signers tx).isEmpty && (signers tx).all
    (verifySigner scheme sha ((tx.remove "Signers").remove "TxnSignature"))

/-- `verify_signature` succeeds. -/
def verifySignature (scheme : SignatureScheme) (sha : Codec.Sha256) (tx : Json) : Bool :=
  if !(signers tx).isEmpty then verifyMultisig scheme sha tx
  else
    match strField tx "SigningPubKey", strField tx "TxnSignature" with
    | some pubKeyHex, some sigHex =>
      if pubKeyHex="" then false
      else scheme.accepts pubKeyHex sigHex (scheme.encodeForSigning (tx.remove "TxnSignature"))
    | _, _ => false

theorem verifySignature_key {scheme : SignatureScheme} {sha : Codec.Sha256} {tx : Json}
    (h : verifySignature scheme sha tx=true) (hsingle : signers tx=[]) :
    ∃ hex, strField tx "SigningPubKey"=some hex ∧ hex≠"" ∧
      (Codec.hexDecode (utf8 hex)).toOption.isSome := by
  rw [verifySignature,hsingle] at h
  simp only [isEmpty_nil,Bool.not_true,Bool.false_eq_true,if_false] at h
  split at h
  · rename_i hex sigHex hkey hsig
    split at h
    · cases h
    rename_i hne
    refine ⟨hex,hkey,hne,?_⟩
    unfold SignatureScheme.accepts at h
    split at h
    · rename_i key sig message hdecode _ _
      rw [hdecode]
      rfl
    · cases h
  · cases h

/-! ## Authority -/

/-- A key that acts for an account: the master key unless it is disabled, or the regular key. -/
inductive ActsFor (crypto : Crypto) (read : Hash256 → Option Data) (account key : AccountId) : Prop
  | master (hkey : key=account)
    (henabled : ∀ root, read (Keylet.account crypto account)=some (.json root) →
      masterDisabled root=false)
  | regular (root : Json) (hread : read (Keylet.account crypto account)=some (.json root))
      (hkey : regularKey crypto root=some key)

/-- The key that a transaction is signed with, when it is in hexadecimal form. -/
def signingKey (crypto : Crypto) (tx : Json) : Option AccountId :=
  (strField tx "SigningPubKey").bind fun hex => if hex="" then none else keyAccount crypto hex

def signerFields (s : Json) : Json := (s.get "Signer").getD s

def signerName (s : Json) : String := (strField (signerFields s) "Account").getD ""

/-- The entry of a signer list that gives an account a weight. -/
def GivesWeight (entries : List Json) (name : String) (weight : ℕ) : Prop :=
  ∃ e∈entries, strField ((e.get "SignerEntry").getD e) "Account"=some name ∧
    u64Field ((e.get "SignerEntry").getD e) "SignerWeight"=some weight

/-- A member of the list with the weight signs, with a key that acts for it. -/
structure MemberSigns (crypto : Crypto) (read : Hash256 → Option Data) (entries : List Json)
    (s : Json) (weight : ℕ) : Prop where
  member : GivesWeight entries (signerName s) weight
  signs : ∃ id key, Codec.decodeAccountId crypto.sha256 (signerName s)=.ok id ∧
    (strField (signerFields s) "SigningPubKey").bind (keyAccount crypto)=some key ∧
      ActsFor crypto read id key

/-- Different members of the account's signer list sign, and their weights make up the quorum. -/
def MultiSigned (crypto : Crypto) (read : Hash256 → Option Data) (id : AccountId) (tx : Json) :
    Prop :=
  ∃ list weights, read (Keylet.signerList crypto id)=some (.json list) ∧
    ((signers tx).map signerName).Nodup ∧
    List.Forall₂ (MemberSigns crypto read (((list.get "SignerEntries").bind Json.asArray).getD []))
      (signers tx) weights ∧
    (u64Field list "SignerQuorum").getD 0 ≤ weights.sum

/-- A transaction that is signed with a key of the account, or by enough members of its signer list.
-/
inductive Authorised (crypto : Crypto) (read : Hash256 → Option Data) (id : AccountId) (tx : Json) :
    Prop
  | single (hnone : signers tx=[]) (key : AccountId) (hkey : signingKey crypto tx=some key)
      (h : ActsFor crypto read id key)
  | multi (hsome : signers tx≠[]) (h : MultiSigned crypto read id tx)

/-- What the checks look up is there: the signing key, which verification has seen too, or the
signer list. -/
structure Readable (crypto : Crypto) (engine : TxEngine) (read : Hash256 → Option Data)
    (id : AccountId) (tx : Json) : Prop where
  single : signers tx=[] → engine.skipSignatureVerification=true → (signingKey crypto tx).isSome
  multi : signers tx≠[] → ∃ list, read (Keylet.signerList crypto id)=some (.json list)

section

variable {crypto : Crypto} {view : ReadView} {tx : Json} {id : AccountId}

variable {entries : List Json} {key : AccountId}

theorem actsFor_of_signerAuthorized (h : signerAuthorized crypto view id key=true) :
    ActsFor crypto view.read id key := by
  unfold signerAuthorized at h
  cases hread : view.read (Keylet.account crypto id) with
  | none =>
    rw [hread] at h
    exact .master (by simpa using h) fun root hroot => by rw [hread] at hroot; cases hroot
  | some bytes =>
    rw [hread] at h
    dsimp only at h
    split at h
    · rename_i hkey
      refine .master hkey fun root hroot => ?_
      cases hread.symm.trans hroot
      simpa using h
    · cases bytes with
      | json root => exact .regular root hread (of_decide_eq_true h).symm
      | raw bs =>
        have hnull : regularKey crypto .null=none := rfl
        rw [Data.fromSlice] at h
        simp [hnull] at h

theorem givesWeight_of_signerWeight {name : String} {weight : ℕ}
    (h : signerWeight entries name=some weight) : GivesWeight entries name weight := by
  obtain ⟨e,he,hw⟩ := exists_of_findSome?_eq_some h
  dsimp only at hw
  split_ifs at hw with hname
  exact ⟨e,he,hname,hw⟩

/-- What the loop over the signers has established when it ends: the accounts are new and different,
each of them signs, and the sum is that of their weights, up to the largest `u64`. -/
theorem sumWeights_ok {list : List Json} {seen : List String} {total total' : ℕ}
    (h : sumWeights crypto view entries list seen total=.ok total') :
    (∀ s∈list, signerName s∉seen) ∧ (list.map signerName).Nodup ∧
      ∃ weights, Forall₂ (MemberSigns crypto view.read entries) list weights ∧
        total' ≤ total+weights.sum := by
  induction list generalizing seen total with
  | nil =>
    cases h
    exact ⟨by simp,nodup_nil,[],.nil,by simp⟩
  | cons s list ih =>
    rw [sumWeights] at h
    change (if signerName s∈seen then _ else _)=_ at h
    split at h
    · cases h
    rename_i hnew
    split at h
    · cases h
    rename_i weight hweight
    split at h
    · cases h
    rename_i id hid
    split at h
    · cases h
    rename_i key hkey
    split_ifs at h with hauth
    obtain ⟨hseen,hnodup,weights,hsigns,hsum⟩ := ih h
    have hhead : MemberSigns crypto view.read entries s weight :=
      ⟨givesWeight_of_signerWeight hweight,id,key,hid,hkey,actsFor_of_signerAuthorized hauth⟩
    refine ⟨?_,?_,weight::weights,.cons hhead hsigns,?_⟩
    · intro s' hs'
      obtain rfl | hs' := mem_cons.mp hs'
      · exact hnew
      · exact fun hmem => hseen s' hs' (mem_append_left _ hmem)
    · rw [map_cons,nodup_cons]
      refine ⟨fun hmem => ?_,hnodup⟩
      obtain ⟨s',hs',hname⟩ := mem_map.mp hmem
      refine hseen s' hs' (mem_append_right _ ?_)
      rw [hname]
      exact mem_singleton_self _
    · rw [sum_cons]
      omega

theorem actsFor_of_checkSingleSign {account : Json} (h : checkSingleSign crypto tx view=none)
    (hnone : signers tx=[]) (hid : senderId crypto tx=some id)
    (hread : view.read (Keylet.account crypto id)=some (.json account))
    (hkey : signingKey crypto tx=some key) : ActsFor crypto view.read id key := by
  unfold checkSingleSign at h
  unfold signingKey at hkey
  rw [hnone,hid,hkey] at h
  simp only [isEmpty_nil,Bool.not_true,Bool.false_eq_true,if_false,hread,Option.bind_some,
    Data.fromSlice_json] at h
  split at h
  · rename_i heq
    split at h
    · cases h
    rename_i henabled
    refine .master heq fun root hroot => ?_
    cases hread.symm.trans hroot
    simpa using henabled
  · split_ifs at h with hregular
    exact .regular account hread hregular.symm

theorem multiSigned_of_checkMultiSign {list : Json} (h : checkMultiSign crypto tx view=none)
    (hsome : signers tx≠[]) (hid : senderId crypto tx=some id)
    (hlist : view.read (Keylet.signerList crypto id)=some (.json list)) :
    MultiSigned crypto view.read id tx := by
  unfold checkMultiSign at h
  rw [if_neg (by simpa using hsome),hid] at h
  dsimp only at h
  rw [hlist] at h
  simp only [Data.fromSlice_json] at h
  split at h
  · cases h
  rename_i total hsum
  obtain ⟨-,hnodup,weights,hsigns,hle⟩ := sumWeights_ok hsum
  split_ifs at h with hquorum
  exact ⟨list,weights,hlist,hnodup,hsigns,by omega⟩

end

/-! ## The engine -/

theorem checks_of_claimed {env : Env} {engine : TxEngine} {t : Transactor}
    {txType : TransactionType} {tx : Json} {l : Ledger} {rules : Rules} {fees : FeeSettings}
    (hordinary : txType.isPseudo=false) (hpreflight : t.preflight tx rules fees=.ok ())
    {r : TransactionResult} (hr : (applyWith env engine t txType tx l rules fees false).1=.ok r)
    (hclaimed : r.isClaimed=true) :
    (engine.skipSignatureVerification=false → env.crypto.verifySignature tx=true) ∧
      checkSingleSign env.crypto tx (l.view fees)=none ∧
        checkMultiSign env.crypto tx (l.view fees)=none ∧
      checkSeqProxy env.crypto tx (l.view fees)=.ok () := by
  unfold applyWith at hr
  split at hr
  · rename_i r' hg
    cases hr
    rw [gates_error_claimed hclaimed hg] at hpreflight
    cases hpreflight
  · rename_i pre hg
    obtain ⟨u,-,hg⟩ := bind_ok hg
    rw [hordinary] at hg
    split at hg
    · cases hg
    rename_i hverified
    simp only [Bool.false_eq_true,if_false] at hg
    split at hg
    · cases hg
    rename_i hnone
    obtain ⟨hsingle,hmulti⟩ := Option.or_eq_none_iff.mp hnone
    obtain ⟨u,hseq,-⟩ := bind_ok hg
    refine ⟨fun hskip => ?_,hsingle,hmulti,hseq⟩
    simpa [hskip] using hverified

/-- A transaction that is claimed after preflight is authorised exactly when what the checks look up
can be read; one that preflight answers with a claimed code changes nothing. -/
theorem authorised_iff_readable (env : Env) (engine : TxEngine) (scheme : SignatureScheme)
    (hverify : env.crypto.verifySignature=verifySignature scheme env.crypto.sha256) (tx : Json)
    (l : Ledger) (rules : Rules) (fees : FeeSettings) (txType : TransactionType) (t : Transactor)
    (htx : transactorOf engine tx=some (txType,t)) (hordinary : txType.isPseudo=false)
    (id : AccountId) (hid : senderId env.crypto tx=some id) (r : TransactionResult)
    (hr : (apply env engine tx l rules fees).1=.ok r) (hclaimed : r.isClaimed=true) :
    (t.preflight tx rules fees=.ok () →
        (Authorised env.crypto l.read id tx ↔ Readable env.crypto engine l.read id tx)) ∧
      ∀ r', t.preflight tx rules fees=.error r' → r'=r ∧
        (apply env engine tx l rules fees).2=l := by
  have happly : apply env engine tx l rules fees =
      applyWith env engine t txType tx l rules fees false :=
    applyInner_of_transactorOf htx l rules fees false
  rw [happly] at hr ⊢
  refine ⟨fun hpreflight => ?_,fun r' hpreflight => ?_⟩
  · obtain ⟨hverified,hsingle,hmulti,hseq⟩ := checks_of_claimed hordinary hpreflight hr hclaimed
    obtain ⟨id',account,hid',hread,-⟩ := checkSeqProxy_ok_iff.mp hseq
    cases hid.symm.trans hid'
    constructor
    · intro hauth
      cases hauth with
      | single hnone key hkey h =>
        exact ⟨fun _ _ => by rw [hkey]; rfl,fun hsome => (hsome hnone).elim⟩
      | multi hsome h =>
        obtain ⟨list,-,hlist,-⟩ := h
        exact ⟨fun hnone => (hsome hnone).elim,fun _ => ⟨list,hlist⟩⟩
    · intro hreadable
      by_cases hnone : signers tx=[]
      · have hkey : (signingKey env.crypto tx).isSome := by
          cases hskip : engine.skipSignatureVerification with
          | true => exact hreadable.single hnone hskip
          | false =>
            have hv := hverified hskip
            rw [hverify] at hv
            obtain ⟨hex,hfield,hne,hdecode⟩ := verifySignature_key hv hnone
            rw [signingKey,hfield,Option.bind_some,if_neg hne,keyAccount,Option.isSome_map]
            exact hdecode
        obtain ⟨key,hkey⟩ := Option.isSome_iff_exists.mp hkey
        exact .single hnone key hkey (actsFor_of_checkSingleSign hsingle hnone hid hread hkey)
      · obtain ⟨list,hlist⟩ := hreadable.multi hnone
        exact .multi hnone (multiSigned_of_checkMultiSign hmulti hnone hid hlist)
  · have hgates : gates env engine t txType tx (l.view fees) rules fees false=.error r' := by
      rw [gates,hpreflight]
      rfl
    rw [applyWith,hgates] at hr ⊢
    exact ⟨Except.ok.inj hr,rfl⟩

private def credulous : SignatureScheme :=
    ⟨fun _ _ _ _ => true,fun _ => some [],fun _ _ => some []⟩

private def keyedEnv : Env :=
  { plainEnv with crypto :=
    { paddedCrypto with verifySignature := verifySignature credulous plainDigest } }

/-- An engine that leaves signatures to others and runs `EscrowCreate`. -/
private def trustingEngine : TxEngine := ⟨fun _ => some (escrowCreate keyedEnv.crypto),[],true⟩

private def signedEscrow (fields : List (String × Json)) : Json :=
  .obj
    ([("TransactionType",.str "EscrowCreate"),("Account",.str (address 1)),
    ("Destination",.str (address 2)),
    ("Amount",.str "500"),("FinishAfter",.int 100),("Fee",.str "10"),
      ("Sequence",.int 1)]++fields)

private def richParty : Ledger :=
    openLedger 0 [(Keylet.account paddedCrypto (party 1),accountRoot 1 "1000" 1 0)]

/-- A transaction with the master key of its account. -/
theorem authorised_by_master_key :
    Authorised keyedEnv.crypto richParty.read (party 1)
      (signedEscrow [("SigningPubKey",.str "0000000000000000000000000000000000000001")]) := by
  set tx := signedEscrow [("SigningPubKey",.str "0000000000000000000000000000000000000001")]
  have happlied : (apply keyedEnv trustingEngine tx richParty noRules smallFees).1.toOption =
      some .tesSuccess := by
    decide +kernel
  have hr : (apply keyedEnv trustingEngine tx richParty noRules smallFees).1=.ok .tesSuccess := by
    generalize (apply keyedEnv trustingEngine tx richParty noRules smallFees).1=r at happlied
    cases r with
    | error e => cases happlied
    | ok r => exact congrArg Except.ok (Option.some.inj happlied)
  have hkey : (signingKey keyedEnv.crypto tx).isSome=true := by decide +kernel
  have hnone : signers tx=[] := by decide +kernel
  exact ((authorised_iff_readable keyedEnv trustingEngine credulous rfl tx richParty noRules
    smallFees .escrowCreate
    (escrowCreate keyedEnv.crypto) rfl rfl (party 1) (by decide +kernel) .tesSuccess hr rfl).1
      rfl).mpr
    ⟨fun _ _ => hkey,fun h => (h hnone).elim⟩

/-- Without a signing key the same transaction takes the account's XRP. -/
theorem unsigned_transaction_applies :
    (apply keyedEnv trustingEngine (signedEscrow []) richParty noRules smallFees).1.toOption =
      some .tesSuccess ∧
      ((apply keyedEnv trustingEngine (signedEscrow []) richParty noRules smallFees).2.read
        (Keylet.account paddedCrypto (party 1))).map
          (fun d => getBalance (d.fromSlice.getD .null))=some 490 ∧
      ¬ Authorised keyedEnv.crypto richParty.read (party 1) (signedEscrow []) := by
  refine ⟨by decide +kernel,by decide +kernel,fun h => ?_⟩
  have hkey : signingKey keyedEnv.crypto (signedEscrow [])=none := by decide +kernel
  have hnone : signers (signedEscrow [])=[] := by decide +kernel
  cases h with
  | single _ key h => rw [hkey] at h; cases h
  | multi hsome => exact hsome hnone

end Rxrpl.Tx
