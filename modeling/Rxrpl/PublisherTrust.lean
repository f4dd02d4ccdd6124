import Rxrpl.InputRuns
import Rxrpl.ValidatorLists

/-!
# Whom a node trusts

A node with a dynamic validator list follows the publishers of its configuration if every call that
sets its trusted keys or its quorum comes from a list that verified under the manifest of such a
publisher. The fetcher asks whether a publisher is registered, but the handler of a peer's message
does not: it passes on any list that verifies, and of the others the number of their entries.
-/

namespace Rxrpl.Consensus

open List

/-- The call passes on what the list says. -/
def TrustCall.ComesFrom (c : TrustCall) (list : ValidatorListData) : Prop :=
  c=.setTrustedMasterKeys list.validators ∨ c=.updateQuorum (computeQuorum list.validators.length)

namespace TrustNode

/-! ## What the overlay makes of a message -/

/-- A message is not readable, or does not verify and is counted, or verifies as a list, whose
manifests are reported as far as the store accepts them. -/
inductive Reading
  | unreadable
  | unverified (count : Option ℕ)
  | verified (list : ValidatorListData) (applied : List ConsensusMessage)

def Reading.list : Reading → Option ValidatorListData
  | .verified list _ => some list
  | _ => none

def reading (env : ListEnv) (n : TrustNode) (payload : Bytes) : Reading :=
  match env.decodeValidatorList payload with
  | none => .unreadable
  | some vl =>
    match verifyMessage env vl n.overlay.manifestStore with
    | (none,_) => .unverified (vl.blob.bind (blobValidatorCount env))
    | (some list,store) =>
      .verified list (applyManifests env.schemes list.validatorManifests store).1

def Registered (n : TrustNode) (list : ValidatorListData) : Prop :=
  n.fetcher.tracker.isTrustedPublisher list.publisherMasterKey=true

/-- The list is newer than the lists of its publisher that peers have sent. -/
def Fresh (n : TrustNode) (list : ValidatorListData) : Prop :=
  n.overlay.vlTracker.latest list.publisherMasterKey < list.sequence

instance (n : TrustNode) (list : ValidatorListData) : Decidable (n.Registered list) :=
    inferInstanceAs (Decidable (_=_))

instance (n : TrustNode) (list : ValidatorListData) : Decidable (n.Fresh list) :=
    inferInstanceAs (Decidable (_ < _))

def forwarded (n : TrustNode) : Reading → List ConsensusMessage
  | .unreadable => []
  | .unverified count => (count.map .validatorListReceived).toList
  | .verified list applied =>
    if n.Fresh list then
      applied++[.validatorListVerified list.validators list.sequence,
        .validatorListReceived list.validators.length]
    else [.validatorListReceived list.validators.length]

/-- The same state apart from the overlay and the fetcher. -/
structure SameTrust (n n' : TrustNode) : Prop where
  trusted : n'.trusted=n.trusted
  quorum : n'.quorum=n.quorum

variable {env : ListEnv} {n n' : TrustNode} {payload : Bytes}

/-- The handler of a message passes on what its reading says, and leaves the rest to the loop. -/
theorem handle_validatorList :
    (n.handle env (.validatorList payload)).1=n.forwarded (n.reading env payload) ∧
      n.SameTrust (n.handle env (.validatorList payload)).2 := by
  simp only [handle,reading]
  cases env.decodeValidatorList payload with
  | none => exact ⟨rfl,rfl,rfl⟩
  | some vl =>
    simp only [Overlay.onValidatorList]
    obtain ⟨result,store⟩ := verifyMessage env vl n.overlay.manifestStore
    cases result with
    | none => exact ⟨rfl,rfl,rfl⟩
    | some list =>
      by_cases hfresh : n.Fresh list
      · simp only [ValidatorListTracker.recordSequence,forwarded,if_pos hfresh,
          if_pos (show _ < _ from hfresh)]
        exact ⟨trivial,rfl,rfl⟩
      · simp only [ValidatorListTracker.recordSequence,forwarded,if_neg hfresh,
          if_neg (show ¬ _ < _ from hfresh)]
        exact ⟨trivial,rfl,rfl⟩

/-! ## What the loop makes of the messages -/

/-- The master keys whose revocation is reported. -/
def revokedKeys (messages : List ConsensusMessage) : List PublicKey :=
  messages.filterMap fun
    | .manifestApplied masterKey _ _ true => some masterKey
    | _ => none

/-- None of the reported revocations is that of a validator which the node trusts. -/
def RevokesNone (sha : Sha512Half) (n : TrustNode) (messages : List ConsensusMessage) : Prop :=
  ∀ key∈revokedKeys messages, NodeId.fromPublicKey sha key.asBytes∉n.trusted

def OnlyManifests (messages : List ConsensusMessage) : Prop :=
  ∀ m∈messages, ∃ masterKey ephemeralKey oldEphemeralKey revoked,
    m=.manifestApplied masterKey ephemeralKey oldEphemeralKey revoked

theorem onlyManifests_applyManifests (schemes : SignatureSchemes) (raws : List Bytes)
    (store : ManifestStore) : OnlyManifests (applyManifests schemes raws store).1 := by
  induction raws generalizing store with
  | nil => exact fun m hm => (not_mem_nil hm).elim
  | cons raw raws ih =>
    simp only [applyManifests]
    cases parseAndVerify schemes raw with
    | error e => exact ih store
    | ok m =>
      dsimp only
      obtain ⟨accepted,store'⟩ := store.apply m
      cases accepted with
      | false => exact ih store'
      | true => exact forall_mem_cons.mpr ⟨⟨_,_,_,_,rfl⟩,ih store'⟩

variable {applied messages : List ConsensusMessage} {list : ValidatorListData} {now : ℕ}
  {response : Except String Bytes} {sha : Sha512Half}

theorem onlyManifests_reading (h : n.reading env payload=.verified list applied) :
    OnlyManifests applied := by
  unfold reading at h
  split at h
  · cases h
  split at h
  · cases h
  · cases h
    exact onlyManifests_applyManifests _ _ _

theorem calls_onlyManifests {settings : LoopSettings} (h : OnlyManifests messages) :
    messages.flatMap (·.calls settings)=[] := by
  refine flatMap_eq_nil_iff.mpr fun m hm => ?_
  obtain ⟨_,_,_,_,rfl⟩ := h m hm
  rfl

theorem trusted_followManifest (sha : Sha512Half) (masterKey : PublicKey)
    (ephemeralKey oldEphemeralKey : Option PublicKey)
    (revoked : Bool) (unl : TrustedValidatorList) :
    (followManifest sha masterKey ephemeralKey oldEphemeralKey revoked unl).trusted =
      if revoked then unl.trusted.erase (.fromPublicKey sha masterKey.asBytes)
        else unl.trusted := by
  cases revoked <;> cases ephemeralKey <;> rfl

/-- Reports of manifests take the revoked keys out of the trusted set, and leave the quorum alone.
-/
theorem foldl_consume_onlyManifests (h : OnlyManifests messages) :
    (messages.foldl (consume sha .dynamic) n).quorum=n.quorum ∧
      (messages.foldl (consume sha .dynamic) n).trusted =
        n.trusted \
          ((revokedKeys messages).map fun key => .fromPublicKey sha key.asBytes).toFinset := by
  induction messages generalizing n with
  | nil => exact ⟨rfl,Finset.sdiff_empty.symm⟩
  | cons m messages ih =>
    obtain ⟨⟨masterKey,ephemeralKey,oldEphemeralKey,revoked,rfl⟩,hrest⟩ := forall_mem_cons.mp h
    obtain ⟨hquorum,htrusted⟩ := ih
      (n := n.changeUnl (followManifest sha masterKey ephemeralKey oldEphemeralKey revoked)) hrest
    refine ⟨hquorum,htrusted.trans ?_⟩
    rw [show (n.changeUnl _).trusted=_ from trusted_followManifest ..]
    cases revoked with
    | false => rfl
    | true =>
      rw [if_pos rfl,
        show revokedKeys (.manifestApplied masterKey ephemeralKey oldEphemeralKey true::messages) =
        masterKey::revokedKeys messages from rfl,map_cons,toFinset_cons,
        Finset.sdiff_insert,Finset.erase_sdiff_comm]
      rfl

theorem trusted_eq_iff_revokesNone (h : OnlyManifests messages) :
    (messages.foldl (consume sha .dynamic) n).trusted=n.trusted ↔ n.RevokesNone sha messages := by
  rw [(foldl_consume_onlyManifests h).2,Finset.sdiff_eq_self_iff_disjoint,Finset.disjoint_right]
  simp only [mem_toFinset,mem_map,RevokesNone]
  constructor
  · exact fun hno key hkey => hno ⟨key,hkey,rfl⟩
  · rintro hno id ⟨key,hkey,rfl⟩
    exact hno key hkey

theorem calls_received (count : ℕ) : (ConsensusMessage.validatorListReceived count).calls .dynamic =
      if 0 < count then [.updateQuorum (computeQuorum count)] else [] := by
  simp [ConsensusMessage.calls,LoopSettings.dynamic]

theorem calls_verified (validators : List PublicKey) (sequence : ℕ) :
    (ConsensusMessage.validatorListVerified validators sequence).calls .dynamic=if validators=[]
      then [] else
        [.setTrustedMasterKeys validators,.updateQuorum (computeQuorum validators.length)] := by
  by_cases h : validators=[] <;> simp [ConsensusMessage.calls,LoopSettings.dynamic,h]

theorem consume_received_eq (sha : Sha512Half) (settings : LoopSettings) (count : ℕ) :
    n.consume sha settings (.validatorListReceived count) =
      ((ConsensusMessage.validatorListReceived count).calls settings).foldl (call sha) n := rfl

theorem call_updateQuorum (sha : Sha512Half) {q : ℕ} (h : 1 ≤ q) :
    (n.call sha (.updateQuorum q)).trusted=n.trusted ∧ (n.call sha (.updateQuorum q)).quorum=q :=
  ⟨rfl,Nat.max_eq_left h⟩

theorem consume_received (sha : Sha512Half) (count : ℕ) :
    (n.consume sha .dynamic (.validatorListReceived count)).trusted=n.trusted ∧
      (n.consume sha .dynamic (.validatorListReceived count)).quorum =
        if count=0 then n.quorum else computeQuorum count := by
  rw [consume_received_eq,calls_received]
  by_cases h : count=0
  · rw [if_neg (by omega),if_pos h]
    exact ⟨rfl,rfl⟩
  · rw [if_pos (by omega),if_neg h]
    exact call_updateQuorum sha (by rw [computeQuorum]; exact Nat.le_max_right _ 1)

/-! ## Whom the node follows -/

variable (env)

/-- The list was verified for the input, by the overlay or by the fetcher. -/
def VerifiedFor (n : TrustNode) (i : TrustInput) (list : ValidatorListData) : Prop :=
  match i with
  | .validatorList payload => ∃ applied, n.reading env payload=.verified list applied
  | .fetched response now =>
    ∃ payload store, fetchPayload env response=.ok payload ∧
      payload.verify env n.fetcher.manifestStore now=(.ok list,store)
  | .listManifests _ => False

/-- The message is a fresh list that verifies under the manifest of a registered publisher. -/
def Authoritative (n : TrustNode) (payload : Bytes) : Prop :=
  ∃ list applied, n.reading env payload=.verified list applied ∧ n.Registered list ∧ n.Fresh list

/-- Only a registered publisher changes whom the node trusts. -/
structure Entrusted (n : TrustNode) (i : TrustInput) : Prop where
  published : ∀ c∈n.callsAt env .dynamic i, ∃ list, n.VerifiedFor env i list ∧ n.Registered list ∧
    c.ComesFrom list
  unmoved : ∀ payload, i=.validatorList payload → ¬ n.Authoritative env payload →
    (n.step env .dynamic i).trusted=n.trusted ∧ (n.step env .dynamic i).quorum=n.quorum

/-- A message of a peer is a fresh list of a registered publisher, or names no validator and revokes
none that the node trusts, or is a list of a registered publisher that asks for the quorum in force.
-/
def Heeds (n : TrustNode) : TrustInput → Prop
  | .validatorList payload =>
    match n.reading env payload with
    | .unreadable => True
    | .unverified count => count.getD 0=0
    | .verified list applied =>
      (n.Registered list ∧ (n.Fresh list ∨ computeQuorum list.validators.length=n.quorum)) ∨
        (list.validators=[] ∧ (n.Fresh list → n.RevokesNone env.sha applied))
  | _ => True

variable {env}

/-- A message of a peer: the loop takes what is passed on, in a node that trusts as before. -/
theorem step_validatorList (env : ListEnv) (n : TrustNode) (payload : Bytes) :
    ∃ n', n.SameTrust n' ∧ n.step env .dynamic (.validatorList payload) =
      (n.forwarded (n.reading env payload)).foldl (consume env.sha .dynamic) n' := by
  refine ⟨(n.handle env (.validatorList payload)).2,handle_validatorList.2,?_⟩
  rw [step,handle_validatorList.1]

theorem callsAt_validatorList : n.callsAt env .dynamic (.validatorList payload) =
      (n.forwarded (n.reading env payload)).flatMap (·.calls .dynamic) := by
  rw [callsAt,handle_validatorList.1]

/-- The calls of a list that verifies pass on what the list says, and there are none only if it is
empty. -/
theorem calls_forwarded_verified (n : TrustNode) (list : ValidatorListData)
    (h : OnlyManifests applied) :
    (∀ c∈(n.forwarded (.verified list applied)).flatMap (·.calls .dynamic), c.ComesFrom list) ∧
      ((n.forwarded (.verified list applied)).flatMap (·.calls .dynamic)=[] ↔
        list.validators=[]) := by
  by_cases hnil : list.validators=[]
  · by_cases hfresh : n.Fresh list <;>
      simp [forwarded,hfresh,calls_onlyManifests h,calls_received,calls_verified,hnil]
  · have hpos : 0 < list.validators.length := length_pos_iff.mpr hnil
    by_cases hfresh : n.Fresh list <;>
      simp [forwarded,hfresh,calls_onlyManifests h,calls_received,calls_verified,hnil,hpos,
        TrustCall.ComesFrom]

/-- A stale list moves the quorum, and nothing else. -/
theorem unmoved_stale (h : n.reading env payload=.verified list applied) (hstale : ¬ n.Fresh list) :
    ((n.step env .dynamic (.validatorList payload)).trusted=n.trusted ∧
        (n.step env .dynamic (.validatorList payload)).quorum=n.quorum) ↔
      list.validators=[] ∨ computeQuorum list.validators.length=n.quorum := by
  obtain ⟨n',hsame,hstep⟩ := step_validatorList env n payload
  rw [hstep,h,forwarded,if_neg hstale,foldl_cons,foldl_nil,(consume_received ..).1,
    (consume_received ..).2,hsame.trusted,hsame.quorum]
  by_cases hnil : list.validators=[] <;> simp [hnil]

/-- A fresh list without validators moves the trusted set by its revocations, and nothing else. -/
theorem unmoved_fresh (h : n.reading env payload=.verified list applied) (hfresh : n.Fresh list)
    (hnil : list.validators=[]) :
      ((n.step env .dynamic (.validatorList payload)).trusted=n.trusted ∧
        (n.step env .dynamic (.validatorList payload)).quorum=n.quorum) ↔
          n.RevokesNone env.sha applied := by
  obtain ⟨n',hsame,hstep⟩ := step_validatorList env n payload
  have honly := onlyManifests_reading h
  have hidle : ∀ n'' : TrustNode,
      [ConsensusMessage.validatorListVerified [] list.sequence,.validatorListReceived 0].foldl
        (consume env.sha .dynamic) n'' =
        n'' := fun _ => rfl
  rw [hstep,h,forwarded,if_pos hfresh,foldl_append,hnil,length_nil,hidle,
    (foldl_consume_onlyManifests honly).1,hsame.quorum,← hsame.trusted,
      trusted_eq_iff_revokesNone honly]
  simp only [RevokesNone,hsame.trusted,and_true]

theorem entrusted_unverified_iff
    (h : ∀ list applied, n.reading env payload≠.verified list applied) :
    n.Entrusted env (.validatorList payload) ↔ n.callsAt env .dynamic (.validatorList payload)=[] ∧
        (n.step env .dynamic (.validatorList payload)).trusted=n.trusted ∧
        (n.step env .dynamic (.validatorList payload)).quorum=n.quorum := by
  constructor
  · rintro ⟨hpublished,hunmoved⟩
    refine ⟨eq_nil_iff_forall_not_mem.mpr fun c hc => ?_,hunmoved payload rfl ?_⟩
    · obtain ⟨list,⟨applied,hread⟩,-⟩ := hpublished c hc
      exact h list applied hread
    · rintro ⟨list,applied,hread,-⟩
      exact h list applied hread
  · rintro ⟨hnone,hstay⟩
    refine ⟨fun c hc => ?_,fun payload' heq _ => ?_⟩
    · rw [hnone] at hc
      exact (not_mem_nil hc).elim
    · exact hstay

theorem entrusted_verified_iff (h : n.reading env payload=.verified list applied) :
    n.Entrusted env (.validatorList payload) ↔ (n.Registered list ∨ list.validators=[]) ∧
        (¬ (n.Registered list ∧ n.Fresh list) →
          (n.step env .dynamic (.validatorList payload)).trusted=n.trusted ∧
          (n.step env .dynamic (.validatorList payload)).quorum=n.quorum) := by
  have hcalls := calls_forwarded_verified n list (onlyManifests_reading h)
  rw [← h,← callsAt_validatorList] at hcalls
  constructor
  · rintro ⟨hpublished,hunmoved⟩
    refine ⟨?_,fun hnot => hunmoved payload rfl ?_⟩
    · by_cases hnil : list.validators=[]
      · exact .inr hnil
      · obtain ⟨c,hc⟩ := exists_mem_of_ne_nil _ (mt hcalls.2.mp hnil)
        obtain ⟨list',⟨applied',hread⟩,hregistered,-⟩ := hpublished c hc
        cases h.symm.trans hread
        exact .inl hregistered
    · rintro ⟨list',applied',hread,hauthority⟩
      cases h.symm.trans hread
      exact hnot hauthority
  · rintro ⟨hsource,hstay⟩
    refine ⟨fun c hc => ?_,fun payload' heq hnot => ?_⟩
    · obtain hregistered | hnil := hsource
      · exact ⟨list,⟨applied,h⟩,hregistered,hcalls.1 c hc⟩
      · rw [hcalls.2.mpr hnil] at hc
        exact (not_mem_nil hc).elim
    · cases heq
      exact hstay fun hauthority => hnot ⟨list,applied,h,hauthority⟩

theorem entrusted_validatorList_iff :
    n.Entrusted env (.validatorList payload) ↔ n.Heeds env (.validatorList payload) := by
  obtain ⟨n',hsame,hstep⟩ := step_validatorList env n payload
  simp only [Heeds]
  cases hread : n.reading env payload with
  | unreadable =>
    rw [entrusted_unverified_iff (fun _ _ h => nomatch hread.symm.trans h),callsAt_validatorList,
      hstep,hread]
    exact ⟨fun _ => trivial,fun _ => ⟨rfl,hsame.trusted,hsame.quorum⟩⟩
  | unverified count =>
    rw [entrusted_unverified_iff (fun _ _ h => nomatch hread.symm.trans h),callsAt_validatorList,
      hstep,hread]
    cases count with
    | none => exact ⟨fun _ => rfl,fun _ => ⟨rfl,hsame.trusted,hsame.quorum⟩⟩
    | some k =>
      have hcalls : (n.forwarded (.unverified (some k))).flatMap (·.calls .dynamic)=[] ↔ k=0 := by
        simp [forwarded,calls_received]
      refine ⟨fun h => hcalls.mp h.1,fun h => ⟨hcalls.mpr h,?_⟩⟩
      cases h
      exact ⟨hsame.trusted,hsame.quorum⟩
  | verified list applied =>
    rw [entrusted_verified_iff hread]
    dsimp only
    by_cases hregistered : n.Registered list <;> by_cases hfresh : n.Fresh list
    · simp [hregistered,hfresh]
    · rw [unmoved_stale hread hfresh]
      simp only [hregistered,hfresh,true_or,and_false,not_false_iff,true_imp_iff,true_and,false_or,
        false_imp_iff,
        and_true]
      exact or_comm
    · simp only [hregistered,hfresh,false_or,false_and,not_false_iff,true_imp_iff]
      exact and_congr_right fun hnil => unmoved_fresh hread hfresh hnil
    · rw [unmoved_stale hread hfresh]
      simp only [hregistered,hfresh,false_or,false_and,not_false_iff,true_imp_iff,false_imp_iff,
        and_true]
      exact and_iff_left_of_imp .inl

theorem fetchOne_ok {f f' : VlFetcher} (h : f.fetchOne env response now=(.ok list,f')) :
    (∃ payload store, fetchPayload env response=.ok payload ∧
      payload.verify env f.manifestStore now=(.ok list,store)) ∧
      f.tracker.isTrustedPublisher list.publisherMasterKey=true := by
  unfold VlFetcher.fetchOne at h
  cases hpayload : fetchPayload env response with
  | error e =>
    rw [hpayload] at h
    cases h
  | ok payload =>
    rw [hpayload] at h
    dsimp only at h
    cases hverify : payload.verify env f.manifestStore now with | mk result store =>
    rw [hverify] at h
    cases result with
    | error e => cases h
    | ok list' =>
      dsimp only at h
      split at h
      · cases h
      rename_i htrusted
      split at h
      · cases h
      · cases h
        exact ⟨⟨payload,store,rfl,hverify⟩,by simpa using htrusted⟩

theorem entrusted_fetched : n.Entrusted env (.fetched response now) := by
  refine ⟨fun c hc => ?_,fun payload h => nomatch h⟩
  simp only [callsAt,handle] at hc
  cases hfetch : n.fetcher.fetchOne env response now with | mk result fetcher =>
  rw [hfetch] at hc
  cases result with
  | error e => exact (not_mem_nil hc).elim
  | ok list =>
    obtain ⟨hverified,hregistered⟩ := fetchOne_ok hfetch
    refine ⟨list,hverified,hregistered,?_⟩
    rw [flatMap_cons,flatMap_nil,append_nil,calls_verified] at hc
    split at hc
    · exact (not_mem_nil hc).elim
    · simpa [TrustCall.ComesFrom] using hc

theorem entrusted_listManifests {manifests : List Bytes} :
    n.Entrusted env (.listManifests manifests) := by
  refine ⟨fun c hc => ?_,fun payload h => nomatch h⟩
  rw [callsAt,show (n.handle env (.listManifests manifests)).1 =
    (applyManifests env.schemes manifests n.overlay.manifestStore).1 from rfl,
    calls_onlyManifests (onlyManifests_applyManifests _ _ _)] at hc
  exact (not_mem_nil hc).elim

theorem entrusted_iff_heeds (i : TrustInput) : n.Entrusted env i ↔ n.Heeds env i := by
  cases i with
  | validatorList payload => exact entrusted_validatorList_iff
  | fetched response now => exact ⟨fun _ => trivial,fun _ => entrusted_fetched⟩
  | listManifests manifests => exact ⟨fun _ => trivial,fun _ => entrusted_listManifests⟩

end TrustNode

open TrustNode InputRun

/-- Along every run of a node with a dynamic validator list and no configured quorum: only
registered publishers change whom the node trusts exactly if every message of a peer is a fresh list
of such a publisher, or names no validator and revokes none, or repeats the quorum of such a
publisher. -/
theorem entrusted_along_iff_heeds (env : ListEnv) (n : TrustNode) (inputs : List TrustInput) :
    Along (step env .dynamic) (fun n i => n.Entrusted env i) n inputs ↔
      Along (step env .dynamic) (fun n i => n.Heeds env i) n inputs :=
  along_congr (fun _ => True) (fun _ => True) (fun _ i _ _ => entrusted_iff_heeds i)
    (fun _ _ _ _ _ => trivial) trivial
    fun _ _ => trivial

/-! ## A list of a stranger, and a list that nobody has signed -/

def sampleKey (b : UInt8) : PublicKey := .filled b

/-- A scheme in which the signature of a message is the key, followed by the message. -/
def sampleSchemes : SignatureSchemes :=
  ⟨fun message key signature => signature == key++message,fun message key signature =>
    signature == key++message⟩

def sampleManifestAt (sequence : UInt8) (master ephemeral : PublicKey) : Bytes :=
  let body := [0x24,0,0,0,sequence]++[0x71,33]++master.asBytes++[0x73,33]++ephemeral.asBytes
  let signature (key : PublicKey) := key.asBytes++manifestHashPrefixBytes++body
  body++[0x76,112]++signature ephemeral++[0x70,18,112]++signature master

def sampleBlob : Json :=
  .obj [("expiration",.int 100),("sequence",.int 1),("validators",
    .arr
      [.obj
      [("validation_public_key",
      .str "040404040404040404040404040404040404040404040404040404040404040404")]])]

/-- The message of a publisher that the node does not know, and a message with nothing but a blob.
-/
def sampleMessage : Bytes → Option TmValidatorList
  | [0] => some ⟨some (sampleManifestAt 1 (sampleKey 2) (sampleKey 3)),some [1],
      some (Codec.hexEncodeUpper ((sampleKey 3).asBytes++[1]))⟩
  | [1] => some ⟨none,some [1],none⟩
  | _ => none

def sampleListEnv : ListEnv where
  sha := fun bs => ⟨List.replicate 32 (bs.headD 0),List.length_replicate⟩
  schemes := sampleSchemes
  base64Decode := .ok
  jsonFromSlice := fun bs => if bs=[1] then .ok sampleBlob else .error "expected value"
  decodeValidatorList := sampleMessage
  decodePayload := fun _ => .error "missing field"

def sampleNode : TrustNode :=
  .new (.new ⟨.zero⟩ [] .default (.new {.fromPublicKey sampleListEnv.sha (sampleKey 5).asBytes}))
    (.new 28) [sampleKey 9]

/-- A peer makes the node trust the validator of a publisher that it does not know, and another one
sets its quorum by a list that carries no signature. -/
theorem stranger_changes_trust :
    sampleNode.fetcher.tracker.isTrustedPublisher (sampleKey 2)=false ∧
      (sampleNode.step sampleListEnv .dynamic (.validatorList [0])).trusted =
        {.fromPublicKey sampleListEnv.sha (sampleKey 4).asBytes} ∧
      ¬ Along (step sampleListEnv .dynamic) (fun n i => n.Entrusted sampleListEnv i) sampleNode
        [.validatorList [0]] ∧
      (sampleNode.step sampleListEnv .dynamic (.validatorList [1])).quorum=1 ∧
      ¬ Along (step sampleListEnv .dynamic) (fun n i => n.Entrusted sampleListEnv i) sampleNode
        [.validatorList [1]] := by
  have hunknown : sampleNode.fetcher.tracker.isTrustedPublisher (sampleKey 2)=false := by decide
  refine ⟨hunknown,by decide +kernel,?_,by decide +kernel,?_⟩
  · rintro ⟨⟨hpublished,-⟩,-⟩
    have hcall : .setTrustedMasterKeys [sampleKey 4]∈sampleNode.callsAt sampleListEnv .dynamic
      (.validatorList [0]) := by
      decide +kernel
    have hpublisher : (sampleNode.reading sampleListEnv [0]).list.map (·.publisherMasterKey) =
        some (sampleKey 2) := by
      decide +kernel
    obtain ⟨list,⟨applied,hread⟩,hregistered,-⟩ := hpublished _ hcall
    rw [hread] at hpublisher
    have hkey : list.publisherMasterKey=sampleKey 2 := Option.some.inj hpublisher
    rw [Registered,hkey,hunknown] at hregistered
    cases hregistered
  · rintro ⟨⟨hpublished,-⟩,-⟩
    have hcall : .updateQuorum 1∈sampleNode.callsAt sampleListEnv .dynamic (.validatorList [1]) :=
      by decide
    have hnone : (sampleNode.reading sampleListEnv [1]).list=none := by decide
    obtain ⟨list,⟨applied,hread⟩,-⟩ := hpublished _ hcall
    rw [hread] at hnone
    cases hnone

end Rxrpl.Consensus
