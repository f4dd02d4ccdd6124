import Rxrpl.ManifestHistory
import Rxrpl.PublisherTrust

/-!
# The key that a validator list is signed with

A list is checked against the manifest that comes with it. The store is told of that manifest, but
its answer is dropped: a manifest that the publisher has long replaced still vouches for the list.
-/

namespace Rxrpl.Consensus

open Codec (hexDecode)
open InputRun Newest ManifestStore List

def SignedUnder (env : ListEnv) (key : PublicKey) (blobBase64 signatureHex : Bytes) : Prop :=
  ∃ sigBytes blobJson, hexDecode signatureHex=.ok sigBytes ∧
    env.base64Decode blobBase64=.ok blobJson ∧
    env.schemes.verify blobJson key.asBytes sigBytes=true

/-- A use of a manifest store: a manifest by itself, or a list of either version. -/
inductive StoreCall
  | apply (m : Manifest)
  | verifyAndParse (manifestBytes blobBase64 signatureHex : Bytes)
  | verifyAndParseV2 (manifestBytes : Bytes) (blobs : List BlobV2Wire) (now : ℕ)

/-- A blob, and the manifest whose key its signature is checked with. -/
structure CheckedBlob where
  signer : Manifest
  blobBase64 : Bytes
  signatureHex : Bytes
  deriving DecidableEq

section

variable (env : ListEnv)

/-- The manifests of the entries that are presented to the store, up to the first entry that fails.
-/
def entryManifests (publisher : Manifest) : List BlobV2Wire → ManifestStore → List Manifest
  | [], _ => []
  | entry::entries, store =>
    match signingManifest env publisher entry store with
    | (.error _,_) => []
    | (.ok signing,store) =>
      (entry.manifest.map fun _ => signing).toList ++
        match verifyEntry env publisher signing entry with
        | .error _ => []
        | .ok _ => entryManifests publisher entries store

/-- The manifest of the publisher, if it is presented to the store, and those that follow it. -/
def publisherManifests (manifestBytes : Bytes) (store : ManifestStore)
    (rest : Manifest → ManifestStore → List Manifest) : List Manifest :=
  match parseAndVerify env.schemes manifestBytes with
  | .error _ => []
  | .ok publisher =>
    if store.isRevoked publisher.masterPublicKey then []
      else publisher::rest publisher (store.apply publisher).2

/-- The manifest that an entry is checked with. -/
def entrySigner (publisher : Manifest) (entry : BlobV2Wire) : Manifest :=
  ((entry.manifest.bind fun bytes => (parseAndVerify env.schemes bytes).toOption)).getD publisher

namespace StoreCall

def manifests (store : ManifestStore) : StoreCall → List Manifest
  | .apply m => [m]
  | .verifyAndParse manifestBytes _ _ => publisherManifests env manifestBytes store fun _ _ => []
  | .verifyAndParseV2 manifestBytes blobs _ =>
    if 5 < blobs.length then [] else publisherManifests env manifestBytes store fun p s =>
      entryManifests env p blobs s

def after (store : ManifestStore) : StoreCall → ManifestStore
  | .apply m => (store.apply m).2
  | .verifyAndParse manifestBytes blob signature =>
    (Rxrpl.Consensus.verifyAndParse env manifestBytes blob signature store).2
  | .verifyAndParseV2 manifestBytes blobs now =>
    (Rxrpl.Consensus.verifyAndParseV2 env manifestBytes blobs store now).2

/-- The blobs that a call has accepted: all of them, if it returns `Ok`. -/
def acceptedBlobs (store : ManifestStore) : StoreCall → List CheckedBlob
  | .apply _ => []
  | .verifyAndParse manifestBytes blob signature =>
    match (Rxrpl.Consensus.verifyAndParse env manifestBytes blob signature store).1,
      parseAndVerify env.schemes manifestBytes with
    | .ok _, .ok publisher => [⟨publisher,blob,signature⟩]
    | _, _ => []
  | .verifyAndParseV2 manifestBytes blobs now =>
    match (Rxrpl.Consensus.verifyAndParseV2 env manifestBytes blobs store now).1,
      parseAndVerify env.schemes manifestBytes with
    | .ok _, .ok publisher => blobs.map fun b =>
      ⟨entrySigner env publisher b,b.blobBase64,b.signatureHex⟩
    | _, _ => []

end StoreCall

/-! ## What the two verifications do -/

variable {env}

variable {entry : BlobV2Wire} {manifestBytes : Bytes} {publisher signing : Manifest}
  {store store' : ManifestStore}

theorem verifyBlob_ok {publisherMasterKey : PublicKey} {blob signature : Bytes}
    {list : ValidatorListData × List PublicKey × Option ℕ}
    (h : verifyBlob env signing publisherMasterKey blob signature=.ok list) :
    ∃ key, signing.ephemeralPublicKey=some key ∧ SignedUnder env key blob signature := by
  unfold verifyBlob at h
  split at h
  · cases h
  rename_i key hkey
  split at h
  · cases h
  rename_i sigBytes hsig
  split at h
  · cases h
  rename_i blobJson hblob
  split_ifs at h with hverify
  exact ⟨key,hkey,sigBytes,blobJson,hsig,hblob,by simpa using hverify⟩

theorem verifyEntry_ok {v2 : ValidatorListDataV2}
    (h : verifyEntry env publisher signing entry=.ok v2) :
    ∃ key, signing.ephemeralPublicKey=some key ∧
      SignedUnder env key entry.blobBase64 entry.signatureHex := by
  unfold verifyEntry at h
  cases hblob : verifyBlob env signing publisher.masterPublicKey entry.blobBase64 entry.signatureHex
    with
  | error e =>
    rw [hblob] at h
    cases h
  | ok list => exact verifyBlob_ok hblob

theorem signingManifest_ok (h : signingManifest env publisher entry store=(.ok signing,store')) :
    signing=entrySigner env publisher entry ∧
      store'=store.replay (entry.manifest.map fun _ => signing).toList ∧
      (signing=publisher ∨ signing.Verified env.schemes) ∧
        signing.masterPublicKey=publisher.masterPublicKey := by
  unfold signingManifest at h
  split at h
  · rename_i hnone
    cases h
    simp [entrySigner,hnone,replay]
  · rename_i bytes hsome
    split at h
    · cases h
    rename_i m hparse
    split at h
    · cases h
    rename_i hmaster
    split at h
    · cases h
    cases h
    refine ⟨?_,?_,.inr ⟨bytes,hparse⟩,by simpa using hmaster⟩
    · simp [entrySigner,hsome,hparse,Except.toOption]
    · simp [hsome,replay]

theorem signingManifest_error {e : ValidatorListError}
    (h : signingManifest env publisher entry store=(.error e,store')) : store'=store := by
  unfold signingManifest at h
  split at h
  · cases h
  split at h
  · cases h
    rfl
  split at h
  · cases h
    rfl
  split at h
  · cases h
    rfl
  · cases h

/-- The loop presents the manifests of its entries, and checks every blob with the manifest of its
entry. -/
theorem verifyEntries_spec (publisher : Manifest) (now : ℕ) (entries : List BlobV2Wire)
    (bundle : ValidatorListV2Bundle) (store : ManifestStore) :
    (verifyEntries env publisher now entries bundle store).2=store.replay
      (entryManifests env publisher entries store) ∧
      ((verifyEntries env publisher now entries bundle store).1.isOk → ∀ entry∈entries, ∃ key,
        (entrySigner env publisher entry).ephemeralPublicKey=some key ∧
          SignedUnder env key entry.blobBase64 entry.signatureHex) ∧
      ∀ m∈entryManifests env publisher entries store, m=publisher ∨ m.Verified env.schemes := by
  induction entries generalizing bundle store with
  | nil => exact ⟨rfl,(fun _ _ h => nomatch h),(fun _ h => nomatch h)⟩
  | cons entry entries ih =>
    rw [verifyEntries,entryManifests]
    match hsigning : signingManifest env publisher entry store with
    | (.error e,store') =>
      rw [signingManifest_error hsigning]
      exact ⟨rfl,(fun h => nomatch h),(fun _ h => nomatch h)⟩
    | (.ok signing,store') =>
      obtain ⟨hsigner,hstore,hverified,-⟩ := signingManifest_ok hsigning
      have hown : ∀ m∈(entry.manifest.map fun _ => signing).toList, m=publisher ∨
        m.Verified env.schemes := by
        intro m hm
        cases hmanifest : entry.manifest with
        | none => simp [hmanifest] at hm
        | some bytes =>
          rw [hmanifest] at hm
          rwa [mem_singleton.mp hm]
      dsimp only
      match hentry : verifyEntry env publisher signing entry with
      | .error e =>
        refine ⟨?_,(fun h => nomatch h),fun m hm => hown m ?_⟩
        · rw [append_nil]
          exact hstore
        · rwa [append_nil] at hm
      | .ok v2 =>
        refine ⟨?_,fun hok b hb => ?_,fun m hm => ?_⟩
        · rw [replay_append,← hstore]
          exact (ih _ store').1
        · rcases mem_cons.mp hb with rfl | hb
          · rw [← hsigner]
            exact verifyEntry_ok hentry
          · exact (ih _ store').2.1 hok b hb
        · rcases mem_append.mp hm with hm | hm
          · exact hown m hm
          · exact (ih bundle store').2.2 m hm

/-- A list of either version, as far as its publisher is concerned. -/
theorem withPublisher_spec {α : Type}
    {k : Manifest → ManifestStore → Except ValidatorListError α × ManifestStore}
    (rest : Manifest → ManifestStore → List Manifest)
    (hk : ∀ publisher store, (k publisher store).2=store.replay (rest publisher store)) :
    (withPublisher env manifestBytes store k).2=store.replay
      (publisherManifests env manifestBytes store rest) ∧
      ∀ publisher, parseAndVerify env.schemes manifestBytes=.ok publisher →
        (withPublisher env manifestBytes store k).1.isOk →
          ∃ store', (k publisher store').1.isOk := by
  unfold withPublisher publisherManifests
  cases parseAndVerify env.schemes manifestBytes with
  | error e => exact ⟨rfl,(fun _ h => nomatch h)⟩
  | ok publisher =>
    dsimp only
    by_cases hrevoked : store.isRevoked publisher.masterPublicKey=true
    · rw [if_pos hrevoked,if_pos hrevoked]
      exact ⟨rfl,(fun _ _ h => nomatch h)⟩
    rw [if_neg hrevoked,if_neg hrevoked]
    refine ⟨hk _ _,fun publisher' h hok => ?_⟩
    cases h
    exact ⟨_,hok⟩

theorem mem_publisherManifests {rest : Manifest → ManifestStore → List Manifest} {m : Manifest}
    (hrest : ∀ publisher store, ∀ m∈rest publisher store, m=publisher ∨ m.Verified env.schemes)
    (hm : m∈publisherManifests env manifestBytes store rest) : m.Verified env.schemes := by
  unfold publisherManifests at hm
  split at hm
  · cases hm
  rename_i publisher hparse
  have hpublisher : publisher.Verified env.schemes := ⟨manifestBytes,hparse⟩
  split at hm
  · cases hm
  rcases mem_cons.mp hm with rfl | hm
  · exact hpublisher
  · rcases hrest _ _ m hm with rfl | hm
    · exact hpublisher
    · exact hm

namespace StoreCall

variable {store : ManifestStore}

theorem after_eq (call : StoreCall) :
    call.after env store=store.replay (call.manifests env store) := by
  cases call with
  | apply m => rfl
  | verifyAndParse manifestBytes blob signature =>
    exact (withPublisher_spec (fun _ _ => []) fun _ _ => rfl).1
  | verifyAndParseV2 manifestBytes blobs now =>
    simp only [after,manifests,Rxrpl.Consensus.verifyAndParseV2]
    split
    · rfl
    · exact (withPublisher_spec _ fun _ _ => (verifyEntries_spec ..).1).1

theorem verified_manifests {call : StoreCall} (hcall : ∀ m, call=.apply m → m.Verified env.schemes)
    {m : Manifest} (hm : m∈call.manifests env store) : m.Verified env.schemes := by
  cases call with
  | apply m' =>
    rw [mem_singleton.mp hm]
    exact hcall m' rfl
  | verifyAndParse manifestBytes blob signature =>
    simp only [manifests] at hm
    exact mem_publisherManifests (fun _ _ _ h => (not_mem_nil h).elim) hm
  | verifyAndParseV2 manifestBytes blobs now =>
    simp only [manifests] at hm
    split at hm
    · cases hm
    · exact mem_publisherManifests (fun _ _ => (verifyEntries_spec _ now _ ⟨[],[]⟩ _).2.2) hm

/-- Every accepted blob has been signed with the key of the manifest that it is checked with. -/
theorem acceptedBlobs_signed {call : StoreCall} {b : CheckedBlob}
    (hb : b∈call.acceptedBlobs env store) :
    ∃ key, b.signer.ephemeralPublicKey=some key ∧
      SignedUnder env key b.blobBase64 b.signatureHex := by
  cases call with
  | apply m => cases hb
  | verifyAndParse manifestBytes blob signature =>
    simp only [acceptedBlobs] at hb
    split at hb
    · rename_i list publisher hok hparse
      rw [mem_singleton.mp hb]
      obtain ⟨store',hok'⟩ := (withPublisher_spec (fun _ _ => []) fun _ _ => rfl).2 publisher hparse
        (show (Rxrpl.Consensus.verifyAndParse env manifestBytes blob signature store).1.isOk by
          rw [hok]; rfl)
      cases hblob : verifyBlob env publisher publisher.masterPublicKey blob signature with
      | error e =>
        rw [hblob] at hok'
        cases hok'
      | ok list => exact verifyBlob_ok hblob
    · cases hb
  | verifyAndParseV2 manifestBytes blobs now =>
    simp only [acceptedBlobs] at hb
    split at hb
    · rename_i bundle publisher hok hparse
      obtain ⟨entry,hentry,rfl⟩ := mem_map.mp hb
      simp only [Rxrpl.Consensus.verifyAndParseV2] at hok
      split at hok
      · cases hok
      · obtain ⟨store',hok'⟩ :=
          (withPublisher_spec _ fun _ _ => (verifyEntries_spec ..).1).2 publisher hparse
          (by rw [hok]; rfl)
        exact (verifyEntries_spec ..).2.1 hok' entry hentry
    · cases hb

end StoreCall

end

/-! ## Histories of calls -/

/-- The newest of the manifest that the store has for a master key and those that a call brings. -/
def StoreCall.newestKnown (env : ListEnv) (store : ManifestStore) (call : StoreCall)
    (k : PublicKey) : Option Manifest :=
  (ofMaster k (call.manifests env store)).foldl (keep fun m => m.sequence) (store.getManifest k)

/-- A store, and the manifests that it has been presented with so far. -/
structure SigningLog where
  store : ManifestStore
  presented : List Manifest

namespace SigningLog

variable (env : ListEnv)

def new : SigningLog := ⟨.new,[]⟩

def call (log : SigningLog) (c : StoreCall) : SigningLog :=
  ⟨c.after env log.store,log.presented++c.manifests env log.store⟩

/-- The signature of every accepted blob has been checked, with success, under the ephemeral key of
the newest manifest of its publisher among all that were presented, those of the message among them.
-/
def SignedWithCurrentKey (log : SigningLog) (c : StoreCall) : Prop :=
  ∀ b∈c.acceptedBlobs env log.store, ∃ newest key,
    newestOf b.signer.masterPublicKey (log.call env c).presented=some newest ∧
      newest.ephemeralPublicKey=some key ∧ b.signer.ephemeralPublicKey=some key ∧
      SignedUnder env key b.blobBase64 b.signatureHex

/-- No manifest that the store has, or that comes with the message, has replaced the key of the
manifest that vouches for a blob. -/
def NotReplaced (log : SigningLog) (c : StoreCall) : Prop :=
  ∀ b∈c.acceptedBlobs env log.store,
    (c.newestKnown env log.store b.signer.masterPublicKey).bind
      (·.ephemeralPublicKey)=b.signer.ephemeralPublicKey

variable {env} {log : SigningLog} {c : StoreCall}

theorem newestOf_call (h : log.store.Tracks log.presented) (k : PublicKey) :
    newestOf k (log.call env c).presented=c.newestKnown env log.store k := by
  simp only [newestOf,call,ofMaster,filter_append]
  rw [newest,foldl_append,StoreCall.newestKnown,h.current]
  rfl

theorem signedWithCurrentKey_iff (h : log.store.Tracks log.presented) :
    log.SignedWithCurrentKey env c ↔ log.NotReplaced env c := by
  refine forall₂_congr fun b hb => ?_
  rw [newestOf_call h]
  obtain ⟨key,hkey,hsigned⟩ := StoreCall.acceptedBlobs_signed hb
  constructor
  · rintro ⟨newest,key',hnewest,hkey',hsigner,-⟩
    rw [hnewest,Option.bind_some,hkey',hsigner]
  intro hbind
  rw [hkey] at hbind
  obtain ⟨newest,hnewest,hnamed⟩ := Option.bind_eq_some_iff.mp hbind
  exact ⟨newest,key,hnewest,hnamed,hkey,hsigned⟩

theorem tracks_call (h : log.store.Tracks log.presented)
    (hc : ∀ m, c=.apply m → m.Verified env.schemes) :
    (log.call env c).store.Tracks (log.call env c).presented := by
  rw [call,StoreCall.after_eq]
  exact h.replay fun m hm => (StoreCall.verified_manifests hc hm).wellFormed

end SigningLog

open SigningLog

/-- In every history of a store, all lists that it has accepted were signed with the current key of
their publisher, if and only if no list was accepted on the word of a manifest whose key had been
replaced. -/
theorem lists_signed_with_current_key_iff (env : ListEnv) (calls : List StoreCall)
    (hverified : ∀ m, .apply m∈calls → m.Verified env.schemes) :
    Along (SigningLog.call env) (SignedWithCurrentKey env) .new calls ↔
      Along (SigningLog.call env) (NotReplaced env) .new calls := by
  refine along_congr (fun log => log.store.Tracks log.presented)
    (fun c => ∀ m, c=.apply m → m.Verified env.schemes)
    (fun log c h _ => signedWithCurrentKey_iff h) (fun log c h hc _ => tracks_call h hc) tracks_new
      ?_
  rintro c hc m rfl
  exact hverified m hc

/-! ## A list under an old key -/

def sampleManifestOf (sequence : UInt8) (master ephemeral : PublicKey) : Manifest :=
  ⟨sequence.toNat,master,some ephemeral,none,sampleManifestAt sequence master ephemeral⟩

/-- A list that an ephemeral key of the publisher has signed, with the manifest of that key. -/
def sampleList (sequence : UInt8) (ephemeral : PublicKey) : StoreCall :=
  .verifyAndParse (sampleManifestAt sequence (sampleKey 2) ephemeral) [1]
    (Codec.hexEncodeUpper (ephemeral.asBytes++[1]))

/-- A publisher that changes its key and then publishes a list under the new one. -/
theorem list_under_new_key :
    (StoreCall.acceptedBlobs sampleListEnv
      (ManifestStore.new.replay [sampleManifestOf 1 (sampleKey 2) (sampleKey 3)])
        (sampleList 2 (sampleKey 7))).length=1 ∧
      Along (SigningLog.call sampleListEnv) (SignedWithCurrentKey sampleListEnv) .new
        [.apply (sampleManifestOf 1 (sampleKey 2) (sampleKey 3)),sampleList 2 (sampleKey 7)] := by
  have hparse : parseAndVerify sampleSchemes (sampleManifestAt 1 (sampleKey 2) (sampleKey 3)) =
      .ok (sampleManifestOf 1 (sampleKey 2) (sampleKey 3)) := by decide +kernel
  refine ⟨by
    decide +kernel,(lists_signed_with_current_key_iff sampleListEnv _ fun m hm => ?_).mpr
    ⟨?_,?_,trivial⟩⟩
  · simp only [sampleList,mem_cons,StoreCall.apply.injEq,reduceCtorEq,not_mem_nil,or_false] at hm
    exact ⟨_,hm ▸ hparse⟩
  · exact fun b hb => nomatch hb
  · unfold NotReplaced
    decide +kernel

/-- A publisher has changed its key, and the store knows. A list under the old key is accepted all
the same, in either version, together with the old manifest. -/
theorem list_under_replaced_key :
    (sampleManifestOf 2 (sampleKey 2) (sampleKey 7)).Verified sampleListEnv.schemes ∧
      (Rxrpl.Consensus.verifyAndParse sampleListEnv (sampleManifestAt 1 (sampleKey 2) (sampleKey 3))
        [1]
        (Codec.hexEncodeUpper ((sampleKey 3).asBytes++[1]))
        (ManifestStore.new.replay [sampleManifestOf 2 (sampleKey 2) (sampleKey 7)])).1.isOk ∧
      ¬ Along (SigningLog.call sampleListEnv) (SignedWithCurrentKey sampleListEnv) .new
        [.apply (sampleManifestOf 2 (sampleKey 2) (sampleKey 7)),sampleList 1 (sampleKey 3)] ∧
      ¬ Along (SigningLog.call sampleListEnv) (SignedWithCurrentKey sampleListEnv) .new
        [.apply (sampleManifestOf 2 (sampleKey 2) (sampleKey 7)),
          .verifyAndParseV2 (sampleManifestAt 1 (sampleKey 2) (sampleKey 3))
            [⟨none,[1],Codec.hexEncodeUpper ((sampleKey 3).asBytes++[1])⟩] 50] := by
  have hparse : parseAndVerify sampleSchemes (sampleManifestAt 2 (sampleKey 2) (sampleKey 7)) =
      .ok (sampleManifestOf 2 (sampleKey 2) (sampleKey 7)) := by decide +kernel
  have hsample : (sampleManifestOf 2 (sampleKey 2) (sampleKey 7)).Verified sampleListEnv.schemes :=
    ⟨_,hparse⟩
  have htracks :
    (SigningLog.new.call sampleListEnv
    (.apply (sampleManifestOf 2 (sampleKey 2) (sampleKey 7)))).store.Tracks
      (SigningLog.new.call sampleListEnv
        (.apply (sampleManifestOf 2 (sampleKey 2) (sampleKey 7)))).presented :=
    tracks_call tracks_new fun m hm => by cases hm; exact hsample
  refine ⟨hsample,by decide +kernel,?_,?_⟩
  · rintro ⟨-,h,-⟩
    rw [signedWithCurrentKey_iff htracks] at h
    revert h
    unfold NotReplaced
    decide +kernel
  · rintro ⟨-,h,-⟩
    rw [signedWithCurrentKey_iff htracks] at h
    revert h
    unfold NotReplaced
    decide +kernel

end Rxrpl.Consensus
