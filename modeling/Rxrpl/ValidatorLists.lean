import Rxrpl.ConsensusEngine
import Rxrpl.HexText
import Rxrpl.Json
import Rxrpl.Manifests

/-!
# Validator lists

A validator list comes from a peer, as a message that the overlay handles, or from a site of the
configuration, which the fetcher reads. Both tell the consensus loop, which sets the trusted master
keys of the engine and the quorum of the aggregator. The channel to the loop is taken to have room;
the decoders of base64, JSON and protocol buffers are parameters.
-/

namespace Rxrpl.Consensus

open Codec (FromHexError hexDecode hexValue)

/-! ## The content of a list -/

structure ValidatorListData where
  sequence : ℕ
  expiration : ℕ
  validators : List PublicKey
  validatorManifests : List Bytes
  publisherMasterKey : PublicKey
  deriving DecidableEq

/-- What the text of `ValidatorListError::BlobDecode` says, and that of `FetcherError::Decode`. -/
inductive BlobDecodeError
  | hex (e : FromHexError)
  | base64 (e : String)
  | json (e : String)
  | field (message : String)

/-- The errors of `ValidatorListError` that the two verifications return. -/
inductive ValidatorListError
  | publisherManifest (e : ManifestError)
  | publisherRevoked
  | blobSignatureInvalid
  | blobDecode (e : BlobDecodeError)
  | missingData
  | tooManyV2Blobs
  | invalidV2Window (effective expiration : ℕ)
  | v2ManifestPublisherMismatch

/-- `TMValidatorList`; nothing here reads the version. -/
structure TmValidatorList where
  manifest : Option Bytes
  blob : Option Bytes
  signature : Option Bytes

structure VlPayloadV2Blob where
  manifest : Option String
  blob : String
  signature : String

structure VlPayload where
  manifest : String
  blob : Option String
  signature : Option String
  version : ℕ
  blobsV2 : Option (List VlPayloadV2Blob)

/-- The code of other crates that lists are read with. -/
structure ListEnv where
  sha : Sha512Half
  schemes : SignatureSchemes
  base64Decode : Bytes → Except String Bytes
  jsonFromSlice : Bytes → Except String Json
  decodeValidatorList : Bytes → Option TmValidatorList
  decodePayload : Bytes → Except String VlPayload

def jsonGet (j : Json) (k : String) : Option Json := j.asObject.bind (Json.find k)

def publicKeyOfHex (text : String) : Option PublicKey :=
  match hexDecode (utf8 text) with
  | .ok bytes => PublicKey.fromSlice bytes
  | .error _ => none

/-- The master key that an entry of a list gives; an entry without one is skipped. -/
def entryKey (entry : Json) : Option PublicKey :=
  ((jsonGet entry "validation_public_key").bind Json.asStr).bind publicKeyOfHex

def entryManifest (env : ListEnv) (entry : Json) : Option Bytes :=
  ((jsonGet entry "manifest").bind Json.asStr).bind fun text =>
    (env.base64Decode (utf8 text)).toOption

/-- A part of a blob that has to be there. -/
def blobField {α : Type} (message : String) (value : Option α) : Except ValidatorListError α :=
  match value with
  | some a => .ok a
  | none => .error (.blobDecode (.field message))

/-- `parse_blob_json`: the list, the delegates and the effective time. -/
def parseBlobJson (env : ListEnv) (blobJson : Bytes) (publisherMasterKey : PublicKey) :
    Except ValidatorListError (ValidatorListData × List PublicKey × Option ℕ) :=
  match env.jsonFromSlice blobJson with
  | .error e => .error (.blobDecode (.json e))
  | .ok blob =>
    blobField "missing or invalid sequence" ((jsonGet blob "sequence").bind Json.asU64) >>=
      fun sequence =>
    blobField "missing or invalid expiration" ((jsonGet blob "expiration").bind Json.asU64) >>=
      fun expiration =>
    (match jsonGet blob "effective" with
      | some value => blobField "invalid effective" value.asU64 >>= fun t => .ok (some t)
      | none => .ok none) >>= fun effective =>
    blobField "missing validators array" ((jsonGet blob "validators").bind Json.asArray) >>=
      fun entries =>
    .ok ({ sequence, expiration, publisherMasterKey
           validators := entries.filterMap entryKey
           validatorManifests := entries.filterMap (entryManifest env) },
      (((jsonGet blob "delegates").bind Json.asArray).getD []).filterMap
        (fun d => d.asStr.bind publicKeyOfHex),
      effective)

/-- What `verify_and_parse` and `verify_and_parse_v2` do with one blob: the ephemeral key of a
manifest has signed the decoded bytes. -/
def verifyBlob (env : ListEnv) (signingManifest : Manifest) (publisherMasterKey : PublicKey)
    (blobBase64 signatureHex : Bytes) :
      Except ValidatorListError (ValidatorListData × List PublicKey × Option ℕ) :=
  match signingManifest.ephemeralPublicKey with
  | none => .error .missingData
  | some ephemeralPk =>
    match hexDecode signatureHex with
    | .error e => .error (.blobDecode (.hex e))
    | .ok sigBytes =>
      match env.base64Decode blobBase64 with
      | .error e => .error (.blobDecode (.base64 e))
      | .ok blobJson =>
        if !env.schemes.verify blobJson ephemeralPk.asBytes sigBytes then
          .error .blobSignatureInvalid
        else parseBlobJson env blobJson publisherMasterKey

/-- The manifest of the publisher is checked and put into the store, whatever becomes of the list.
-/
def withPublisher {α : Type} (env : ListEnv) (manifestBytes : Bytes) (store : ManifestStore)
    (k : Manifest → ManifestStore → Except ValidatorListError α × ManifestStore) :
    Except ValidatorListError α × ManifestStore :=
  match parseAndVerify env.schemes manifestBytes with
  | .error e => (.error (.publisherManifest e),store)
  | .ok publisher =>
    if store.isRevoked publisher.masterPublicKey then (.error .publisherRevoked,store)
    else k publisher (store.apply publisher).2

def verifyAndParse (env : ListEnv) (manifestBytes blobBase64 signatureHex : Bytes)
    (store : ManifestStore) : Except ValidatorListError ValidatorListData × ManifestStore :=
  withPublisher env manifestBytes store fun publisher store =>
    (verifyBlob env publisher publisher.masterPublicKey blobBase64 signatureHex >>= fun (list,_) =>
      .ok list,store)

/-! ## Version 2 -/

structure ValidatorListDataV2 where
  base : ValidatorListData
  effective : ℕ
  delegates : List PublicKey

structure ValidatorListV2Bundle where
  active : List ValidatorListDataV2
  inactive : List ValidatorListDataV2

structure BlobV2Wire where
  manifest : Option Bytes
  blobBase64 : Bytes
  signatureHex : Bytes

/-- The manifest that has signed an entry: its own one, of the same publisher, or that of the
bundle. -/
def signingManifest (env : ListEnv) (publisher : Manifest) (entry : BlobV2Wire)
    (store : ManifestStore) : Except ValidatorListError Manifest × ManifestStore :=
  match entry.manifest with
  | none => (.ok publisher,store)
  | some bytes =>
    match parseAndVerify env.schemes bytes with
    | .error e => (.error (.publisherManifest e),store)
    | .ok m =>
      if m.masterPublicKey≠publisher.masterPublicKey
        then (.error .v2ManifestPublisherMismatch,store)
      else if store.isRevoked m.masterPublicKey then (.error .publisherRevoked,store)
      else (.ok m,(store.apply m).2)

/-- One entry of a bundle, with its window checked. -/
def verifyEntry (env : ListEnv) (publisher signing : Manifest) (entry : BlobV2Wire) :
    Except ValidatorListError ValidatorListDataV2 :=
  verifyBlob env signing publisher.masterPublicKey entry.blobBase64 entry.signatureHex >>=
    fun (base,delegates,t) =>
  let effective := t.getD 0
  if base.expiration ≤ effective then .error (.invalidV2Window effective base.expiration)
  else .ok { base, effective, delegates }

/-- The loop of `verify_and_parse_v2`. -/
def verifyEntries (env : ListEnv) (publisher : Manifest) (now : ℕ) :
    List BlobV2Wire → ValidatorListV2Bundle → ManifestStore →
      Except ValidatorListError ValidatorListV2Bundle × ManifestStore
  | [], bundle, store => (.ok bundle,store)
  | entry::entries, bundle, store =>
    match signingManifest env publisher entry store with
    | (.error e,store) => (.error e,store)
    | (.ok signing,store) =>
      match verifyEntry env publisher signing entry with
      | .error e => (.error e,store)
      | .ok v2 =>
        let bundle := if v2.effective ≤ now ∧
          now < v2.base.expiration then { bundle with active := bundle.active++[v2] }
          else { bundle with inactive := bundle.inactive++[v2] }
        verifyEntries env publisher now entries bundle store

def verifyAndParseV2 (env : ListEnv) (manifestBytes : Bytes) (blobs : List BlobV2Wire)
    (store : ManifestStore) (now : ℕ) :
    Except ValidatorListError ValidatorListV2Bundle × ManifestStore :=
  if 5 < blobs.length then (.error .tooManyV2Blobs,store)
  else withPublisher env manifestBytes store fun publisher store =>
    verifyEntries env publisher now blobs ⟨[],[]⟩ store

/-! ## The tracker -/

/-- The newest sequence of each publisher, and the publishers that are trusted. -/
structure ValidatorListTracker where
  latestSequences : HashMap PublicKey ℕ
  trustedPublishers : Finset PublicKey

namespace ValidatorListTracker

def new : ValidatorListTracker := ⟨∅,∅⟩

variable (t : ValidatorListTracker)

def addTrustedPublisher (masterPk : PublicKey) : ValidatorListTracker :=
  { t with trustedPublishers := insert masterPk t.trustedPublishers }

def isTrustedPublisher (masterPk : PublicKey) : Bool :=
    decide (masterPk∈t.trustedPublishers)

def latest (masterPk : PublicKey) : ℕ :=
    (t.latestSequences.lookup masterPk).getD 0

/-- `record_sequence`: whether the sequence is newer. -/
def recordSequence (masterPk : PublicKey) (sequence : ℕ) :
    Bool × ValidatorListTracker :=
  if t.latest masterPk < sequence
    then (true,{ t with latestSequences := t.latestSequences.insert masterPk sequence })
  else (false,{ t with latestSequences := t.latestSequences.insert masterPk (t.latest masterPk) })

end ValidatorListTracker

/-! ## The overlay -/

/-- The messages to the consensus loop that validator lists lead to. -/
inductive ConsensusMessage
  | validatorListReceived (validatorCount : ℕ)
  | validatorListVerified (validators : List PublicKey) (sequence : ℕ)
  | manifestApplied (masterKey : PublicKey) (ephemeralKey oldEphemeralKey : Option PublicKey)
      (revoked : Bool)

/-- The state of the overlay that the handler of a validator list uses. -/
structure Overlay where
  manifestStore : ManifestStore
  vlTracker : ValidatorListTracker

/-- The manifests of the validators of a list: each one that the store accepts is reported. -/
def applyManifests (schemes : SignatureSchemes) : List Bytes → ManifestStore →
    List ConsensusMessage × ManifestStore
  | [], store => ([],store)
  | raw::raws, store =>
    match parseAndVerify schemes raw with
    | .error _ => applyManifests schemes raws store
    | .ok m =>
      let oldEphemeralKey := store.currentEphemeralKey m.masterPublicKey
      match store.apply m with
      | (false,store) => applyManifests schemes raws store
      | (true,store) =>
        let (messages,store) := applyManifests schemes raws store
        (.manifestApplied m.masterPublicKey m.ephemeralPublicKey oldEphemeralKey
          m.isRevoked::messages,store)

/-- `base64_decode_validator_blob`: the number of entries of a list that nobody has verified. -/
def blobValidatorCount (env : ListEnv) (blob : Bytes) : Option ℕ :=
  (env.base64Decode blob).toOption.bind fun decoded =>
  (env.jsonFromSlice decoded).toOption.bind fun json =>
  ((jsonGet json "validators").bind Json.asArray).map List.length

/-- The count that is reported for a list that does not verify. -/
def reportCount (env : ListEnv) (blob : Option Bytes) : List ConsensusMessage :=
  ((blob.bind (blobValidatorCount env)).map .validatorListReceived).toList

/-- The verification of a message, which needs its three parts, and the store after it. -/
def verifyMessage (env : ListEnv) (vl : TmValidatorList) (store : ManifestStore) :
    Option ValidatorListData × ManifestStore :=
  match vl.manifest, vl.blob, vl.signature with
  | some manifest, some blob, some signature =>
    let (result,store) := verifyAndParse env manifest blob signature store
    (result.toOption,store)
  | _, _, _ => (none,store)

/-- The handler of `MessageType::ValidatorList`. -/
def Overlay.onValidatorList (env : ListEnv) (o : Overlay) (vl : TmValidatorList) :
    List ConsensusMessage × Overlay :=
  match verifyMessage env vl o.manifestStore with
  | (none,store) => (reportCount env vl.blob,{ o with manifestStore := store })
  | (some list,store) =>
    let count := .validatorListReceived list.validators.length
    match o.vlTracker.recordSequence list.publisherMasterKey list.sequence with
    | (true,vlTracker) =>
      let (applied,store) := applyManifests env.schemes list.validatorManifests store
      (applied++[.validatorListVerified list.validators list.sequence,count],
        { manifestStore := store, vlTracker })
    | (false,vlTracker) => ([count],{ manifestStore := store, vlTracker })

/-! ## The fetcher -/

inductive FetcherError
  | http (e : String)
  | decode (e : BlobDecodeError)
  | verify (e : ValidatorListError)
  | untrustedPublisher
  | staleSequence (sequence : ℕ)
  | unsupportedVersion (version : ℕ)
  | malformedPayload (message : String)
  | noActiveV2Blob

def maxVlBody : ℕ := 1024*1024

/-- `decode_manifest`: hexadecimal, or else base64. -/
def decodeManifest (env : ListEnv) (s : String) : Except FetcherError Bytes :=
  if (utf8 s).length % 2=0 ∧ (utf8 s).all (fun c => (hexValue c).isSome) then
    match hexDecode (utf8 s) with
    | .ok bytes => .ok bytes
    | .error e => .error (.decode (.hex e))
  else match env.base64Decode (utf8 s) with
    | .ok bytes => .ok bytes
    | .error e => .error (.decode (.base64 e))

/-- `max_by_key` on the sequence, which keeps the last one of equals. -/
def newestList (lists : List ValidatorListDataV2) : Option ValidatorListDataV2 :=
  lists.foldl (fun best list =>
    match best with
    | some b => if list.base.sequence < b.base.sequence then some b else some list
    | none => some list) none

/-- The result of a verification, as the fetcher reports it. -/
def fetcherResult {α β : Type} (f : α → Except FetcherError β) :
    Except ValidatorListError α × ManifestStore → Except FetcherError β × ManifestStore
  | (.ok a,store) => (f a,store)
  | (.error e,store) => (.error (.verify e),store)

/-- The blobs of a payload of version 2, with their manifests decoded. -/
def wireBlobs (env : ListEnv) (blobs : List VlPayloadV2Blob) :
    Except FetcherError (List BlobV2Wire) :=
  blobs.mapM fun entry =>
    (match entry.manifest with
      | none => .ok none
      | some text => decodeManifest env text >>= fun bytes => .ok (some bytes)) >>= fun manifest =>
    .ok { manifest, blobBase64 := utf8 entry.blob, signatureHex := utf8 entry.signature }

def VlPayload.verify (env : ListEnv) (p : VlPayload) (store : ManifestStore) (now : ℕ) :
    Except FetcherError ValidatorListData × ManifestStore :=
  match decodeManifest env p.manifest with
  | .error e => (.error e,store)
  | .ok manifestBytes =>
    if p.version=1 then
      if p.blobsV2.isSome then (.error (.malformedPayload "v1 payload must not contain blobs-v2"),
        store)
      else match p.blob, p.signature with
        | none, _ => (.error (.malformedPayload "v1 payload missing blob"),store)
        | some _, none => (.error (.malformedPayload "v1 payload missing signature"),store)
        | some blob, some signature =>
          fetcherResult .ok (verifyAndParse env manifestBytes (utf8 blob) (utf8 signature) store)
    else if p.version=2 then
      if p.blob.isSome || p.signature.isSome then
        (.error (.malformedPayload "v2 payload must not contain v1 blob or signature"),store)
      else match p.blobsV2 with
        | none => (.error (.malformedPayload "v2 payload missing blobs-v2"),store)
        | some [] => (.error (.malformedPayload "v2 payload has no blobs"),store)
        | some blobs =>
          match wireBlobs env blobs with
          | .error e => (.error e,store)
          | .ok wire =>
            fetcherResult (fun bundle => match newestList bundle.active with
                | some v2 => .ok v2.base
                | none => .error .noActiveV2Blob)
              (verifyAndParseV2 env manifestBytes wire store now)
    else (.error (.unsupportedVersion p.version),store)

/-- The state of `VlFetcher::run`. -/
structure VlFetcher where
  tracker : ValidatorListTracker
  manifestStore : ManifestStore

/-- The payload of a response: the body of a request that was answered, up to a size. -/
def fetchPayload (env : ListEnv) (response : Except String Bytes) : Except FetcherError VlPayload :=
  match response with
  | .error e => .error (.http e)
  | .ok body =>
    if maxVlBody < body.length then
      .error (.http ("VL body "++toString body.length++" bytes exceeds cap "++toString maxVlBody))
    else match env.decodePayload body with
      | .error e => .error (.http ("decode JSON: "++e))
      | .ok payload => .ok payload

def VlFetcher.fetchOne (env : ListEnv) (f : VlFetcher) (response : Except String Bytes) (now : ℕ) :
    Except FetcherError ValidatorListData × VlFetcher :=
  match fetchPayload env response with
  | .error e => (.error e,f)
  | .ok payload =>
    match payload.verify env f.manifestStore now with
    | (.error e,store) => (.error e,{ f with manifestStore := store })
    | (.ok list,store) =>
      let f := { f with manifestStore := store }
      if !f.tracker.isTrustedPublisher list.publisherMasterKey then (.error .untrustedPublisher,f)
      else match f.tracker.recordSequence list.publisherMasterKey list.sequence with
        | (false,tracker) => (.error (.staleSequence list.sequence),{ f with tracker })
        | (true,tracker) => (.ok list,{ f with tracker })

/-! ## The consensus loop -/

/-- A natural number as an `f64`: the nearest one with 53 bits, ties to even. -/
def round53 (n : ℕ) : ℕ :=
  let unit := 2^(n.log2-52)
  let q := n/unit
  let r := n % unit
  if unit < 2*r ∨ (2*r=unit ∧ q % 2=1) then (q+1)*unit else q*unit

/-- `compute_quorum`: `0.8` is the `f64` with this numerator over `2^52`. -/
def computeQuorum (validatorCount : ℕ) : ℕ :=
  max ((round53 (round53 validatorCount*3602879701896397)+(2^52-1))/2^52) 1

def ValidationAggregator.updateQuorum (a : ValidationAggregator) (newQuorum : ℕ) :
    ValidationAggregator :=
  { a with minValidations := max newQuorum 1 }

/-- The settings of a node that the consensus loop reads: `configured_quorum` and `vl_dynamic`. -/
structure LoopSettings where
  configuredQuorum : Option ℕ
  vlDynamic : Bool

/-- A node with a dynamic validator list and no configured quorum. -/
def LoopSettings.dynamic : LoopSettings := ⟨none,true⟩

inductive TrustCall
  | setTrustedMasterKeys (masterKeys : List PublicKey)
  | updateQuorum (newQuorum : ℕ)
  deriving DecidableEq

def ConsensusMessage.calls (settings : LoopSettings) : ConsensusMessage → List TrustCall
  | .validatorListReceived count =>
    if settings.configuredQuorum=none ∧ 0 < count then [.updateQuorum (computeQuorum count)] else []
  | .validatorListVerified validators _ =>
    if settings.vlDynamic ∧ validators≠[] then
      .setTrustedMasterKeys validators ::
        if settings.configuredQuorum=none then [.updateQuorum (computeQuorum validators.length)]
          else []
    else []
  | .manifestApplied .. => []

/-- A node, as far as validator lists concern it. -/
structure TrustNode where
  overlay : Overlay
  fetcher : VlFetcher
  consensus : Engine
  valAggregator : ValidationAggregator

namespace TrustNode

def new (consensus : Engine) (valAggregator : ValidationAggregator) (publishers : List PublicKey) :
    TrustNode where
  overlay := ⟨.new,.new⟩
  fetcher := ⟨publishers.foldl .addTrustedPublisher .new,.new⟩
  consensus := consensus
  valAggregator := valAggregator

def trusted (n : TrustNode) : Finset NodeId := n.consensus.unl.trusted

def quorum (n : TrustNode) : ℕ := n.valAggregator.minValidations

def call (sha : Sha512Half) (n : TrustNode) : TrustCall → TrustNode
  | .setTrustedMasterKeys keys =>
    { n with consensus := n.consensus.setTrustedMasterKeys sha (keys.map (·.asBytes)) }
  | .updateQuorum q => { n with valAggregator := n.valAggregator.updateQuorum q }

def changeUnl (n : TrustNode) (f : TrustedValidatorList → TrustedValidatorList) : TrustNode :=
  { n with consensus := { n.consensus with unl := f n.consensus.unl } }

def followManifest (sha : Sha512Half) (masterKey : PublicKey)
    (ephemeralKey oldEphemeralKey : Option PublicKey)
    (revoked : Bool) (unl : TrustedValidatorList) : TrustedValidatorList :=
  if revoked then
    let unl := unl.revokeMasterKey sha masterKey.asBytes
    match ephemeralKey with
    | some eph => unl.removeEphemeralKey sha eph.asBytes
    | none => unl
  else match ephemeralKey with
    | some eph => unl.registerEphemeralKey sha masterKey.asBytes eph.asBytes
      (oldEphemeralKey.map (·.asBytes))
    | none => unl

def consume (sha : Sha512Half) (settings : LoopSettings) (n : TrustNode) (m : ConsensusMessage) :
    TrustNode :=
  match m with
  | .manifestApplied masterKey ephemeralKey oldEphemeralKey revoked =>
    if settings.vlDynamic then n.changeUnl
      (followManifest sha masterKey ephemeralKey oldEphemeralKey revoked) else n
  | m => (m.calls settings).foldl (call sha) n

end TrustNode

/-! ## Runs -/

/-- What a node meets: a message of a peer, the response of a site, and the manifests of a list that
the fetcher hands to the overlay, which takes them in its own time. -/
inductive TrustInput
  | validatorList (payload : Bytes)
  | fetched (response : Except String Bytes) (now : ℕ)
  | listManifests (manifests : List Bytes)

namespace TrustNode

/-- The messages to the consensus loop, and the node that still has to take them. -/
def handle (env : ListEnv) (n : TrustNode) : TrustInput → List ConsensusMessage × TrustNode
  | .validatorList payload =>
    match env.decodeValidatorList payload with
    | none => ([],n)
    | some vl =>
      let (messages,overlay) := n.overlay.onValidatorList env vl
      (messages,{ n with overlay })
  | .fetched response now =>
    match n.fetcher.fetchOne env response now with
    | (.error _,fetcher) => ([],{ n with fetcher })
    | (.ok list,fetcher) =>
      -- the aggregator shares the set of the fetcher if it filters by it
      let trusted := n.valAggregator.trusted.map fun _ => list.validators.toFinset
      ([.validatorListVerified list.validators list.sequence],
        { n with fetcher, valAggregator := { n.valAggregator with trusted } })
  | .listManifests manifests =>
    let (messages,store) := applyManifests env.schemes manifests n.overlay.manifestStore
    (messages,{ n with overlay := { n.overlay with manifestStore := store } })

def step (env : ListEnv) (settings : LoopSettings) (n : TrustNode) (i : TrustInput) : TrustNode :=
  (n.handle env i).1.foldl (consume env.sha settings) (n.handle env i).2

def callsAt (env : ListEnv) (settings : LoopSettings) (n : TrustNode) (i : TrustInput) :
    List TrustCall :=
  (n.handle env i).1.flatMap (·.calls settings)

end TrustNode

end Rxrpl.Consensus
