import Rxrpl.ValidationAggregator
import Rxrpl.Wire

/-!
# Manifests

A manifest binds the master key of a validator, or of the publisher of a validator list, to an
ephemeral key. `parseAndVerify` reads its fields and checks both signatures, and the store keeps the
newest manifest of each master key. The two signature schemes are parameters.
-/

namespace Rxrpl.Consensus

open Codec (fromBeBytes)

/-- The `verify` functions of the two signature schemes, on a message, a key and a signature. -/
structure SignatureSchemes where
  ed25519Verify : Bytes → Bytes → Bytes → Bool
  secp256k1Verify : Bytes → Bytes → Bytes → Bool

/-- `verify_signature`, and `verify_blob_signature`: the first byte of the key names its scheme. -/
def SignatureSchemes.verify (schemes : SignatureSchemes) (message publicKey signature : Bytes) :
    Bool :=
  if publicKey.head?=some 0xED then schemes.ed25519Verify message publicKey signature
  else schemes.secp256k1Verify message publicKey signature

/-! ## Fields of a serialized object -/

/-- `stobject::decode_field_id`: the type, the field and the length of the header. -/
def decodeFieldHeader : Bytes → Option (ℕ × ℕ × ℕ)
  | [] => none
  | b::rest =>
    match b.toNat/16, b.toNat % 16 with
    | 0, 0 =>
      match rest with
      | t::f::_ => some (t.toNat,f.toNat,3)
      | _ => none
    | 0, f => rest.head?.map fun t => (t.toNat,f,2)
    | t, 0 => rest.head?.map fun f => (t,f.toNat,2)
    | t, f => some (t,f,1)

/-- `stobject::decode_vl_length`: the length, and that of its encoding. -/
def decodeVlLength : Bytes → Option (ℕ × ℕ)
  | [] => none
  | b::rest =>
    if b.toNat ≤ 192 then some (b.toNat,1)
    else if b.toNat ≤ 240 then rest.head?.map fun c => (193+(b.toNat-193)*256+c.toNat,2)
    else if b.toNat ≤ 254 then
      match rest with
      | c::d::_ => some (12481+(b.toNat-241)*65536+c.toNat*256+d.toNat,3)
      | _ => none
    else none

/-! ## Manifests -/

inductive ManifestError
  | truncated
  | missingField (field : String)
  | invalidKeyLength
  | ephemeralSigInvalid
  | masterSigInvalid
  | invalidDomain
  deriving DecidableEq

def manifestRevokedSeq : ℕ := u32Max

structure Manifest where
  sequence : ℕ
  masterPublicKey : PublicKey
  ephemeralPublicKey : Option PublicKey
  domain : Option String
  raw : Bytes
  deriving DecidableEq

def Manifest.isRevoked (m : Manifest) : Bool := decide (m.sequence=manifestRevokedSeq)

/-- The fields of a manifest that have been read, and the bytes of those that are signed. -/
structure ManifestFields where
  sequence : Option ℕ := none
  masterPublicKey : Option Bytes := none
  ephemeralPublicKey : Option Bytes := none
  signature : Option Bytes := none
  masterSignature : Option Bytes := none
  domain : Option String := none
  signed : Bytes := []

namespace ManifestFields

/-- A field that both signatures cover. -/
def sign (f : ManifestFields) (bytes : Bytes) : ManifestFields :=
    { f with signed := f.signed++bytes }

/-- A value of fixed size: its bytes, and those after it. -/
def takeValue (n : ℕ) (data : Bytes) : Except ManifestError (Bytes × Bytes) :=
  if data.length < n then .error .truncated else .ok (data.take n,data.drop n)

/-- A value with its length before it: the encoded length, the value, and the bytes after it. -/
def takeBlob (data : Bytes) : Except ManifestError (Bytes × Bytes × Bytes) :=
  match decodeVlLength data with
  | none => .error .truncated
  | some (len,consumed) =>
    takeValue len (data.drop consumed) >>= fun (value,rest) =>
      .ok (data.take consumed,value,rest)

/-- A blob field. Neither signature covers the two signatures themselves. -/
def readBlob (f : ManifestFields) (fieldId : ℕ) (value bytes : Bytes) :
    Except ManifestError ManifestFields :=
  match fieldId with
  | 1 => .ok ({ f with masterPublicKey := some value }.sign bytes)
  | 3 => .ok ({ f with ephemeralPublicKey := some value }.sign bytes)
  | 18 => .ok { f with masterSignature := some value }
  | 6 => .ok { f with signature := some value }
  | 7 =>
    match String.fromUTF8? ⟨value.toArray⟩ with
    | none => .error .invalidDomain
    | some domain => .ok ({ f with domain := some domain }.sign bytes)
  | _ => .ok (f.sign bytes)

/-- One field, whose header has been taken off the data, and the bytes after it. A type that the
reader does not know has no value that it could skip. -/
def readField (f : ManifestFields) (typeId fieldId : ℕ) (header data : Bytes) :
    Except ManifestError (Option (ManifestFields × Bytes)) :=
  let fixed (n : ℕ) : Except ManifestError (Option (ManifestFields × Bytes)) :=
    takeValue n data >>= fun (value,rest) => .ok (some (f.sign (header++value),rest))
  match typeId with
  | 2 =>
    if fieldId=4 then
      takeValue 4 data >>= fun (value,rest) =>
      .ok (some ({ f with sequence := some (fromBeBytes value) }.sign (header++value),rest))
    else fixed 4
  | 3 => fixed 8
  | 5 => fixed 32
  | 7 =>
    takeBlob data >>= fun (len,value,rest) =>
    f.readBlob fieldId value (header++len++value) >>= fun f' => .ok (some (f',rest))
  | _ => .ok none

/-- The loop of `parse_raw`. Each field takes a byte at least, so that the fuel does not run out
before the data. -/
def readAll : ℕ → ManifestFields → Bytes → Except ManifestError ManifestFields
  | 0, f, _ => .ok f
  | fuel+1, f, data =>
    match decodeFieldHeader data with
    | none => .ok f
    | some (typeId,fieldId,consumed) =>
      f.readField typeId fieldId (data.take consumed) (data.drop consumed) >>= fun
        | none => .ok f
        | some (f',rest) => readAll fuel f' rest

end ManifestFields

structure RawManifest where
  sequence : ℕ
  masterPublicKey : Bytes
  ephemeralPublicKey : Bytes
  signature : Bytes
  masterSignature : Bytes
  domain : Option String
  signingData : Bytes

/-- `HashPrefix::MANIFEST`. -/
def manifestHashPrefixBytes : Bytes := [0x4D,0x41,0x4E,0x00]

def required {α : Type} (field : String) (value : Option α) : Except ManifestError α :=
  match value with
  | some a => .ok a
  | none => .error (.missingField field)

def parseRaw (data : Bytes) : Except ManifestError RawManifest :=
  ManifestFields.readAll data.length {} data >>= fun f =>
  required "sfSequence" f.sequence >>= fun sequence =>
  required "sfPublicKey" f.masterPublicKey >>= fun masterPublicKey =>
  required "sfMasterSignature" f.masterSignature >>= fun masterSignature =>
  .ok { sequence, masterPublicKey, masterSignature
        ephemeralPublicKey := f.ephemeralPublicKey.getD []
        signature := f.signature.getD []
        domain := f.domain
        signingData := manifestHashPrefixBytes++f.signed }

/-- `PublicKey::from_slice`, with the error of a manifest. -/
def keyOfSlice (bs : Bytes) : Except ManifestError PublicKey :=
  match PublicKey.fromSlice bs with
  | some pk => .ok pk
  | none => .error .invalidKeyLength

/-- The ephemeral key of a manifest, which has signed it unless the manifest revokes the master key.
-/
def verifyEphemeral (schemes : SignatureSchemes) (raw : RawManifest) :
    Except ManifestError (Option PublicKey) :=
  if raw.sequence=manifestRevokedSeq then .ok none
  else if raw.ephemeralPublicKey=[] then .error (.missingField "sfSigningPubKey")
  else if raw.signature=[] then .error (.missingField "sfSignature")
  else if !schemes.verify raw.signingData raw.ephemeralPublicKey raw.signature then
    .error .ephemeralSigInvalid
  else keyOfSlice raw.ephemeralPublicKey >>= fun pk => .ok (some pk)

def parseAndVerify (schemes : SignatureSchemes) (data : Bytes) : Except ManifestError Manifest :=
  parseRaw data >>= fun raw =>
  if !schemes.verify raw.signingData raw.masterPublicKey raw.masterSignature then
    .error .masterSigInvalid
  else
    verifyEphemeral schemes raw >>= fun ephemeralPublicKey =>
    keyOfSlice raw.masterPublicKey >>= fun masterPublicKey =>
    .ok { sequence := raw.sequence, masterPublicKey, ephemeralPublicKey, domain :=
      raw.domain, raw := data }

/-! ## The store -/

/-- The manifests by master key. The source keys its maps by the hexadecimal text of a key. -/
structure ManifestStore where
  manifests : HashMap PublicKey Manifest
  ephemeralToMaster : HashMap PublicKey PublicKey
  revoked : Finset PublicKey

namespace ManifestStore

def new : ManifestStore := ⟨∅,∅,∅⟩

variable (store : ManifestStore)

def isRevoked (masterPk : PublicKey) : Bool :=
    decide (masterPk∈store.revoked)

def currentEphemeralKey (masterPk : PublicKey) : Option PublicKey :=
  (store.manifests.lookup masterPk).bind (·.ephemeralPublicKey)

def masterKeyForEphemeral (ephemeralPk : PublicKey) : Option PublicKey :=
  store.ephemeralToMaster.lookup ephemeralPk

def getManifest (masterPk : PublicKey) : Option Manifest :=
    store.manifests.lookup masterPk

/-- The mapping of the ephemeral key that a master key has is taken out. -/
def forgetEphemeral (masterPk : PublicKey) : ManifestStore :=
  match store.currentEphemeralKey masterPk with
  | some old => { store with ephemeralToMaster := store.ephemeralToMaster.erase old }
  | none => store

/-- `apply`: whether the manifest was accepted. -/
def apply (m : Manifest) : Bool × ManifestStore :=
  let master := m.masterPublicKey
  if store.isRevoked master then (false,store)
  else if (store.manifests.lookup master).any fun existing =>
    decide (m.sequence ≤ existing.sequence) then (false,store)
  else
    let store := store.forgetEphemeral master
    if m.isRevoked then
      (true,{ store with revoked := insert master store.revoked, manifests :=
        store.manifests.insert master m })
    else
      let ephemeralToMaster := match m.ephemeralPublicKey with
        | some eph => store.ephemeralToMaster.insert eph master
        | none => store.ephemeralToMaster
      (true,{ store with ephemeralToMaster, manifests := store.manifests.insert master m })

end ManifestStore

end Rxrpl.Consensus
