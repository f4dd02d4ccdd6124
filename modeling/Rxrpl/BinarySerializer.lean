import Rxrpl.Address
import Rxrpl.AmountText
import Rxrpl.FieldDefinitions
import Rxrpl.HexText

/-!
# The binary serialiser

`serializer.rs`: the bytes that each method appends to the buffer. A cast to a narrower
integer is the remainder that it leaves.
-/

namespace Rxrpl.Codec

open DecimalText

/-- `ok_or_else` with an unsupported type. -/
def expect {α : Type} (message : String) : Option α → Except CodecError α
  | some a => .ok a
  | none => .error (.unsupportedType message)

/-- `hex::decode` of a text. -/
def decodeHex (s : String) : Except CodecError Bytes :=
  match hexDecode (utf8 s) with
  | .ok bs => .ok bs
  | .error e => .error (.hex e)

/-! ## Values without fields of their own -/

variable (value : Json)

def serializeUint8 : Except CodecError Bytes :=
  expect "expected u8 integer" value.asU64 >>= fun v => .ok (toBeBytes 1 (v % 2^8))

/-- The code of a type name, as a `u16`. -/
def serializeTypeCode (s : String) : Option ℤ → Except CodecError Bytes
  | some code => .ok (toBeBytes 2 (code % 2^16).toNat)
  | none => .error (.unknownField s)

def serializeUint16 (d : FieldDef) (value : Json) : Except CodecError Bytes :=
  match value.asStr with
  | some s =>
    if d.name="TransactionType" then serializeTypeCode s (getTransactionTypeCode s)
    else if d.name="LedgerEntryType" then serializeTypeCode s (getLedgerEntryTypeCode s)
    else .error (.unsupportedType "expected u16")
  | none => expect "expected u16 integer" value.asU64 >>= fun v => .ok (toBeBytes 2 (v % 2^16))

def serializeUint32 (d : FieldDef) (value : Json) : Except CodecError Bytes :=
  match value.asStr with
  | some s =>
    if d.name="PermissionValue" then
      match resolvePermissionValue s with
      | some v => .ok (toBeBytes 4 v)
      | none => .error (.unknownField s)
    else expect "expected u32 integer" (parseUnsigned 32 10 (utf8 s)) >>= fun v =>
      .ok (toBeBytes 4 v)
  | none => expect "expected u32 integer" value.asU64 >>= fun v => .ok (toBeBytes 4 (v % 2^32))

def serializeInt32 : Except CodecError Bytes :=
  expect "expected i32 integer" value.asI64 >>= fun v => .ok (toBeBytes 4 (v % 2^32).toNat)

def serializeUint64 (d : FieldDef) (value : Json) : Except CodecError Bytes :=
  let radix := if isDecimalUint64 d.name then 10 else 16
  match value.asStr with
  | some s => expect "invalid u64 string" (parseUnsigned 64 radix (utf8 s)) >>= fun v =>
    .ok (toBeBytes 8 v)
  | none => expect "expected u64" value.asU64 >>= fun v => .ok (toBeBytes 8 v)

/-- Bytes of a fixed number, as in `serialize_hash`. -/
def exactly (len : ℕ) (bytes : Bytes) : Except CodecError Bytes :=
  if bytes.length≠len then .error (.invalidLength len bytes.length) else .ok bytes

def serializeHash (len : ℕ) : Except CodecError Bytes :=
  expect "expected hex string for hash" value.asStr >>= fun s => decodeHex s >>= exactly len

def serializeCurrencyCode (currency : String) : Except CodecError Bytes :=
  if currency="XRP" then .ok (List.replicate 20 0)
  else if (utf8 currency).length=3 then
    .ok (List.replicate 12 0++utf8 currency++List.replicate 5 0)
  else if (utf8 currency).length=40 then decodeHex currency
  else .error (.unsupportedType s!"invalid currency code: {currency}")

def serializeCurrency : Except CodecError Bytes :=
  expect "expected string for Currency" value.asStr >>= serializeCurrencyCode

def serializeBlob : Except CodecError Bytes :=
  expect "expected hex string for blob" value.asStr >>= fun s =>
  decodeHex s >>= fun bytes => .ok (writeVlLength bytes.length++bytes)

def serializeVectorItem (item : Json) : Except CodecError Bytes :=
  expect "expected hex string in Vector256" item.asStr >>= fun s => decodeHex s >>= exactly 32

def serializeVector256 : Except CodecError Bytes :=
  expect "expected array for Vector256" value.asArray >>= fun arr =>
  arr.mapM serializeVectorItem >>= fun items => .ok (writeVlLength (arr.length*32)++items.flatten)

/-- The word of an amount in drops; the sign of the smallest `i64` cannot be changed. -/
def dropsWord (drops : ℤ) : ℕ :=
  if drops ≥ 0 then drops.toNat ||| 0x4000000000000000
  else ((-drops) % 2^64).toNat &&& 0xBFFFFFFFFFFFFFFF

/-- An `i64` after a wrapping operation. -/
def wrapI64 (x : ℤ) : ℤ := x.bmod (2^64)

/-- `serialize_number`, at the scale and in the mode that a thread starts with. -/
def serializeNumber : Except CodecError Bytes :=
  expect "expected string for Number" value.asStr >>= fun s =>
  match IOUAmount.fromDecimalString s with
  | .error _ => .error (.unsupportedType "invalid Number value")
  | .ok iou =>
    if iou.isZero then .ok (toBeBytes 8 0++toBeBytes 4 0)
    else
      let n := Number.fromIou .large .toNearest iou
      let m := wrapI64 n.mantissa
      let mantissa := if n.negative then wrapI64 (-m) else m
      .ok (toBeBytes 8 (mantissa % 2^64).toNat++toBeBytes 4 (n.exponent % 2^32).toNat)

section

variable (sha : Sha256)

def serializeAccountIdRaw (account : String) : Except CodecError Bytes :=
  if (utf8 account).length=40 then decodeHex account
  else decodeAccountId sha account >>= fun accountId => .ok accountId.asBytes

def serializeAccountId (value : Json) : Except CodecError Bytes :=
  expect "expected string for AccountID" value.asStr >>= fun s =>
  if s="" then .ok (writeVlLength 0)
  else serializeAccountIdRaw sha s >>= fun bytes => .ok (writeVlLength bytes.length++bytes)

def memberStr (key : String) (obj : List (String × Json)) : Option String :=
    (Json.find key obj).bind Json.asStr

def serializeAmount (value : Json) : Except CodecError Bytes :=
  match value with
  | .str s =>
    expect "invalid XRP drops amount" (parseI64 (utf8 s)) >>= fun drops =>
      .ok (toBeBytes 8 (dropsWord drops))
  | .obj obj =>
    expect "IOU amount missing value" (memberStr "value" obj) >>= fun value =>
    expect "IOU amount missing currency" (memberStr "currency" obj) >>= fun currency =>
    expect "IOU amount missing issuer" (memberStr "issuer" obj) >>= fun issuer =>
    serializeIouValue value >>= fun word =>
    serializeCurrencyCode currency >>= fun code =>
    serializeAccountIdRaw sha issuer >>= fun account => .ok (word++code++account)
  | _ => .error (.unsupportedType "amount must be string or object")

/-- What is written for a member that may be missing. -/
def serializeOptional (serialize : String → Except CodecError Bytes) : Option String →
    Except CodecError Bytes
  | some s => serialize s
  | none => .ok []

def stepType (account currency issuer : Bool) : UInt8 :=
  (if account then 0x01 else 0) ||| (if currency then 0x10 else 0) ||| (if issuer then 0x20 else 0)

def serializePathStep (step : Json) : Except CodecError Bytes :=
  expect "expected object for path step" step.asObject >>= fun obj =>
  let typeByte := stepType (Json.find "account" obj).isSome (Json.find "currency" obj).isSome
    (Json.find "issuer" obj).isSome
  serializeOptional (serializeAccountIdRaw sha) (memberStr "account" obj) >>= fun account =>
  serializeOptional serializeCurrencyCode (memberStr "currency" obj) >>= fun currency =>
  serializeOptional (serializeAccountIdRaw sha) (memberStr "issuer" obj) >>= fun issuer =>
  .ok (typeByte::(account++currency++issuer))

def serializePath (path : Json) : Except CodecError Bytes :=
  expect "expected array for path" path.asArray >>= fun steps =>
  steps.mapM (serializePathStep sha) >>= fun bs => .ok bs.flatten

def serializePaths : List Json → Except CodecError Bytes
  | [] => .ok []
  | path::paths =>
    serializePath sha path >>= fun bs =>
    serializePaths paths >>= fun rest => .ok (bs++(if paths.isEmpty then [] else [0xFF])++rest)

def serializePathset (value : Json) : Except CodecError Bytes :=
  expect "expected array for PathSet" value.asArray >>= fun paths =>
  serializePaths sha paths >>= fun bs => .ok (bs++[0x00])

def serializeIssue (value : Json) : Except CodecError Bytes :=
  expect "expected object for Issue" value.asObject >>= fun obj =>
  expect "Issue missing currency" (memberStr "currency" obj) >>= fun currency =>
  serializeCurrencyCode currency >>= fun code =>
  if currency="XRP" then .ok code
  else serializeOptional (serializeAccountIdRaw sha) (memberStr "issuer" obj) >>= fun issuer =>
    .ok (code++issuer)

def serializeChain (obj : List (String × Json)) (door issue : String) : Except CodecError Bytes :=
  expect s!"XChainBridge missing {door}" (Json.find door obj) >>= fun d =>
  serializeAccountId sha d >>= fun account =>
  expect s!"XChainBridge missing {issue}" (Json.find issue obj) >>= fun i =>
  serializeIssue sha i >>= fun bs => .ok (account++bs)

def serializeXchainBridge (value : Json) : Except CodecError Bytes :=
  expect "expected object for XChainBridge" value.asObject >>= fun obj =>
  serializeChain sha obj "LockingChainDoor" "LockingChainIssue" >>= fun locking =>
  serializeChain sha obj "IssuingChainDoor" "IssuingChainIssue" >>= fun issuing =>
    .ok (locking++issuing)

/-- `serialize_field` for the types that hold no fields. -/
def serializeLeaf (d : FieldDef) (value : Json) : Except CodecError Bytes :=
  match d.fieldType with
  | .uint8 => serializeUint8 value
  | .uint16 => serializeUint16 d value
  | .uint32 => serializeUint32 d value
  | .int32 => serializeInt32 value
  | .uint64 => serializeUint64 d value
  | .hash128 => serializeHash value 16
  | .hash160 => serializeHash value 20
  | .hash192 => serializeHash value 24
  | .hash256 => serializeHash value 32
  | .amount => serializeAmount sha value
  | .blob => serializeBlob value
  | .accountId => serializeAccountId sha value
  | .vector256 => serializeVector256 value
  | .pathSet => serializePathset sha value
  | .issue => serializeIssue sha value
  | .currency => serializeCurrency value
  | .xchainBridge => serializeXchainBridge sha value
  | .number => serializeNumber value
  | other =>
    let name := other.name
    .error (.unsupportedType s!"unsupported field type: {name}")

/-! ## Objects and arrays -/

/-- The order of `sort_fields_canonical`: known fields by their codes, then the others by name. -/
def canonicalLE (a b : String) : Bool :=
  match getField a, getField b with
  | some a, some b => a.typeCode < b.typeCode || (a.typeCode == b.typeCode && a.nth ≤ b.nth)
  | some _, none => true
  | none, some _ => false
  | none, none => a ≤ b

def shouldSerialize (d : FieldDef) (includeAll : Bool) : Bool :=
    d.isSerialized && (includeAll || d.isSigningField)

def objectEnd : Bytes := encodeFieldId 14 1

def arrayEnd : Bytes := encodeFieldId 15 1

/-- The bytes of the members, in canonical order. -/
def assemble (members : List (String × Except CodecError Bytes)) : Except CodecError Bytes :=
  (members.insertionSort fun m m' => canonicalLE m.1 m'.1).mapM (·.2) >>= fun bs => .ok bs.flatten

mutual

/-- `serialize_field`, behind the identifier of the field. -/
def serializeValue (d : FieldDef) : Json → Except CodecError Bytes
  | .obj members =>
    match d.fieldType with
    | .stObject => assemble (serializeMembers true members) >>= fun bs => .ok (bs++objectEnd)
    | .stArray => .error (.unsupportedType "expected JSON array")
    | _ => serializeLeaf sha d (.obj members)
  | .arr items =>
    match d.fieldType with
    | .stObject => .error (.unsupportedType "expected JSON object")
    | .stArray => serializeItems items >>= fun bs => .ok (bs++arrayEnd)
    | _ => serializeLeaf sha d (.arr items)
  | value =>
    match d.fieldType with
    | .stObject => .error (.unsupportedType "expected JSON object")
    | .stArray => .error (.unsupportedType "expected JSON array")
    | _ => serializeLeaf sha d value

/-- What each member of an object gives; unknown fields and those left out give nothing. -/
def serializeMembers (includeAll : Bool) : List (String × Json) →
    List (String × Except CodecError Bytes)
  | [] => []
  | (name,value)::members =>
    (name,match getField name with
      | none => .ok []
      | some d =>
        if shouldSerialize d includeAll then
          serializeValue d value >>= fun bs => .ok (encodeFieldId d.typeCode d.nth++bs)
        else .ok [])::serializeMembers includeAll members

/-- `serialize_array`, up to its end marker; an item that is no object is passed over. -/
def serializeItems : List Json → Except CodecError Bytes
  | [] => .ok []
  | .obj members::items =>
    serializeWrapper members >>= fun bs => serializeItems items >>= fun rest => .ok (bs++rest)
  | _::items => serializeItems items

def serializeWrapper : List (String × Json) → Except CodecError Bytes
  | [] => .ok []
  | (key,value)::members =>
    (match getField key with
      | some d => serializeObject true value >>= fun bs =>
        .ok (encodeFieldId d.typeCode d.nth++bs++objectEnd)
      | none => .ok []) >>= fun bs =>
    serializeWrapper members >>= fun rest => .ok (bs++rest)

def serializeObject (includeAll : Bool) : Json → Except CodecError Bytes
  | .obj members => assemble (serializeMembers includeAll members)
  | _ => .error (.unsupportedType "expected JSON object")

end

def encode (json : Json) : Except CodecError Bytes := serializeObject sha true json

end

end Rxrpl.Codec
