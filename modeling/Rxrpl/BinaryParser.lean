import Rxrpl.Address
import Rxrpl.AmountText
import Rxrpl.FieldDefinitions
import Rxrpl.HexText

/-!
# The binary parser

`parser.rs`, on the bytes that are left. The loops and the nested objects take fuel: each
round reads at least one byte, so a budget above the number of bytes never runs out.
-/

namespace Rxrpl.Codec

open DecimalText TokenParser

/-! ## Values without fields of their own -/

def readVlBlob : Parser Bytes := readVlLength >>= readBytes

def parseHex (n : ℕ) : Parser Json := readBytes n >>= fun bytes =>
    pure (.str (ascii (hexEncodeUpper bytes)))

def parseHashes : ℕ → Parser (List Json)
  | 0 => pure []
  | count+1 => parseHex 32 >>= fun hash => parseHashes count >>= fun hashes => pure (hash::hashes)

def parseVector256 : Parser Json :=
  readVlLength >>= fun len => parseHashes (len/32) >>= fun arr => pure (.arr arr)

def decodeCurrencyCode (bytes : Bytes) : String :=
  if bytes.length≠20 then ascii (hexEncodeUpper bytes)
  else
    let code := (bytes.drop 12).take 3
    let isStandard := (bytes.take 12).all (· == 0) && (bytes.drop 15).all (· == 0) &&
      code.all fun b => 33 ≤ b && b ≤ 126
    if isStandard && code != [0,0,0] then ascii code
    else if bytes.all (· == 0) then "XRP"
    else ascii (hexEncodeUpper bytes)

def parseCurrency : Parser Json := readBytes 20 >>= fun bytes =>
    pure (.str (decodeCurrencyCode bytes))

/-- `parse_number`, at the scale and in the mode that a thread starts with. -/
def parseNumber : Parser Json :=
  readUint 8 >>= fun m =>
  readUint 4 >>= fun e =>
  let mantissa := (m : ℤ).bmod (2^64)
  let exponent := (e : ℤ).bmod (2^32)
  if mantissa=0 then pure (.str "0")
  else
    let n := Number.new .large .toNearest (mantissa < 0) mantissa.natAbs exponent
    pure (.str (ascii n.toDecimalString))

/-- The name of a type code, or the code itself when it has none. -/
def typeName (name : Option String) (code : ℕ) : Json :=
  match name with
  | some name => .str name
  | none => .int code

/-- A type byte as `#04x` shows it. -/
def byteText (b : UInt8) : String :=
  let digit := fun d : ℕ => if d < 10 then UInt8.ofNat (48+d) else UInt8.ofNat (87+d)
  ascii [48,120,digit (b.toNat/16),digit (b.toNat % 16)]

section

variable (sha : Sha256)

def parseAddress (bytes : Bytes) : Parser String :=
  ofResult (AccountId.fromSlice bytes) >>= fun accountId => pure (encodeAccountId sha accountId)

def parseAccountId : Parser Json :=
  readVlBlob >>= fun bytes =>
  if bytes=[] then pure (.str "") else parseAddress sha bytes >>= fun address => pure (.str address)

def parseAmount : Parser Json :=
  readUint 8 >>= fun raw =>
  if raw &&& 0x8000000000000000=0 then
    let positive := raw &&& 0x4000000000000000≠0
    let amount := raw &&& 0x3FFFFFFFFFFFFFFF
    let drops : ℤ := if positive then amount else -amount
    pure (.str (ascii (intText drops)))
  else
    ofResult (decodeIouValue raw) >>= fun value =>
    readBytes 20 >>= fun currencyBytes =>
    readBytes 20 >>= fun issuerBytes =>
    let currency := decodeCurrencyCode currencyBytes
    parseAddress sha issuerBytes >>= fun issuer =>
    pure (.obj (Json.insert "issuer" (.str issuer) (Json.insert "currency" (.str currency)
      (Json.insert "value" (.str (ascii value)) []))))

/-- A member of a step, when its bit is set in the type byte. -/
def parseStepMember (typeByte bit : UInt8) (key : String) (text : Bytes → Parser String)
    (step : List (String × Json)) : Parser (List (String × Json)) :=
  if typeByte &&& bit≠0 then
    readBytes 20 >>= fun bytes => text bytes >>= fun s => pure (Json.insert key (.str s) step)
  else pure step

def parsePathStep (typeByte : UInt8) : Parser Json :=
  if typeByte &&& 0xCE≠0 then
    let shown := byteText typeByte
    throw (.unsupportedType s!"non-canonical path step type byte: {shown}")
  else
    parseStepMember typeByte 0x01 "account" (parseAddress sha) [] >>= fun step =>
    parseStepMember typeByte 0x10 "currency" (fun bytes => pure (decodeCurrencyCode bytes)) step >>=
      fun step =>
    parseStepMember typeByte 0x20 "issuer" (parseAddress sha) step >>= fun step => pure (.obj step)

/-- The paths with the one that ends here, unless it is empty. -/
def closePath (paths current : List Json) : List Json := if current.isEmpty then paths
    else paths++[.arr current]

def parsePathsetLoop : ℕ → List Json → List Json → Parser Json
  | 0, _, _ => throw .unexpectedEnd
  | fuel+1, paths, current =>
    remaining >>= fun left =>
    if left=0 then pure (.arr paths)
    else
      readUint 1 >>= fun b =>
      if b=0x00 then pure (.arr (closePath paths current))
      else if b=0xFF then parsePathsetLoop fuel (closePath paths current) []
      else parsePathStep sha (UInt8.ofNat b) >>= fun step =>
        parsePathsetLoop fuel paths (current++[step])

def parsePathset : Parser Json := remaining >>= fun left => parsePathsetLoop sha (left+1) [] []

def parseIssue : Parser Json :=
  readBytes 20 >>= fun currencyBytes =>
  let currency := decodeCurrencyCode currencyBytes
  let map := Json.insert "currency" (.str currency) []
  if currency≠"XRP" ∧ ¬currencyBytes.all (· == 0) then
    readBytes 20 >>= fun issuerBytes =>
    parseAddress sha issuerBytes >>= fun issuer =>
      pure (.obj (Json.insert "issuer" (.str issuer) map))
  else pure (.obj map)

def parseChain (door issue : String) (map : List (String × Json)) : Parser (List (String × Json)) :=
  readVlBlob >>= fun bytes =>
  parseAddress sha bytes >>= fun address =>
  parseIssue sha >>= fun value =>
    pure (Json.insert issue value (Json.insert door (.str address) map))

def parseXchainBridge : Parser Json :=
  parseChain sha "LockingChainDoor" "LockingChainIssue" [] >>= fun map =>
  parseChain sha "IssuingChainDoor" "IssuingChainIssue" map >>= fun map => pure (.obj map)

end

/-! ## Fields that are passed over -/

/-- The steps of a path set, up to its end. -/
def skipPathset : ℕ → Parser Unit
  | 0 => throw .unexpectedEnd
  | fuel+1 =>
    remaining >>= fun left =>
    if left=0 then pure ()
    else
      readUint 1 >>= fun b =>
      if b=0x00 then pure ()
      else if b=0xFF then skipPathset fuel
      else
        let skip := fun bit : UInt8 => if UInt8.ofNat b &&& bit≠0 then discard (readBytes 20)
          else pure ()
        skip 0x01 >>= fun _ => skip 0x10 >>= fun _ => skip 0x20 >>= fun _ => skipPathset fuel

/-- `skip_field`, from the two loops over an object and an array. -/
def skipField (object array : Parser Unit) (typeCode : ℤ) : Parser Unit :=
  match typeCode with
  | 1 => discard (readBytes 2)
  | 2 => discard (readBytes 4)
  | 3 => discard (readBytes 8)
  | 10 => discard (readBytes 4)
  | 4 => discard (readBytes 16)
  | 5 | 29 => discard (readBytes 32)
  | 6 => readUint 8 >>= fun raw => if raw &&& 0x8000000000000000≠0 then discard (readBytes 40)
    else pure ()
  | 7 | 8 | 19 => discard readVlBlob
  | 9 => discard (readBytes 12)
  | 14 => object
  | 15 => array
  | 16 => discard (readBytes 1)
  | 17 | 20 => discard (readBytes 20)
  | 18 => remaining >>= fun left => skipPathset (left+1)
  | 21 | 22 => discard (readBytes 24)
  | 23 => discard (readBytes 28)
  | 24 | 26 =>
    readBytes 20 >>= fun currencyBytes =>
    if ¬currencyBytes.all (· == 0) ∧ typeCode=24 then discard (readBytes 20) else pure ()
  | 25 => object
  | 27 => discard (readBytes 48)
  | 28 => discard (readBytes 64)
  | 30 => discard (readBytes 12)
  | _ => throw (.unsupportedType s!"cannot skip unknown type_code={typeCode}")

mutual

def skipObject : ℕ → Parser Unit
  | 0 => throw .unexpectedEnd
  | fuel+1 =>
    remaining >>= fun left =>
    if left=0 then pure ()
    else
      decodeFieldId >>= fun id =>
      if id=(14,1) then pure ()
      else skipField (skipObject fuel) (skipArray fuel) id.1 >>= fun _ => skipObject fuel

def skipArray : ℕ → Parser Unit
  | 0 => throw .unexpectedEnd
  | fuel+1 =>
    remaining >>= fun left =>
    if left=0 then pure ()
    else
      decodeFieldId >>= fun id =>
      if id=(15,1) then pure () else skipObject fuel >>= fun _ => skipArray fuel

end

/-! ## Objects and arrays -/

section

variable (sha : Sha256) (order : HashMap.IterOrder)

/-- `parse_field_value`, from the two loops over an object and an array. -/
def parseFieldValue (object array : Parser Json) (d : FieldDef) : Parser Json :=
  match d.fieldType with
  | .uint8 => readUint 1 >>= fun v => pure (.int v)
  | .uint16 =>
    readUint 2 >>= fun v =>
    if d.name="TransactionType" then pure (typeName (getTransactionTypeName order v) v)
    else if d.name="LedgerEntryType" then pure (typeName (getLedgerEntryTypeName order v) v)
    else pure (.int v)
  | .uint32 => readUint 4 >>= fun v => pure (.int v)
  | .int32 => readUint 4 >>= fun v => pure (.int ((v : ℤ).bmod (2^32)))
  | .uint64 =>
    readUint 8 >>= fun v =>
    if isDecimalUint64 d.name then pure (.str (ascii (natText v)))
      else pure (.str (ascii (hexWord v)))
  | .hash128 => parseHex 16
  | .hash160 => parseHex 20
  | .hash192 => parseHex 24
  | .hash256 => parseHex 32
  | .amount => parseAmount sha
  | .blob => readVlBlob >>= fun bytes => pure (.str (ascii (hexEncodeUpper bytes)))
  | .accountId => parseAccountId sha
  | .stObject => object
  | .stArray => array
  | .vector256 => parseVector256
  | .pathSet => parsePathset sha
  | .issue => parseIssue sha
  | .currency => parseCurrency
  | .xchainBridge => parseXchainBridge sha
  | .number => parseNumber
  | .uint96 => parseHex 12
  | .uint160 => parseHex 20
  | .uint192 => parseHex 24
  | .uint224 => parseHex 28
  | .uint256 => parseHex 32
  | .uint384 => parseHex 48
  | .uint512 => parseHex 64
  | other =>
    let name := other.name
    throw (.unsupportedType s!"unsupported field type: {name}")

mutual

/-- `parse_object`, with the members that have been read. -/
def parseObject : ℕ → List (String × Json) → Parser Json
  | 0, _ => throw .unexpectedEnd
  | fuel+1, map =>
    remaining >>= fun left =>
    if left=0 then pure (.obj map)
    else
      decodeFieldId >>= fun id =>
      if id=(14,1) then pure (.obj map)
      else if id=(15,1) then pure (.obj map)
      else
        match getFieldByHeader id.1 id.2 with
        | none =>
          skipField (skipObject fuel) (skipArray fuel) id.1 >>= fun _ => parseObject fuel map
        | some d =>
          parseFieldValue sha order (parseObject fuel []) (parseArray fuel []) d >>= fun value =>
          parseObject fuel (Json.insert d.name value map)

/-- `parse_array`, with the items that have been read. -/
def parseArray : ℕ → List Json → Parser Json
  | 0, _ => throw .unexpectedEnd
  | fuel+1, arr =>
    remaining >>= fun left =>
    if left=0 then pure (.arr arr)
    else
      decodeFieldId >>= fun id =>
      if id=(15,1) then pure (.arr arr)
      else
        match getFieldByHeader id.1 id.2 with
        | none => skipObject fuel >>= fun _ => parseArray fuel arr
        | some d =>
          parseObject fuel [] >>= fun inner =>
            parseArray fuel (arr++[.obj (Json.insert d.name inner [])])

end

def decode (bytes : Bytes) : Except CodecError Json :=
  match parseObject sha order (bytes.length+1) [] bytes with
  | .ok (json,_) => .ok json
  | .error e => .error e

end

end Rxrpl.Codec
