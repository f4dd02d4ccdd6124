import Rxrpl.Address
import Rxrpl.FieldDefinitions
import Rxrpl.HexText
import Rxrpl.IOUAmount

/-!
# What a JSON object says

The value of a field, whatever its spelling: integers of any size, byte strings, accounts,
exact rational amounts, and objects and arrays of them. `readObject` reads it off the JSON
and gives nothing when the text is no value of the field's type, a field is unknown or a
member would be lost. `Value.Within` says which values have a wire form.
-/

namespace Rxrpl.Codec

open DecimalText

/-! ## Values -/

structure CurrencyCode where
  asBytes : Bytes
  length_asBytes : asBytes.length=20
deriving DecidableEq

namespace CurrencyCode

def xrp : CurrencyCode := ⟨List.replicate 20 0,rfl⟩

def ofLetters (s : Bytes) (h : s.length=3) : CurrencyCode :=
  ⟨List.replicate 12 0++s++List.replicate 5 0,by simp [h]⟩

def xrpLetters : CurrencyCode := ofLetters [88,82,80] rfl

end CurrencyCode

inductive Asset
  | xrp
  | issued (code : CurrencyCode) (hcode : code≠.xrp) (issuer : AccountId)
deriving DecidableEq

structure PathStep where
  account : Option AccountId
  currency : Option CurrencyCode
  issuer : Option AccountId
  nonempty : account.isSome ∨ currency.isSome ∨ issuer.isSome
deriving DecidableEq

/-- The ends of a bridge; a door may be the unset account. -/
structure Bridge where
  lockingDoor : Option AccountId
  lockingIssue : Asset
  issuingDoor : Option AccountId
  issuingIssue : Asset
deriving DecidableEq

/-- A value without fields of its own. -/
inductive Leaf
  | int (n : ℤ)
  | bytes (bs : Bytes)
  | account (a : Option AccountId)
  | drops (n : ℤ)
  | iou (q : ℚ) (code : CurrencyCode) (issuer : AccountId)
  | hashes (hs : List Bytes)
  | paths (ps : List (List PathStep))
  | issue (a : Asset)
  | currency (code : CurrencyCode)
  | bridge (b : Bridge)
  | number (q : ℚ)
deriving DecidableEq

inductive Value
  | leaf (l : Leaf)
  | object (members : List (FieldDef × Value))
  | array (items : List (FieldDef × Value))

/-! ## Reading JSON -/

def readHex (s : String) : Option Bytes := (hexDecode (utf8 s)).toOption

def readHash (width : ℕ) (s : String) : Option Bytes := (readHex s).filter (·.length=width)

/-- A currency: `XRP`, three bytes or forty hexadecimal digits. -/
def readCurrency (s : String) : Option CurrencyCode :=
  if s="XRP" then some .xrp
  else if h : (utf8 s).length=3 then some (.ofLetters (utf8 s) h)
  else if (utf8 s).length=40 then
    (readHex s).bind fun bs => if h : bs.length=20 then some ⟨bs,h⟩ else none
  else none

section

variable (sha : Sha256)

def readAccount (s : String) : Option AccountId :=
  if (utf8 s).length=40 then (readHex s).bind fun bs => (AccountId.fromSlice bs).toOption
  else (decodeAccountId sha s).toOption

def readDoor (s : String) : Option (Option AccountId) := if s="" then some none
    else (readAccount sha s).map some

def readAmount : Json → Option Leaf
  | .str s => (readInt (utf8 s)).map .drops
  | .obj [(k,.str currency),(k',.str issuer),(k'',.str value)] =>
    if k="currency" ∧ k'="issuer" ∧ k''="value" then
      (read (utf8 value)).bind fun q =>
      (readCurrency currency).bind fun code => (readAccount sha issuer).map fun account =>
        .iou q code account
    else none
  | _ => none

def readIssue : Json → Option Asset
  | .obj [(k,.str currency)] =>
    if k="currency" then (readCurrency currency).bind fun code => if code=.xrp then some .xrp
      else none
    else none
  | .obj [(k,.str currency),(k',.str issuer)] =>
    if k="currency" ∧ k'="issuer" then
      (readCurrency currency).bind fun code =>
      (readAccount sha issuer).bind fun account =>
      if h : code=.xrp then none else some (.issued code h account)
    else none
  | _ => none

def readPart {α : Type} (readText : String → Option α) : Option Json → Option (Option α)
  | none => some none
  | some (.str s) => (readText s).map some
  | some _ => none

def readStep : Json → Option PathStep
  | .obj members =>
    if members.all fun m => m.1 == "account" || m.1 == "currency" || m.1 == "issuer" then
      (readPart (readAccount sha) (Json.find "account" members)).bind fun account =>
      (readPart readCurrency (Json.find "currency" members)).bind fun currency =>
      (readPart (readAccount sha) (Json.find "issuer" members)).bind fun issuer =>
      if h : account.isSome ∨ currency.isSome ∨
        issuer.isSome then some ⟨account,currency,issuer,h⟩ else none
    else none
  | _ => none

def readPath : Json → Option (List PathStep)
  | .arr steps => steps.mapM (readStep sha)
  | _ => none

def readBridge : Json → Option Bridge
  | .obj [(k₁,.str issuingDoor),(k₂,issuingIssue),(k₃,.str lockingDoor),(k₄,lockingIssue)] =>
    if k₁="IssuingChainDoor" ∧ k₂="IssuingChainIssue" ∧ k₃="LockingChainDoor" ∧
      k₄="LockingChainIssue" then
      (readDoor sha lockingDoor).bind fun lockingDoor =>
      (readIssue sha lockingIssue).bind fun lockingIssue =>
      (readDoor sha issuingDoor).bind fun issuingDoor =>
      (readIssue sha issuingIssue).map fun issuingIssue =>
        ⟨lockingDoor,lockingIssue,issuingDoor,issuingIssue⟩
    else none
  | _ => none

/-- A number, or a text of it. -/
def readUnsigned (readText : String → Option ℤ) : Json → Option ℤ
  | .int n => some n
  | .str s => readText s
  | _ => none

/-- The names that stand for a number, by the field. -/
def readName (d : FieldDef) (s : String) : Option ℤ :=
  match d.fieldType with
  | .uint16 =>
    if d.name="TransactionType" then getTransactionTypeCode s
    else if d.name="LedgerEntryType" then getLedgerEntryTypeCode s
    else none
  | .uint32 =>
    if d.name="PermissionValue" then (resolvePermissionValue s).map Nat.cast
    else (readRadix 10 (utf8 s)).map Nat.cast
  | .uint64 => (readRadix (if isDecimalUint64 d.name then 10 else 16) (utf8 s)).map Nat.cast
  | _ => none

def readLeaf (d : FieldDef) (j : Json) : Option Leaf :=
  match d.fieldType with
  | .uint8 | .uint16 | .uint32 | .int32 | .uint64 => (readUnsigned (readName d) j).map .int
  | .hash128 => (j.asStr.bind (readHash 16)).map .bytes
  | .hash160 => (j.asStr.bind (readHash 20)).map .bytes
  | .hash192 => (j.asStr.bind (readHash 24)).map .bytes
  | .hash256 => (j.asStr.bind (readHash 32)).map .bytes
  | .amount => readAmount sha j
  | .blob => (j.asStr.bind readHex).map .bytes
  | .accountId => (j.asStr.bind (readDoor sha)).map .account
  | .vector256 => (j.asArray.bind (·.mapM fun x => x.asStr.bind (readHash 32))).map .hashes
  | .pathSet => (j.asArray.bind (·.mapM (readPath sha))).map .paths
  | .issue => (readIssue sha j).map .issue
  | .currency => (j.asStr.bind readCurrency).map .currency
  | .xchainBridge => (readBridge sha j).map .bridge
  | .number => (j.asStr.bind fun s => read (utf8 (IOUAmount.trim s))).map .number
  | _ => none

def knownField (name : String) : Option FieldDef := (getField name).filter (·.isSerialized)

mutual

def readField (d : FieldDef) : Json → Option Value
  | .obj members =>
    if d.fieldType=.stObject then (readMembers members).map .object
    else (readLeaf sha d (.obj members)).map .leaf
  | .arr items =>
    if d.fieldType=.stArray then (readItems items).map .array
    else (readLeaf sha d (.arr items)).map .leaf
  | j => (readLeaf sha d j).map .leaf

def readMembers : List (String × Json) → Option (List (FieldDef × Value))
  | [] => some []
  | (name,x)::members =>
    (knownField name).bind fun d =>
    (readField d x).bind fun v => (readMembers members).map fun vs => (d,v)::vs

/-- The items of an array, each an object in a wrapper that names it. -/
def readItems : List Json → Option (List (FieldDef × Value))
  | [] => some []
  | .obj [(name,.obj members)]::items =>
    (knownField name).bind fun d =>
    (readMembers members).bind fun v => (readItems items).map fun vs => (d,.object v)::vs
  | _ => none

end

def readObject : Json → Option (List (FieldDef × Value))
  | .obj members => readMembers sha members
  | _ => none

end

/-! ## Values with a wire form -/

/-- The numbers that a `Number` field keeps: sixteen digits that stay below the largest `i64` when
three zeros are added. -/
def NumberFits (q : ℚ) : Prop :=
  q=0 ∨ ∃ (m : ℕ) (e : ℤ), 10^15 ≤ m ∧ m ≤ 9223372036854775 ∧ -96 ≤ e ∧ e ≤ 80 ∧ |q| = m*10^e

def IntFits (n : ℤ) : FieldType → Prop
  | .uint8 => 0 ≤ n ∧ n < 2^8
  | .uint16 => 0 ≤ n ∧ n < 2^16
  | .uint32 => 0 ≤ n ∧ n < 2^32
  | .int32 => -2^31 ≤ n ∧ n < 2^31
  | .uint64 => 0 ≤ n ∧ n < 2^64
  | _ => True

def Asset.Fits : Asset → Prop
  | .xrp => True
  | .issued code _ _ => code≠.xrpLetters

/-- The value has a wire form whose length prefix is at most `limit` and whose numbers satisfy `P`.
-/
def Leaf.Within (limit : ℕ) (P : ℚ → Prop) (d : FieldDef) : Leaf → Prop
  | .int n => IntFits n d.fieldType
  | .bytes bs => bs.length ≤ limit
  | .account _ => True
  | .drops n => |n| < 2^62
  | .iou q code _ => IouFits q ∧ code≠.xrpLetters
  | .hashes hs => hs.length*32 ≤ limit
  | .paths ps => ∀ p∈ps, p≠[] ∧ ∀ step∈p, step.currency≠some .xrpLetters
  | .issue a => a.Fits
  | .currency code => code≠.xrpLetters
  | .bridge b => b.lockingDoor.isSome ∧ b.lockingIssue.Fits ∧ b.issuingDoor.isSome ∧
    b.issuingIssue.Fits
  | .number q => P q

/-- The leaves of a value satisfy `P`, and no field has the identifier of an end marker where the
parser looks for one. -/
inductive Value.All (P : FieldDef → Leaf → Prop) : FieldDef → Value → Prop
  | leaf {d l} (h : P d l) : All P d (.leaf l)
  | object {d members} (hmarker : ∀ m∈members, m.1.sortKey≠(14,1) ∧ m.1.sortKey≠(15,1))
      (h : ∀ m∈members, All P m.1 m.2) :
      All P d (.object members)
  | array {d items} (hmarker : ∀ m∈items, m.1.sortKey≠(15,1)) (h : ∀ m∈items, All P m.1 m.2) :
      All P d (.array items)

end Rxrpl.Codec
