import Rxrpl.TransactionResult
import Rxrpl.Address
import Rxrpl.HexText

/-!
# Ledger entries and transactions as JSON

The engine keeps ledger entries and transactions as JSON objects and reads their fields through
`helpers.rs`. A field that is absent or of another type gets the default of its reader. Numbers
wrap at the width of the machine type that holds them.
-/

namespace Rxrpl

namespace Json

def get (j : Json) (k : String) : Option Json :=
  match j with
  | .obj members => find k members
  | _ => none

/-- `value[k] = x`. On a value that is no object the source panics, null apart. -/
def set (j : Json) (k : String) (x : Json) : Json :=
  match j with
  | .obj members => .obj (insert k x members)
  | _ => .obj [(k,x)]

/-- `value.as_object_mut().map(|o| o.remove(k))`. -/
def remove (j : Json) (k : String) : Json :=
  match j with
  | .obj members => .obj (members.filter fun m => m.1≠k)
  | j => j

theorem find_insert_self (k : String) (x : Json) (members : List (String × Json)) :
    find k (insert k x members)=some x := by
  induction members with
  | nil => simp [insert,find]
  | cons m members ih =>
    obtain ⟨k',x'⟩ := m
    simp only [insert]
    split
    · simp [find]
    split
    · simp [find]
    · rename_i hne
      simp [find,Ne.symm hne,ih]

variable {k k' : String}

theorem find_insert_ne (h : k'≠k) (x : Json) (members : List (String × Json)) :
    find k' (insert k x members)=find k' members := by
  induction members with
  | nil => simp [insert,find,Ne.symm h]
  | cons m members ih =>
    obtain ⟨k₁,x₁⟩ := m
    simp only [insert]
    split
    · simp [find,Ne.symm h]
    split
    · rename_i heq
      subst heq
      simp [find,Ne.symm h]
    · simp [find,ih]

theorem find_filter_self (k : String) (members : List (String × Json)) :
    find k (members.filter fun m => m.1≠k)=none := by
  induction members with
  | nil => rfl
  | cons m members ih =>
    by_cases h : m.1=k
    · simpa [h] using ih
    · simpa [h,find] using ih

theorem find_filter_ne (h : k'≠k) (members : List (String × Json)) :
    find k' (members.filter fun m => m.1≠k)=find k' members := by
  induction members with
  | nil => rfl
  | cons m members ih =>
    by_cases hm : m.1=k
    · simpa [hm,find,Ne.symm h] using ih
    · by_cases hm' : m.1=k'
      · simp [hm',find,h]
      · simpa [hm,hm',find] using ih

@[simp] theorem get_set_self (j : Json) (k : String) (x : Json) : (j.set k x).get k=some x := by
  cases j <;> simp [set,get,find_insert_self,find]

theorem get_set_ne (h : k'≠k) (j : Json) (x : Json) : (j.set k x).get k'=j.get k' := by
  cases j <;> simp [set,get,find_insert_ne h,find,Ne.symm h]

@[simp] theorem get_set (j : Json) (k k' : String) (x : Json) :
    (j.set k x).get k'=if k'=k then some x else j.get k' := by
  split
  · rename_i h
    rw [h,get_set_self]
  · rename_i h
    exact get_set_ne h j x

@[simp] theorem get_remove (j : Json) (k k' : String) : (j.remove k).get k'=if k'=k then none
    else j.get k' := by
  cases j with
  | obj members =>
    split
    · rename_i h
      rw [h]
      exact find_filter_self k members
    · rename_i h
      exact find_filter_ne h members
  | _ => simp [remove,get]

def object (members : List (String × Json)) : Json :=
  .obj (members.foldl (fun acc m => insert m.1 m.2 acc) [])

theorem find_append (k : String) (l l' : List (String × Json)) :
    find k (l++l')=(find k l).orElse fun _ => find k l' := by
  induction l with
  | nil => simp [find]
  | cons m l ih =>
    by_cases hm : m.1=k
    · simp [find,hm]
    · simpa [find,hm] using ih

theorem find_eq_none {l : List (String × Json)} (h : ∀ m∈l, m.1≠k) : find k l=none := by
  induction l with
  | nil => rfl
  | cons m l ih =>
    obtain ⟨hm,hl⟩ := List.forall_mem_cons.mp h
    simp [find,hm,ih hl]

theorem get_foldl_insert (members acc : List (String × Json)) (k : String) :
    find k (members.foldl (fun acc m => insert m.1 m.2 acc) acc) =
      (find k members.reverse).orElse fun _ => find k acc := by
  induction members generalizing acc with
  | nil => simp [find]
  | cons m members ih =>
    rw [List.foldl_cons,ih,List.reverse_cons,find_append]
    by_cases hm : k=m.1
    · subst hm
      cases find m.1 members.reverse <;> simp [find_insert_self,find]
    · cases find k members.reverse <;> simp [find_insert_ne hm,find,Ne.symm hm]

theorem get_object (members : List (String × Json)) (k : String) :
    (object members).get k=find k members.reverse := by
  simp only [object,get,get_foldl_insert]
  cases find k members.reverse <;> simp [find]

end Json

namespace Tx

open Codec (AccountId decodeAccountId Sha256)

section

variable {ε α β : Type} {x : Except ε α} {f : α → Except ε β}

theorem bind_error_iff {e : ε} : (x >>= f)=.error e ↔ x=.error e ∨ ∃ a, x=.ok a ∧ f a=.error e := by
  cases x <;> simp [bind,Except.bind]

theorem toOption_eq_some {a : α} : x.toOption=some a ↔ x=.ok a := by
  cases x <;> simp [Except.toOption]

end

/-! ## Numbers in texts -/

/-- `s.parse::<u64>()`. -/
def parseU64 (s : String) : Option ℕ := Codec.parseUnsigned 64 10 (utf8 s)

/-- `n.to_string()`. -/
def natString (n : ℕ) : String := ascii (DecimalText.natText n)

/-- `u64::from_str_radix(s, 16)`. -/
def parseHexU64 (s : String) : Option ℕ := Codec.parseUnsigned 64 16 (utf8 s)

/-- `format!("{n:016X}")`. -/
def u64Hex (n : ℕ) : String := ascii (Codec.hexWord n)

/-- `Hash256::to_string`: uppercase hexadecimal. -/
def hashText (h : Hash256) : String := ascii (Codec.hexEncodeUpper h.asBytes)

/-- `s.to_uppercase()` on the ASCII texts that directories hold. -/
def upper (s : String) : String := String.ofList (s.toList.map Char.toUpper)

variable {d : Data} {field s : String} {j tx : Json} {n : ℕ} {r : TransactionResult} {sha : Sha256}

@[simp] theorem parseU64_natString (h : n < 2^64) : parseU64 (natString n)=some n := by
  rw [parseU64,natString,utf8_ascii fun _ hb => Codec.natText_lt hb,Codec.parseUnsigned,
    Codec.readRadix_natText]
  simpa using h

theorem parseU64_lt (h : parseU64 s=some n) : n < 2^64 := by
  simp only [parseU64,Codec.parseUnsigned,Option.filter_eq_some_iff,decide_eq_true_eq] at h
  exact h.2

theorem parseHexU64_lt (h : parseHexU64 s=some n) : n < 2^64 := by
  simp only [parseHexU64,Codec.parseUnsigned,Option.filter_eq_some_iff,decide_eq_true_eq] at h
  exact h.2

theorem hashText_injective : Function.Injective hashText := by
  intro h h' he
  have hb : Codec.hexEncodeUpper h.asBytes=Codec.hexEncodeUpper h'.asBytes := by
    have hu := congrArg utf8 he
    rwa [hashText,hashText,utf8_ascii fun _ hb => Codec.hexEncodeUpper_lt hb,
      utf8_ascii fun _ hb => Codec.hexEncodeUpper_lt hb] at hu
  have hd := Codec.hexDecode_hexEncodeUpper h.asBytes
  rw [hb,Codec.hexDecode_hexEncodeUpper] at hd
  exact Hash256.ext (Except.ok.inj hd).symm

theorem upper_hashText (h : Hash256) : upper (hashText h)=hashText h := by
  have hdigit : ∀ d < 16, (Char.ofNat (Codec.hexUpper d).toNat).toUpper=Char.ofNat
    (Codec.hexUpper d).toNat := by
    decide
  have hall : ∀ bs : Bytes, ((Codec.hexEncodeUpper bs).map fun b => Char.ofNat b.toNat).map
    Char.toUpper =
      (Codec.hexEncodeUpper bs).map fun b => Char.ofNat b.toNat := by
    intro bs
    induction bs with
    | nil => rfl
    | cons b bs ih =>
      have hb := b.toNat_lt
      simp only [Codec.hexEncodeUpper,List.flatMap_cons,List.map_append,List.map_cons,List.map_nil]
        at ih ⊢
      rw [ih,hdigit _ (by omega),hdigit _ (by omega)]
  rw [upper,hashText,ascii,String.toList_ofList,hall]

/-! ## Entries -/

/-- The bytes of a state entry, as far as `serde_json::from_slice` tells them apart: the text of a
JSON value, or bytes that are none. -/
inductive Data
  | json (value : Json)
  | raw (bytes : Bytes)

def Data.fromSlice : Data → Option Json
  | .json value => some value
  | .raw _ => none

/-- `serde_json::from_slice(data).map_err(|_| TefInternal)`. -/
def Data.parse (d : Data) : Except TransactionResult Json :=
  match d.fromSlice with
  | some value => .ok value
  | none => .error .tefInternal

@[simp] theorem Data.fromSlice_json (value : Json) : (Data.json value).fromSlice=some value := rfl

@[simp] theorem Data.parse_json (value : Json) : (Data.json value).parse=.ok value := rfl

theorem Data.parse_eq_ok {value : Json} (h : d.parse=.ok value) : d=.json value := by
  cases d with
  | json v => exact congrArg Data.json (Except.ok.inj h)
  | raw bs => exact nomatch h

/-! ## Fields -/

/-- `obj.get(field).and_then(|v| v.as_str())`. -/
def strField (j : Json) (field : String) : Option String := (j.get field).bind Json.asStr

/-- `obj.get(field).and_then(|v| v.as_u64())`. -/
def u64Field (j : Json) (field : String) : Option ℕ := (j.get field).bind Json.asU64

def getU32Field (j : Json) (field : String) : Option ℕ := (u64Field j field).map (· % 2^32)

def getU64StrField (j : Json) (field : String) : Option ℕ := (strField j field).bind parseU64

def getAccount (tx : Json) : Except TransactionResult String :=
  match strField tx "Account" with
  | some s => .ok s
  | none => .error .temMalformed

def getDestination (tx : Json) : Except TransactionResult String :=
  match strField tx "Destination" with
  | some s => .ok s
  | none => .error .temDstIsObligatory

def getFee (tx : Json) : ℕ := (getU64StrField tx "Fee").getD 0

def getXrpAmount (tx : Json) : Option ℕ := getU64StrField tx "Amount"

variable (account : Json)

def getBalance : ℕ := (getU64StrField account "Balance").getD 0

def setBalance (balance : ℕ) : Json :=
    account.set "Balance" (.str (natString balance))

def getSequence : ℕ := (getU32Field account "Sequence").getD 0

/-- `increment_sequence`; the addition wraps. -/
def incrementSequence : Json :=
  account.set "Sequence" (.int ((getSequence account+1) % 2^32 : ℕ))

def txSeqProxyValue (tx : Json) : ℕ :=
  match getU32Field tx "TicketSequence" with
  | some ticket => ticket
  | none => (getU32Field tx "Sequence").getD 0

theorem getU32Field_lt (h : getU32Field j field=some n) : n < 2^32 := by
  obtain ⟨m,-,rfl⟩ := Option.map_eq_some_iff.mp h
  exact Nat.mod_lt _ (by simp)

theorem txSeqProxyValue_lt (tx : Json) : txSeqProxyValue tx < 2^32 := by
  unfold txSeqProxyValue
  split
  · rename_i ticket h
    exact getU32Field_lt h
  · cases h : getU32Field tx "Sequence" with
    | none => simp
    | some n => exact getU32Field_lt h

def getFlags (j : Json) : ℕ := (getU32Field j "Flags").getD 0

def getOwnerCount : ℕ := (getU32Field account "OwnerCount").getD 0

/-- `adjust_owner_count`: the sum of two `i32`, which wraps, and not below zero. -/
def adjustOwnerCount (delta : ℤ) : Json :=
  account.set "OwnerCount"
    (.int (max (Int.bmod (Int.bmod (getOwnerCount account) (2^32)+delta) (2^32)) 0))

/-- `decode_account_id(s).map_err(|_| TemInvalidAccountId)`. -/
def decodeAccount (sha : Sha256) (s : String) : Except TransactionResult AccountId :=
  match decodeAccountId sha s with
  | .ok id => .ok id
  | .error _ => .error .temInvalidAccountId

theorem getAccount_eq_ok : getAccount tx=.ok s ↔ strField tx "Account"=some s := by
  unfold getAccount
  split <;> rename_i h <;> simp [h]

theorem getDestination_eq_ok : getDestination tx=.ok s ↔ strField tx "Destination"=some s := by
  unfold getDestination
  split <;> rename_i h <;> simp [h]

theorem getAccount_eq_error (h : getAccount tx=.error r) : r=.temMalformed := by
  unfold getAccount at h
  split at h <;> cases h
  rfl

theorem decodeAccount_eq_ok {id : AccountId} : decodeAccount sha s=.ok id ↔
    decodeAccountId sha s=.ok id := by
  unfold decodeAccount
  split <;> rename_i h <;> simp [h]

theorem decodeAccount_eq_error (h : decodeAccount sha s=.error r) : r=.temInvalidAccountId := by
  unfold decodeAccount at h
  split at h <;> cases h
  rfl

theorem Data.parse_eq_error (h : d.parse=.error r) : r=.tefInternal := by
  cases d with
  | json v => cases h
  | raw bs => cases h; rfl

theorem u64Field_lt (h : u64Field j field=some n) : n < 2^64 := by
  obtain ⟨x,-,hx⟩ := Option.bind_eq_some_iff.mp h
  cases x with
  | int z =>
    simp only [Json.asU64] at hx
    split_ifs at hx
    cases hx
    omega
  | _ => cases hx

theorem getBalance_lt : getBalance account < 2^64 := by
  simp only [getBalance,getU64StrField]
  cases h : (strField account "Balance").bind parseU64 with
  | none => simp
  | some n =>
    obtain ⟨s,-,hs⟩ := Option.bind_eq_some_iff.mp h
    exact parseU64_lt hs

@[simp] theorem strField_set (j : Json) (k k' : String) (x : Json) :
    strField (j.set k x) k'=if k'=k then x.asStr else strField j k' := by
  simp only [strField,Json.get_set]
  split <;> simp

@[simp] theorem u64Field_set (j : Json) (k k' : String) (x : Json) :
    u64Field (j.set k x) k'=if k'=k then x.asU64 else u64Field j k' := by
  simp only [u64Field,Json.get_set]
  split <;> simp

@[simp] theorem u64Field_remove (j : Json) (k k' : String) :
    u64Field (j.remove k) k'=if k'=k then none else u64Field j k' := by
  simp only [u64Field,Json.get_remove]
  split <;> simp

@[simp] theorem asU64_natCast (h : n < 2^64) : (Json.int n).asU64=some n := by
  simp only [Json.asU64]
  rw [if_pos ⟨by omega,by omega⟩]
  simp

@[simp] theorem getBalance_setBalance {b : ℕ} (h : b < 2^64) :
    getBalance (setBalance account b)=b := by
  simp [getBalance,setBalance,getU64StrField,Json.asStr,parseU64_natString h]

end Tx

end Rxrpl
