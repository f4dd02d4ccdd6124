import Rxrpl.Hash256
import Mathlib.Algebra.Group.Int.Defs
import Mathlib.Data.String.Basic

/-!
# JSON values

`serde_json::Value`, as the codec reads and builds it. The source's texts are UTF-8 byte
sequences and most of its functions work on their bytes; `utf8` gives them and `ascii` the
text of bytes below 128. The members of an object are kept in the order of the keys, as in
the source's map.
-/

namespace Rxrpl

def utf8 (s : String) : Bytes := s.toByteArray.data.toList

def ascii (bs : Bytes) : String := String.ofList (bs.map fun b => Char.ofNat b.toNat)

theorem utf8_injective {s t : String} (h : utf8 s=utf8 t) : s=t := by
  apply String.toByteArray_inj.mp
  apply ByteArray.ext
  exact Array.toList_inj.mp h

private theorem utf8EncodeChar_ofNat {b : UInt8} (h : b < 128) :
    String.utf8EncodeChar (Char.ofNat b.toNat)=[b] := by
  have hlt : b.toNat < 128 := by simpa [UInt8.lt_iff_toNat_lt] using h
  have hall : ∀ n < 128, String.utf8EncodeChar (Char.ofNat n)=[UInt8.ofNat n] := by decide
  rw [hall _ hlt,UInt8.ofNat_toNat]

theorem utf8_ascii {bs : Bytes} (h : ∀ b∈bs, b < 128) : utf8 (ascii bs)=bs := by
  have hflat : (bs.map fun b => Char.ofNat b.toNat).flatMap String.utf8EncodeChar=bs := by
    induction bs with
    | nil => rfl
    | cons b bs ih =>
      rw [List.map_cons,List.flatMap_cons,utf8EncodeChar_ofNat (h b (by simp)),ih fun b' hb' =>
        h b' (by simp [hb'])]
      rfl
  rw [utf8,ascii,String.toByteArray_ofList,List.utf8Encode,hflat]
  simp

theorem ascii_utf8 {s : String} (h : ∀ b∈utf8 s, b < 128) : ascii (utf8 s)=s :=
    utf8_injective (utf8_ascii h)

/-- `serde_json::Value`; a number is an integer or a float, whose bits nothing here reads. -/
inductive Json
  | null
  | bool (b : Bool)
  | int (n : ℤ)
  | float (bits : UInt64)
  | str (s : String)
  | arr (items : List Json)
  | obj (members : List (String × Json))

namespace Json

@[elab_as_elim]
theorem induction {P : Json → Prop} (null : P .null) (bool : ∀ b, P (.bool b))
    (int : ∀ n, P (.int n)) (float : ∀ bits, P (.float bits)) (str : ∀ s, P (.str s))
    (arr : ∀ items, (∀ x∈items, P x) → P (.arr items))
    (obj : ∀ members, (∀ m∈members, P m.2) → P (.obj members)) (j : Json) : P j := by
  refine @Json.rec P (fun items => ∀ x∈items, P x) (fun members => ∀ m∈members, P m.2)
    (fun m => P m.2)
    null bool int float str arr obj ?_ ?_ ?_ ?_ ?_ j
  · simp
  · exact fun x items hx hitems => List.forall_mem_cons.mpr ⟨hx,hitems⟩
  · simp
  · exact fun m members hm hmembers => List.forall_mem_cons.mpr ⟨hm,hmembers⟩
  · exact fun k x hx => hx

def asStr : Json → Option String
  | .str s => some s
  | _ => none

def asU64 : Json → Option ℕ
  | .int n => if 0 ≤ n ∧ n < 2^64 then some n.toNat else none
  | _ => none

def asI64 : Json → Option ℤ
  | .int n => if -2^63 ≤ n ∧ n < 2^63 then some n else none
  | _ => none

def asArray : Json → Option (List Json)
  | .arr items => some items
  | _ => none

def asObject : Json → Option (List (String × Json))
  | .obj members => some members
  | _ => none

def find (k : String) : List (String × Json) → Option Json
  | [] => none
  | (k',x)::members => if k'=k then some x else find k members

/-- A new value for a key, which takes its place in the order of the keys. -/
def insert (k : String) (x : Json) : List (String × Json) → List (String × Json)
  | [] => [(k,x)]
  | (k',x')::members =>
    if k < k' then (k,x)::(k',x')::members
    else if k=k' then (k,x)::members
    else (k',x')::insert k x members

end Json

end Rxrpl
