import Rxrpl.Hash256
import Rxrpl.Numeral
import Rxrpl.TokenParser

/-!
# The wire format

The errors of the codec, big-endian integers, the field identifiers of `field_id.rs` and the
variable-length prefix. Each writer comes with the reader that takes its bytes off the
input; the prefix has a reader only for the lengths that it can write.
-/

namespace Rxrpl

open List UInt8

section

variable {ε α β : Type} {x : Except ε α} {f : α → Except ε β} {b : β}

theorem bind_ok_iff : (x >>= f)=.ok b ↔ ∃ a, x=.ok a ∧ f a=.ok b := by
    cases x <;> simp [bind,Except.bind]

theorem bind_ok (h : (x >>= f)=.ok b) : ∃ a, x=.ok a ∧ f a=.ok b := bind_ok_iff.mp h

end

namespace Codec

open TokenParser

inductive FromHexError
  | oddLength
  | invalidHexCharacter (c : UInt8) (index : ℕ)
deriving DecidableEq

inductive CodecError
  | invalidBase58
  | invalidChecksum
  | invalidLength (expected got : ℕ)
  | invalidAddress (message : String)
  | invalidSeed (message : String)
  | unknownField (name : String)
  | unexpectedEnd
  | hex (e : FromHexError)
  | unsupportedType (message : String)
deriving DecidableEq

/-- A method of `BinaryParser`, on the bytes that are left. -/
abbrev Parser := TokenParser UInt8 CodecError

def readBytes (n : ℕ) : Parser Bytes := next .unexpectedEnd n

/-! ## Integers -/

/-- `to_be_bytes` of a number of `w` bytes. -/
def toBeBytes (w n : ℕ) : Bytes := (Numeral.fixed 256 w n).map UInt8.ofNat

def fromBeBytes (bs : Bytes) : ℕ := Numeral.value 256 (bs.map (·.toNat))

@[simp] theorem length_toBeBytes (w n : ℕ) : (toBeBytes w n).length=w := by simp [toBeBytes]

private theorem map_toNat_ofNat {ds : List ℕ} (h : ∀ d∈ds, d < 256) :
    (ds.map ofNat).map (·.toNat)=ds := by
  rw [map_map]
  conv_rhs => rw [← map_id ds]
  exact map_congr_left fun d hd => Nat.mod_eq_of_lt (h d hd)

theorem fromBeBytes_toBeBytes (w n : ℕ) : fromBeBytes (toBeBytes w n)=n % 256^w := by
  rw [fromBeBytes,toBeBytes,map_toNat_ofNat fun d hd => Numeral.fixed_lt (by decide) hd,
    Numeral.value_fixed]

theorem fromBeBytes_lt (bs : Bytes) : fromBeBytes bs < 256^bs.length := by
  have h := @Numeral.value_lt 256 (by decide) (bs.map (·.toNat)) (by
    intro d hd
    obtain ⟨b,-,rfl⟩ := mem_map.mp hd
    exact b.toNat_lt)
  rwa [length_map] at h

/-- `read_u8`, `read_u16`, `read_u32` and `read_u64`, by the number of bytes. -/
def readUint (w : ℕ) : Parser ℕ := do
  let bytes ← readBytes w
  return fromBeBytes bytes

theorem reads_readBytes {n : ℕ} {bs : Bytes} (h : bs.length=n) : Reads (readBytes n) bs bs :=
    reads_next h

theorem reads_readUint (w n : ℕ) : Reads (readUint w) (toBeBytes w n) (n % 256^w) :=
  (reads_readBytes (length_toBeBytes w n)).bind_pure (by rw [fromBeBytes_toBeBytes])

/-! ## Field identifiers -/

def encodeFieldId (typeCode fieldCode : ℤ) : Bytes :=
  let tc := UInt8.ofNat (typeCode % 256).toNat
  let fc := UInt8.ofNat (fieldCode % 256).toNat
  if typeCode < 16 ∧ fieldCode < 16 then [tc <<< 4 ||| fc]
  else if typeCode ≥ 16 ∧ fieldCode < 16 then [fc,tc]
  else if typeCode < 16 ∧ fieldCode ≥ 16 then [tc <<< 4,fc]
  else [0,tc,fc]

/-- `decode_field_id`, which also moves the position behind the identifier. -/
def decodeFieldId : Parser (ℤ × ℤ)
  | [] => .error .unexpectedEnd
  | byte0::data =>
    let typeCode := (byte0 >>> 4).toNat
    let fieldCode := (byte0 &&& 0x0F).toNat
    if typeCode≠0 ∧ fieldCode≠0 then .ok ((typeCode,fieldCode),data)
    else if typeCode=0 ∧ fieldCode=0 then
      match data with
      | byte1::byte2::data => .ok ((byte1.toNat,byte2.toNat),data)
      | _ => .error .unexpectedEnd
    else match data with
      | byte1::data =>
        .ok (if typeCode=0 then (byte1.toNat,fieldCode) else (typeCode,byte1.toNat),data)
      | [] => .error .unexpectedEnd

private theorem nibbles {t f : ℕ} (ht : t < 16) (hf : f < 16) :
    ((ofNat t <<< 4 ||| ofNat f) >>> 4).toNat=t ∧
      ((ofNat t <<< 4 ||| ofNat f) &&& 0x0F).toNat=f := by
  have hall : ∀ t < 16, ∀ f < 16, ((ofNat t <<< 4 ||| ofNat f) >>> 4).toNat=t ∧
      ((ofNat t <<< 4 ||| ofNat f) &&& 0x0F).toNat=f := by decide
  exact hall t ht f hf

theorem reads_decodeFieldId {t f : ℤ} (ht : 0 < t) (ht' : t < 256) (hf : 0 < f) (hf' : f < 256) :
    Reads decodeFieldId (encodeFieldId t f) (t,f) := by
  lift t to ℕ using ht.le
  lift f to ℕ using hf.le
  have htn : (ofNat t).toNat=t := Nat.mod_eq_of_lt (by omega)
  have hfn : (ofNat f).toNat=f := Nat.mod_eq_of_lt (by omega)
  have htm : ((t : ℤ) % 256).toNat=t := by omega
  have hfm : ((f : ℤ) % 256).toNat=f := by omega
  intro rest
  rw [encodeFieldId,htm,hfm]
  split
  · rename_i h
    obtain ⟨h₁,h₂⟩ := nibbles (t := t) (f := f) (by omega) (by omega)
    simp [decodeFieldId,h₁,h₂,show t≠0 by omega,show f≠0 by omega]
  · split
    · rename_i h
      obtain ⟨h₁,h₂⟩ := nibbles (t := 0) (f := f) (by decide) (by omega)
      rw [show ofNat 0 <<< 4 ||| ofNat f=ofNat f from UInt8.zero_or] at h₁ h₂
      simp [decodeFieldId,h₁,h₂,htn,show f≠0 by omega]
    · split
      · rename_i h
        obtain ⟨h₁,h₂⟩ := nibbles (t := t) (f := 0) (by omega) (by decide)
        rw [show ofNat t <<< 4 ||| ofNat 0=ofNat t <<< 4 from UInt8.or_zero] at h₁ h₂
        simp [decodeFieldId,h₁,h₂,hfn,show t≠0 by omega]
      · simp [decodeFieldId,htn,hfn]

/-! ## Variable-length prefix -/

/-- `write_vl_length`, which writes nothing for a length above 918744. -/
def writeVlLength (len : ℕ) : Bytes :=
  if len ≤ 192 then [UInt8.ofNat len]
  else if len ≤ 12480 then
    let adjusted := len-193
    [UInt8.ofNat (adjusted >>> 8)+193,UInt8.ofNat (adjusted &&& 0xFF)]
  else if len ≤ 918744 then
    let adjusted := len-12481
    [(241 : UInt8)+UInt8.ofNat (adjusted >>> 16),UInt8.ofNat ((adjusted >>> 8) &&& 0xFF),
      UInt8.ofNat (adjusted &&& 0xFF)]
  else []

def readVlLength : Parser ℕ := do
  let b1 ← readUint 1
  if b1 ≤ 192 then return b1
  else if b1 ≤ 240 then
    let b2 ← readUint 1
    return 193+(b1-193) <<< 8+b2
  else if b1 ≤ 254 then
    let b2 ← readUint 1
    let b3 ← readUint 1
    return 12481+(b1-241) <<< 16+b2 <<< 8+b3
  else throw .unexpectedEnd

theorem readUint_one (b : UInt8) (rest : Bytes) : readUint 1 (b::rest)=.ok (b.toNat,rest) := by
  have h := (@reads_readBytes 1 [b] rfl).bind_pure (f := fun bytes => pure (fromBeBytes bytes))
    (b := b.toNat) (by simp [fromBeBytes])
  exact h rest

theorem reads_readVlLength {len : ℕ} (h : len ≤ 918744) :
    Reads readVlLength (writeVlLength len) len := by
  intro rest
  have hand : ∀ n : ℕ, n &&& 0xFF=n % 256 := fun n => Nat.and_two_pow_sub_one_eq_mod n 8
  rw [writeVlLength]
  split
  · rename_i h₁
    have hb : (ofNat len).toNat=len := Nat.mod_eq_of_lt (by omega)
    rw [singleton_append,readVlLength,bind_of_ok (readUint_one _ _),hb,if_pos h₁]
    rfl
  · split
    · rename_i h₁ h₂
      have hb₁ : (ofNat ((len-193) >>> 8)+193).toNat=(len-193)/256+193 := by
        rw [UInt8.toNat_add,toNat_ofNat',Nat.shiftRight_eq_div_pow]
        change ((len-193)/256 % 256+193) % 256=_
        omega
      have hb₂ : (ofNat ((len-193) &&& 0xFF)).toNat=(len-193) % 256 := by
        rw [toNat_ofNat',hand,Nat.mod_mod_of_dvd _ (by decide)]
      rw [cons_append,singleton_append,readVlLength,bind_of_ok (readUint_one _ _),hb₁,
        if_neg (by omega),if_pos (by omega),bind_of_ok (readUint_one _ _),hb₂,pure_apply,
          Nat.shiftLeft_eq]
      exact congrArg (fun n => Except.ok (n,rest)) (by omega)
    · rename_i h₁ h₂
      have hb₁ : ((241 : UInt8)+ofNat ((len-12481) >>> 16)).toNat=(len-12481)/65536+241 := by
        rw [UInt8.toNat_add,toNat_ofNat',Nat.shiftRight_eq_div_pow]
        change (241+(len-12481)/65536 % 256) % 256=_
        omega
      have hb₂ : (ofNat (((len-12481) >>> 8) &&& 0xFF)).toNat=(len-12481)/256 % 256 := by
        rw [toNat_ofNat',hand,Nat.shiftRight_eq_div_pow,Nat.mod_mod_of_dvd _ (by decide)]
      have hb₃ : (ofNat ((len-12481) &&& 0xFF)).toNat=(len-12481) % 256 := by
        rw [toNat_ofNat',hand,Nat.mod_mod_of_dvd _ (by decide)]
      rw [cons_append,cons_append,singleton_append,readVlLength,
        bind_of_ok (readUint_one _ _),hb₁,if_neg (by omega),if_neg (by omega),if_pos (by omega),
        bind_of_ok (readUint_one _ _),bind_of_ok (readUint_one _ _),hb₂,hb₃,pure_apply,
          Nat.shiftLeft_eq,
        Nat.shiftLeft_eq]
      exact congrArg (fun n => Except.ok (n,rest)) (by omega)

theorem ensures_readBytes (n : ℕ) : Ensures (readBytes n) (·.length=n) := ensures_next _ n

theorem ensures_readUint (w : ℕ) : Ensures (readUint w) (· < 256^w) :=
  (ensures_readBytes w).bind fun bytes hlen => ensures_pure (hlen ▸ fromBeBytes_lt bytes)

/-- The prefix of three bytes reaches beyond what `write_vl_length` writes. -/
theorem ensures_readVlLength : Ensures readVlLength (· ≤ 929984) := by
  have hone : ∀ n : ℕ, n < 256^1 → n < 256 := fun n h => h
  refine (ensures_readUint 1).bind fun b₁ h₁ => ?_
  have h₁ := hone b₁ h₁
  split
  · exact ensures_pure (by omega)
  split
  · refine (ensures_readUint 1).bind fun b₂ h₂ => ensures_pure ?_
    have h₂ := hone b₂ h₂
    rw [Nat.shiftLeft_eq]
    omega
  · split
    · refine (ensures_readUint 1).bind fun b₂ h₂ => (ensures_readUint 1).bind fun b₃ h₃ =>
        ensures_pure ?_
      have h₂ := hone b₂ h₂
      have h₃ := hone b₃ h₃
      rw [Nat.shiftLeft_eq,Nat.shiftLeft_eq]
      omega
    · exact ensures_throw

theorem ensures_decodeFieldId : Ensures decodeFieldId fun id => 0 ≤ id.1 ∧ id.1 < 256 ∧ 0 ≤ id.2 ∧
    id.2 < 256 := by
  intro s id rest h
  have hlt : ∀ b : UInt8, b.toNat < 256 := fun b => b.toNat_lt
  cases s with
  | nil => cases h
  | cons b s =>
    have hhi := hlt (b >>> 4)
    have hlo := hlt (b &&& 0x0F)
    simp only [decodeFieldId] at h
    split at h
    · cases h
      exact ⟨by positivity,by omega,by positivity,by omega⟩
    split at h
    · split at h
      · rename_i b₁ b₂ t
        have := hlt b₁
        have := hlt b₂
        cases h
        exact ⟨by positivity,by omega,by positivity,by omega⟩
      · cases h
    · split at h
      · rename_i b₁ t
        have := hlt b₁
        cases h
        split
        · exact ⟨by positivity,by omega,by positivity,by omega⟩
        · exact ⟨by positivity,by omega,by positivity,by omega⟩
      · cases h

end Codec

end Rxrpl
