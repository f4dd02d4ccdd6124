import Rxrpl.SigningAuthority

/-!
# One spelling for an account, a seed and an X-address

Text in base 58 is read by a conversion that has an inverse on what does not begin a number with a
zero digit, so a payload with its checksum has one spelling, whatever the checksum is. The payloads
of addresses, seeds and X-addresses have fixed layouts, which give them back.
-/

namespace Rxrpl.Codec

open List
open Tx (KeyType)

/-! ## The layouts -/

def seedPrefix : KeyType → Bytes
  | .ed25519 => [0x01,0xE1,0x4B]
  | .secp256k1 => [0x21]

def entropyOf (entropy : Bytes) (keyType : KeyType) : Except CodecError (Bytes × KeyType) :=
  if entropy.length≠16 then
    let got := entropy.length
    .error (.invalidSeed s!"expected 16 bytes entropy, got {got}")
  else .ok (entropy,keyType)

/-- What `decode_seed` does with the payload. -/
def seedOf (decoded : Bytes) : Except CodecError (Bytes × KeyType) :=
  if decoded.take 3=seedPrefix .ed25519 then entropyOf (decoded.drop 3) .ed25519
  else if decoded.take 1=seedPrefix .secp256k1 then entropyOf (decoded.drop 1) .secp256k1
  else .error (.invalidSeed "unrecognized seed prefix")

def xAddressPrefix (isTest : Bool) : Bytes := if isTest then [0x04,0x93] else [0x05,0x44]

def isTestOf (start : Bytes) : Except CodecError Bool :=
  if start=xAddressPrefix false then .ok false
  else if start=xAddressPrefix true then .ok true
  else .error (.invalidAddress "invalid X-address prefix")

/-- The tag of an X-address, a little-endian `u64` behind a flag. -/
def tagOf (flag : UInt8) (tagBytes : Bytes) : Except CodecError (Option ℕ) :=
  if flag=0 then
    if tagBytes.any (· ≠ 0) then .error
      (.invalidAddress "no-tag flag set but tag bytes are nonzero") else .ok none
  else if flag=1 then
    let tag := fromBeBytes tagBytes.reverse
    if tag > 2^32-1 then .error (.invalidAddress "tag exceeds 32-bit range") else .ok (some tag)
  else
    let text := ascii (hexEncodeUpper [flag])
    .error (.invalidAddress s!"unknown X-address flag byte: 0x{text}")

/-- What `decode_x_address` does with the payload. -/
def xAddressOf (decoded : Bytes) : Except CodecError (AccountId × Option ℕ × Bool) :=
  if decoded.length≠31 then
    let got := decoded.length
    .error (.invalidAddress s!"expected 31 bytes for X-address, got {got}")
  else do
    let isTest ← isTestOf (decoded.take 2)
    let accountId ← AccountId.fromSlice ((decoded.drop 2).take 20)
    let tag ← tagOf (decoded.getD 22 0) (decoded.drop 23)
    return (accountId,tag,isTest)

section

variable {a : AccountId} {decoded entropy : Bytes} {flag : UInt8} {isTest : Bool}
  {keyType : KeyType} {tag : Option ℕ}

theorem entropyOf_ok {r : Bytes × KeyType} (h : entropyOf entropy keyType=.ok r) :
    r=(entropy,keyType) := by
  unfold entropyOf at h
  split at h
  · cases h
  · exact (Except.ok.inj h).symm

theorem seedOf_ok (h : seedOf decoded=.ok (entropy,keyType)) :
    decoded=seedPrefix keyType++entropy := by
  unfold seedOf at h
  split_ifs at h with hed hsecp
  · cases entropyOf_ok h
    rw [← hed,take_append_drop]
  · cases entropyOf_ok h
    rw [← hsecp,take_append_drop]

/-- The flag and the tag that `encode_x_address` writes. -/
def tagBytes : Option ℕ → Bytes
  | some t => 1::(toBeBytes 8 t).reverse
  | none => 0::replicate 8 0

theorem tagOf_ok {bs : Bytes} (hbs : bs.length=8) (h : tagOf flag bs=.ok tag) :
    flag::bs=tagBytes tag := by
  simp only [tagOf] at h
  split_ifs at h with hnone hany hsome
  · cases h
    rw [hnone,tagBytes,eq_replicate_iff.mpr ⟨hbs,fun b hb => ?_⟩]
    by_contra hne
    exact hany (any_eq_true.mpr ⟨b,hb,by simpa using hne⟩)
  · cases h
    have hlt := fromBeBytes_lt bs.reverse
    rw [length_reverse,hbs] at hlt
    have heq : toBeBytes 8 (fromBeBytes bs.reverse)=bs.reverse :=
      eq_of_fromBeBytes (by simp [hbs]) (by rw [fromBeBytes_toBeBytes,Nat.mod_eq_of_lt hlt])
    rw [hsome,tagBytes,heq,reverse_reverse]

theorem isTestOf_ok {start : Bytes} (h : isTestOf start=.ok isTest) :
    start=xAddressPrefix isTest := by
  unfold isTestOf at h
  split_ifs at h with hmain htest <;> cases h
  exacts [hmain,htest]

theorem xAddressOf_ok (h : xAddressOf decoded=.ok (a,tag,isTest)) :
    decoded=xAddressPrefix isTest++(a.asBytes++tagBytes tag) := by
  unfold xAddressOf at h
  split_ifs at h with hlength
  obtain ⟨test,htest,h⟩ := bind_ok h
  obtain ⟨id,hid,h⟩ := bind_ok h
  obtain ⟨t,ht,h⟩ := bind_ok h
  cases h
  have hid' : (decoded.drop 2).take 20=a.asBytes := by
    simp only [AccountId.fromSlice] at hid
    split_ifs at hid
    cases hid
    rfl
  have hflag : decoded.drop 22=decoded.getD 22 0::decoded.drop 23 := by
    rw [drop_eq_getElem_cons (by omega),getD_eq_getElem _ _ (by omega)]
  rw [← isTestOf_ok htest,← hid',← tagOf_ok (by simp; omega) ht,← hflag,
    show decoded.drop 22=(decoded.drop 2).drop 20 by
      rw [drop_drop],take_append_drop,take_append_drop]

end

/-! ## The texts -/

namespace Checksum

variable (c : Checksum) {s t : String}

def decodeAccountId (address : String) : Except CodecError AccountId :=
    c.base58checkDecode address >>= accountIdOf

def decodeSeed (seed : String) : Except CodecError (Bytes × KeyType) :=
    c.base58checkDecode seed >>= seedOf

def decodeXAddress (xAddress : String) : Except CodecError (AccountId × Option ℕ × Bool) :=
  c.base58checkDecode xAddress >>= xAddressOf

theorem one_spelling {β : Type} {f : Bytes → Except CodecError β} {r : β}
    (hf : ∀ {p q}, f p=.ok r → f q=.ok r → p=q) (hs : (c.base58checkDecode s >>= f)=.ok r)
    (ht : (c.base58checkDecode t >>= f)=.ok r) : s=t := by
  obtain ⟨p,hp,hpr⟩ := bind_ok hs
  obtain ⟨q,hq,hqr⟩ := bind_ok ht
  cases hf hpr hqr
  exact base58Decode_injective (c.base58checkDecode_ok hp) (c.base58checkDecode_ok hq)

/-- Over any checksum, a payload that is not all zeros with its checksum is read from its own text
and from no other one, and an account, a seed and an X-address are read from one text at most. -/
theorem addresses_canonical :
    (∀ p, p≠[] → (∃ b∈p++c.of p, b≠0) →
      c.base58checkDecode (c.base58checkEncode p [])=.ok p ∧
        ∀ s, c.base58checkDecode s=.ok p → c.base58checkEncode p []=s) ∧
      (∀ s t a, c.decodeAccountId s=.ok a → c.decodeAccountId t=.ok a → s=t) ∧
      (∀ s t r, c.decodeSeed s=.ok r → c.decodeSeed t=.ok r → s=t) ∧
      ∀ s t r, c.decodeXAddress s=.ok r → c.decodeXAddress t=.ok r → s=t := by
  refine ⟨fun p hp hne => ?_,fun s t a => c.one_spelling fun hp hq =>
    (accountIdOf_ok hp).trans (accountIdOf_ok hq).symm,
    fun s t r => c.one_spelling fun hp hq => (seedOf_ok hp).trans (seedOf_ok hq).symm,
    fun s t r => c.one_spelling fun hp hq => (xAddressOf_ok hp).trans (xAddressOf_ok hq).symm⟩
  have hvalue : fromBeBytes (p++c.of p)≠0 := by
    intro hzero
    obtain ⟨b,hb,hne⟩ := hne
    rw [eq_zero_of_fromBeBytes hzero] at hb
    exact hne (eq_of_mem_replicate hb)
  have hdecode := base58Decode_base58Encode hvalue
  exact ⟨c.base58checkDecode_of_bytes hp hdecode,fun s hs =>
    base58Decode_injective hdecode (c.base58checkDecode_ok hs)⟩

end Checksum
end Rxrpl.Codec
