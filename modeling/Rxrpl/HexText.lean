import Rxrpl.DecimalText
import Rxrpl.Wire

/-!
# Texts of bytes and integers

Hexadecimal texts of bytes, as the `hex` crate reads and writes them, and the integer texts of
`from_str_radix` and `to_string`. `readRadix` and `readInt` read an integer of any size; the
parsers of the source are their restrictions to the range of a machine integer.
-/

namespace Rxrpl.Codec

open DecimalText List

/-! ## Bytes -/

def hexValue (c : UInt8) : Option ℕ :=
  if 48 ≤ c ∧ c ≤ 57 then some (c.toNat-48)
  else if 97 ≤ c ∧ c ≤ 102 then some (c.toNat-87)
  else if 65 ≤ c ∧ c ≤ 70 then some (c.toNat-55)
  else none

def hexDigit (c : UInt8) (index : ℕ) : Except FromHexError ℕ :=
  match hexValue c with
  | some d => .ok d
  | none => .error (.invalidHexCharacter c index)

/-- The bytes of the pairs of digits from an index on. -/
def hexPairs : ℕ → Bytes → Except FromHexError Bytes
  | index, c::c'::s =>
    hexDigit c index >>= fun hi =>
    hexDigit c' (index+1) >>= fun lo =>
    hexPairs (index+2) s >>= fun bs => .ok (UInt8.ofNat (16*hi+lo)::bs)
  | _, _ => .ok []

def hexDecode (s : Bytes) : Except FromHexError Bytes :=
  if s.length % 2≠0 then .error .oddLength else hexPairs 0 s

def hexUpper (d : ℕ) : UInt8 := if d < 10 then UInt8.ofNat (48+d) else UInt8.ofNat (55+d)

def hexEncodeUpper (bs : Bytes) : Bytes := bs.flatMap fun b =>
    [hexUpper (b.toNat/16),hexUpper (b.toNat % 16)]

def hexEncode (bs : Bytes) : Bytes :=
  bs.flatMap fun b => [b.toNat/16,b.toNat % 16].map fun d =>
    UInt8.ofNat (if d < 10 then 48+d else 87+d)

variable {c : UInt8} {d n radix : ℕ} {digit : ℕ → UInt8} {ds : List ℕ}

theorem hexValue_hexUpper (h : d < 16) : hexValue (hexUpper d)=some d := by
  have hall : ∀ d < 16, hexValue (hexUpper d)=some d := by decide
  exact hall d h

theorem hexUpper_lt (h : d < 16) : hexUpper d < 128 := by
  have hall : ∀ d < 16, hexUpper d < 128 := by decide
  exact hall d h

private theorem hexPairs_hexEncodeUpper (bs : Bytes) (index : ℕ) :
    hexPairs index (hexEncodeUpper bs)=.ok bs := by
  induction bs generalizing index with
  | nil => rfl
  | cons b bs ih =>
    have hb := b.toNat_lt
    have hbyte : UInt8.ofNat (16*(b.toNat/16)+b.toNat % 16)=b := by
      rw [Nat.div_add_mod,UInt8.ofNat_toNat]
    change hexPairs index (hexUpper (b.toNat/16)::hexUpper (b.toNat % 16)::hexEncodeUpper bs)=_
    rw [hexPairs,hexDigit,hexDigit,hexValue_hexUpper (by omega),hexValue_hexUpper (by omega),ih]
    change Except.ok _=_
    rw [hbyte]

@[simp] theorem length_hexEncodeUpper (bs : Bytes) : (hexEncodeUpper bs).length=2*bs.length := by
  induction bs with
  | nil => rfl
  | cons b bs ih =>
    rw [hexEncodeUpper,flatMap_cons,length_append,← hexEncodeUpper,ih,length_cons]
    simp only [length_cons,length_nil]
    omega

theorem hexDecode_hexEncodeUpper (bs : Bytes) : hexDecode (hexEncodeUpper bs)=.ok bs := by
  rw [hexDecode,if_neg (by simp),hexPairs_hexEncodeUpper]

theorem hexEncodeUpper_lt {bs : Bytes} (hc : c∈hexEncodeUpper bs) : c < 128 := by
  obtain ⟨b,-,hb⟩ := mem_flatMap.mp hc
  have hlt := b.toNat_lt
  simp only [mem_cons,not_mem_nil,or_false] at hb
  rcases hb with rfl | rfl
  · exact hexUpper_lt (by omega)
  · exact hexUpper_lt (by omega)

/-! ## Integers -/

def radixDigit (radix : ℕ) (c : UInt8) : Option ℕ := (hexValue c).filter (· < radix)

/-- A natural number of at least one digit, behind a possible plus sign. -/
def readRadix (radix : ℕ) (s : Bytes) : Option ℕ :=
  let digits := if s.head?=some 43 then s.tail else s
  if digits=[] then none else (digits.mapM (radixDigit radix)).map (Numeral.value radix)

/-- `from_str_radix` of an unsigned integer of `bits` bits. -/
def parseUnsigned (bits radix : ℕ) (s : Bytes) : Option ℕ := (readRadix radix s).filter (· < 2^bits)

/-- `str::parse::<i64>`. -/
def parseI64 (s : Bytes) : Option ℤ := (readInt s).filter fun n => decide (-2^63 ≤ n ∧ n < 2^63)

/-- `to_string` of a signed integer. -/
def intText (n : ℤ) : Bytes := signText (n < 0)++natText n.natAbs

def hexWord (n : ℕ) : Bytes := (Numeral.fixed 16 16 n).map hexUpper

private theorem mapM_radixDigit (h : ∀ d∈ds, radixDigit radix (digit d)=some d) :
    (ds.map digit).mapM (radixDigit radix)=some ds := by
  induction ds with
  | nil => rfl
  | cons d ds ih =>
    rw [map_cons,mapM_cons,h d (by simp),ih fun d' hd' => h d' (by simp [hd'])]
    rfl

theorem readRadix_digits (hne : ds≠[]) (h : ∀ d∈ds, radixDigit radix (digit d)=some d) :
    readRadix radix (ds.map digit)=some (Numeral.value radix ds) := by
  have hplus : ((ds.map digit).head?=some 43)=False := by
    rw [eq_iff_iff,iff_false]
    intro hhead
    obtain ⟨d,ds,rfl⟩ := exists_cons_of_ne_nil hne
    have hd : digit d=43 := by simpa using hhead
    have := h d (by simp)
    rw [hd] at this
    cases this
  simp only [readRadix,hplus,if_false]
  rw [if_neg (by simpa using hne),mapM_radixDigit h]
  rfl

theorem readRadix_hexWord (h : n < 2^64) : readRadix 16 (hexWord n)=some n := by
  rw [hexWord,readRadix_digits]
  · rw [Numeral.value_fixed,Nat.mod_eq_of_lt (by norm_num; omega)]
  · intro hnil
    have := congrArg length hnil
    simp at this
  · intro d hd
    have hlt := Numeral.fixed_lt (by decide) hd
    rw [radixDigit,hexValue_hexUpper hlt]
    simp [hlt]

theorem hexWord_lt (hc : c∈hexWord n) : c < 128 := by
  obtain ⟨d,hd,rfl⟩ := mem_map.mp hc
  exact hexUpper_lt (Numeral.fixed_lt (by decide) hd)

theorem natText_eq_map (n : ℕ) : ∃ ds : List ℕ, ds≠[] ∧ (∀ d∈ds, d < 10) ∧ Numeral.value 10 ds=n ∧
    natText n=ds.map digitChar := by
  rw [natText]
  split
  · rename_i hn
    exact ⟨[0],by simp,by simp,by simp [hn,Numeral.value],rfl⟩
  · rename_i hn
    exact ⟨Numeral.digits 10 n,Numeral.digits_ne_nil hn,fun d hd =>
      Numeral.digits_lt (by decide) hd,
      Numeral.value_digits ..,rfl⟩

theorem readRadix_natText (n : ℕ) : readRadix 10 (natText n)=some n := by
  obtain ⟨ds,hne,hlt,hvalue,htext⟩ := natText_eq_map n
  have hall : ∀ d < 10, radixDigit 10 (digitChar d)=some d := by decide
  rw [htext,readRadix_digits hne fun d hd => hall d (hlt d hd),hvalue]

theorem natText_lt (hc : c∈natText n) : c < 128 := by
  have hd := isDigit_iff.mp (isDigit_of_mem_natText hc)
  rw [UInt8.lt_iff_toNat_lt]
  exact hd.2.trans_lt (by decide)

theorem readInt_intText (n : ℤ) : readInt (intText n)=some n := by
  obtain ⟨c,s,hs⟩ := exists_cons_of_ne_nil (natText_ne_nil n.natAbs)
  have hdigits : ∀ c∈natText n.natAbs, isDigit c := fun c hc => isDigit_of_mem_natText hc
  have hc : isDigit c := hdigits c (by simp [hs])
  rw [readInt,intText,hs,splitSign_signText hc,← hs]
  dsimp only
  rw [if_pos ⟨natText_ne_nil _,all_eq_true.mpr hdigits⟩,natValue_natText]
  by_cases hneg : n < 0
  · rw [if_pos (by simpa using hneg)]
    congr 1
    omega
  · rw [if_neg (by simpa using hneg)]
    congr 1
    omega

theorem intText_lt {n : ℤ} (hc : c∈intText n) : c < 128 := by
  rcases mem_append.mp hc with hc | hc
  · rw [signText] at hc
    split at hc
    · rw [mem_singleton.mp hc]
      decide
    · cases hc
  · exact natText_lt hc

end Rxrpl.Codec
