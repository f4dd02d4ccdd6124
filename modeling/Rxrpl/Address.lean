import Rxrpl.Json
import Rxrpl.Wire
import Mathlib.Data.List.TakeWhile

/-!
# Classic addresses

The base-58 texts of `base58.rs` and the account addresses of `classic.rs`. A conversion
keeps the number that the bytes write and the number of its leading zeros, so every payload
that is not all zeros is read back from its text. For the zeros the encoder writes one digit
too many; an address is never all zeros, because its checksum is a hash.
-/

namespace Rxrpl.Codec

open List

/-- SHA-256, of which the codec uses the length of its digests; the checksum of the zero account
is not zero. -/
structure Sha256 where
  digest : Bytes → Bytes
  length_digest : ∀ data, (digest data).length=32
  zero_account : (digest (digest (List.replicate 21 0))).take 4≠List.replicate 4 0

/-- A digest that can be evaluated. -/
def Sha256.ones : Sha256 := ⟨fun _ => List.replicate 32 1,by simp,by decide⟩

/-- The source's `AccountId`, twenty bytes. -/
structure AccountId where
  asBytes : Bytes
  length_asBytes : asBytes.length=20

attribute [simp] AccountId.length_asBytes

variable {a : AccountId} {d fuel n : ℕ} {data num : Bytes} {ds : List ℕ} {s t : String}

@[ext] theorem AccountId.ext {a' : AccountId} (h : a.asBytes=a'.asBytes) : a=a' := by
  cases a
  cases a'
  cases h
  rfl

instance : DecidableEq AccountId := fun a a' => decidable_of_iff (a.asBytes=a'.asBytes)
  ⟨AccountId.ext,fun h => h ▸ rfl⟩

/-- `AccountId::from_slice` and the error that the codec makes of its own. -/
def AccountId.fromSlice (s : Bytes) : Except CodecError AccountId :=
  if h : s.length=20 then .ok ⟨s,h⟩
  else
    let got := s.length
    .error (.invalidAddress s!"invalid length: expected 20, got {got}")

@[simp] theorem AccountId.fromSlice_asBytes (a : AccountId) :
    AccountId.fromSlice a.asBytes=.ok a := by
  simp [fromSlice]

/-! ## Base 58 -/

def xrplAlphabet : Bytes :=
  [114,112,115,104,110,97,102,51,57,119,66,85,68,78,69,71,72,74,75,76,77,52,
    80,81,82,83,84,
    55,86,87,88,89,90,50,98,99,100,101,67,103,54,53,106,107,109,56,111,70,113,
      105,49,116,117,
    118,65,120,121,122]

def letter (d : ℕ) : UInt8 := xrplAlphabet.getD d 0

/-- `DECODE_TABLE`: the digit of a letter. -/
def letterValue (c : UInt8) : Option ℕ := xrplAlphabet.idxOf? c

/-- The next byte of a number that is divided by 58; a leading zero is not kept. -/
def divideStep (p : Bytes × ℕ) (byte : UInt8) : Bytes × ℕ :=
  let acc := p.2*256+byte.toNat
  (if p.1≠[] ∨ acc/58 > 0 then p.1++[UInt8.ofNat (acc/58)] else p.1,acc % 58)

/-- One pass of the encoder: the number divided by 58, and the remainder. -/
def divide58 (num : Bytes) : Bytes × ℕ := num.foldl divideStep ([],0)

/-- The passes of the encoder, least significant digit first. -/
def digits58 : ℕ → Bytes → List ℕ
  | 0, _ => []
  | _+1, [] => []
  | fuel+1, byte::num => (divide58 (byte::num)).2::digits58 fuel (divide58 (byte::num)).1

def leadingZeros (data : Bytes) : ℕ := (data.takeWhile (· == 0)).length

/-- `base58_encode`; a byte takes less than two digits. -/
def base58Encode (data : Bytes) : String :=
  let result := (digits58 (2*data.length+1) data).map letter++List.replicate (leadingZeros data)
    (letter 0)
  ascii result.reverse

/-- The bytes of a number, without leading zeros. -/
def minimalBytes (n : ℕ) : Bytes := (Numeral.digits 256 n).map UInt8.ofNat

/-- A byte of a number that is multiplied by 58, with the carry from the bytes behind it. -/
def multiplyStep (digit : UInt8) (p : Bytes × ℕ) : Bytes × ℕ :=
  let acc := digit.toNat*58+p.2
  (UInt8.ofNat (acc % 256)::p.1,acc/256)

/-- One step of the decoder: the number times 58 plus a digit. -/
def multiply58 (num : Bytes) (value : ℕ) : Bytes :=
  let (digits,carry) := num.foldr multiplyStep ([],value)
  minimalBytes carry++digits

def decodeLetter (num : Bytes) (byte : UInt8) : Except CodecError Bytes :=
  match letterValue byte with
  | some value => .ok (multiply58 num value)
  | none => .error .invalidBase58

def base58Decode (encoded : String) : Except CodecError Bytes := do
  let bytes := utf8 encoded
  let leadingOnes := (bytes.takeWhile (· == letter 0)).length
  let num ← bytes.foldlM decodeLetter []
  return List.replicate leadingOnes 0++num

/-! ## Checksums and accounts -/

def checksum (sha : Sha256) (data : Bytes) : Bytes := (sha.digest (sha.digest data)).take 4

@[simp] theorem length_checksum (sha : Sha256) (data : Bytes) : (checksum sha data).length=4 := by
  simp [checksum,sha.length_digest]

/-- Four bytes for each byte string, as `checksum` returns them. -/
structure Checksum where
  of : Bytes → Bytes
  length_of : ∀ data, (of data).length=4

attribute [simp] Checksum.length_of

/-- The checksum of the codec. -/
def Sha256.toChecksum (sha : Sha256) : Checksum := ⟨checksum sha,length_checksum sha⟩

namespace Checksum

variable (c : Checksum) {p : Bytes} {s : String}

def base58checkEncode (payload typePrefix : Bytes) : String :=
  let data := typePrefix++payload
  base58Encode (data++c.of data)

def base58checkDecode (encoded : String) : Except CodecError Bytes := do
  let data ← base58Decode encoded
  if data.length < 5 then throw .invalidChecksum
  let payload := data.take (data.length-4)
  let check := data.drop (data.length-4)
  if check≠c.of payload then throw .invalidChecksum
  return payload

end Checksum

def encodeAccountId (sha : Sha256) (accountId : AccountId) : String :=
  sha.toChecksum.base58checkEncode accountId.asBytes [0]

/-- What `decode_account_id` does with the payload. -/
def accountIdOf (decoded : Bytes) : Except CodecError AccountId := do
  if decoded.length≠21 then
    let got := decoded.length
    throw (.invalidAddress s!"expected 21 bytes (1 prefix + 20 account id), got {got}")
  if decoded.getD 0 0≠0 then throw (.invalidAddress "invalid address prefix")
  AccountId.fromSlice (decoded.drop 1)

def decodeAccountId (sha : Sha256) (address : String) : Except CodecError AccountId :=
  sha.toChecksum.base58checkDecode address >>= accountIdOf

/-! ## The number that bytes write -/

theorem fromBeBytes_append (s t : Bytes) :
    fromBeBytes (s++t)=fromBeBytes s*256^t.length+fromBeBytes t := by
  simp [fromBeBytes,Numeral.value_append]

theorem fromBeBytes_concat (s : Bytes) (b : UInt8) :
    fromBeBytes (s++[b])=fromBeBytes s*256+b.toNat := by
  simp [fromBeBytes,Numeral.value_concat]

theorem fromBeBytes_cons (b : UInt8) (s : Bytes) :
    fromBeBytes (b::s)=b.toNat*256^s.length+fromBeBytes s := by
  simp [fromBeBytes,Numeral.value_cons]

theorem eq_zero_of_fromBeBytes {s : Bytes} (h : fromBeBytes s=0) : s=replicate s.length 0 := by
  induction s with
  | nil => rfl
  | cons b s ih =>
    rw [fromBeBytes_cons] at h
    have hb : b.toNat=0 := by
      have hpow : 0 < 256^s.length := by positivity
      nlinarith [Nat.zero_le (fromBeBytes s)]
    rw [length_cons,replicate_succ,← ih (by omega),
      UInt8.toNat_inj.mp (hb.trans UInt8.toNat_zero.symm)]

theorem fromBeBytes_replicate_zero (n : ℕ) : fromBeBytes (replicate n 0)=0 := by
  simp [fromBeBytes]

private theorem toNat_minimalBytes (n : ℕ) :
    (minimalBytes n).map (·.toNat)=Numeral.digits 256 n := by
  rw [minimalBytes,map_map]
  conv_rhs => rw [← map_id (Numeral.digits 256 n)]
  exact map_congr_left fun d hd => Nat.mod_eq_of_lt (Numeral.digits_lt (by decide) hd)

@[simp] theorem fromBeBytes_minimalBytes (n : ℕ) : fromBeBytes (minimalBytes n)=n := by
  rw [fromBeBytes,toNat_minimalBytes,Numeral.value_digits]

@[simp] theorem minimalBytes_zero : minimalBytes 0=[] := by simp [minimalBytes]

theorem minimalBytes_ne_nil (h : n≠0) : minimalBytes n≠[] := by
  simpa [minimalBytes] using Numeral.digits_ne_nil h

theorem head?_minimalBytes (n : ℕ) : (minimalBytes n).head?≠some 0 := by
  intro h
  have hdigits := congrArg (Option.map UInt8.toNat) h
  rw [← head?_map,toNat_minimalBytes] at hdigits
  exact Numeral.head?_digits 256 n hdigits

theorem minimalBytes_fromBeBytes {s : Bytes} (h : s.head?≠some 0) :
    minimalBytes (fromBeBytes s)=s := by
  have hdigits : Numeral.digits 256 (fromBeBytes s)=s.map (·.toNat) := by
    apply Numeral.digits_value (by decide)
    · intro d hd
      obtain ⟨b,-,rfl⟩ := mem_map.mp hd
      exact b.toNat_lt
    · rw [head?_map]
      intro hzero
      obtain ⟨b,hb,hval⟩ := Option.map_eq_some_iff.mp hzero
      exact h (hb.trans (congrArg some (UInt8.toNat_inj.mp (hval.trans UInt8.toNat_zero.symm))))
  rw [minimalBytes,hdigits,map_map]
  conv_rhs => rw [← map_id s]
  exact map_congr_left fun b _ => UInt8.ofNat_toNat

theorem minimalBytes_step {m : ℕ} (hd : d < 256) :
    minimalBytes (m*256+d)=if minimalBytes m≠[] ∨ d > 0 then minimalBytes m++[UInt8.ofNat d]
      else minimalBytes m := by
  have hbyte : (UInt8.ofNat d).toNat=d := Nat.mod_eq_of_lt hd
  split
  · rename_i h
    have hvalue : fromBeBytes (minimalBytes m++[UInt8.ofNat d])=m*256+d := by
      rw [fromBeBytes_concat,fromBeBytes_minimalBytes,hbyte]
    rw [← hvalue]
    apply minimalBytes_fromBeBytes
    rcases eq_nil_or_concat (minimalBytes m) with hnil | hne
    · have hpos : 0 < d := by simpa [hnil] using h
      rw [hnil,nil_append,head?_cons]
      intro hzero
      rw [Option.some.inj hzero] at hbyte
      simp at hbyte
      omega
    · rw [head?_append_of_ne_nil _ (by obtain ⟨l,b,hl⟩ := hne; simp [hl])]
      exact head?_minimalBytes m
  · rename_i h
    have hm : m=0 := by
      by_contra hm
      exact h (Or.inl (minimalBytes_ne_nil hm))
    have hd : d=0 := by
      by_contra hd
      exact h (Or.inr (by omega))
    simp [hm,hd]

/-! ## The round trip of base 58 -/

theorem divide58_eq (num : Bytes) :
    divide58 num=(minimalBytes (fromBeBytes num/58),fromBeBytes num % 58) := by
  induction num using reverseRecOn with
  | nil => simp [divide58,fromBeBytes]
  | append_singleton num byte ih =>
    have hacc : fromBeBytes num % 58*256+byte.toNat < 58*256 := by
      have := byte.toNat_lt
      omega
    have hdiv : (fromBeBytes num*256+byte.toNat)/58 =
        fromBeBytes num/58*256+(fromBeBytes num % 58*256+byte.toNat)/58 := by omega
    have hmod : (fromBeBytes num*256+byte.toNat) % 58=(fromBeBytes num % 58*256+byte.toNat) % 58 :=
      by omega
    rw [divide58,foldl_append,← divide58,ih,fromBeBytes_concat,hdiv,hmod,
      minimalBytes_step (by omega)]
    rfl

theorem digits58_minimalBytes (h : n < 58^fuel) :
    digits58 fuel (minimalBytes n)=Nat.digits 58 n := by
  induction fuel generalizing n with
  | zero =>
    have : n=0 := by simpa using h
    simp [this,digits58]
  | succ fuel ih =>
    by_cases hn : n=0
    · simp [hn,digits58]
    · obtain ⟨b,s,hs⟩ := exists_cons_of_ne_nil (minimalBytes_ne_nil hn)
      rw [hs,digits58,← hs,divide58_eq,fromBeBytes_minimalBytes,ih (by rw [pow_succ] at h; omega)]
      exact (Nat.digits_def' (by decide) (by omega)).symm

/-- The passes of the encoder give the digits of the number that the bytes write. -/
theorem digits58_eq (hn : fromBeBytes data≠0) (h : fromBeBytes data < 58^fuel) :
    digits58 fuel data=Nat.digits 58 (fromBeBytes data) := by
  cases fuel with
  | zero => simp at h; omega
  | succ fuel =>
    obtain ⟨b,s,rfl⟩ : ∃ b s, data=b::s := by
      apply exists_cons_of_ne_nil
      rintro rfl
      exact hn rfl
    rw [digits58,divide58_eq,digits58_minimalBytes (by rw [pow_succ] at h; omega)]
    exact (Nat.digits_def' (by decide) (by omega)).symm

theorem base58Encode_eq (hn : fromBeBytes data≠0) :
    base58Encode data=ascii (replicate (leadingZeros data) (letter 0) ++
      (Numeral.digits 58 (fromBeBytes data)).map letter) := by
  have hfuel : fromBeBytes data < 58^(2*data.length+1) := by
    calc fromBeBytes data < 256^data.length := fromBeBytes_lt data
      _ ≤ (58^2)^data.length := Nat.pow_le_pow_left (by decide) _
      _=58^(2*data.length) := (pow_mul 58 2 _).symm
      _ ≤ 58^(2*data.length+1) := Nat.pow_le_pow_right (by decide) (by omega)
  rw [base58Encode,digits58_eq hn hfuel]
  simp [Numeral.digits]

private theorem foldr_multiplyStep (num : Bytes) (value : ℕ) :
    (num.foldr multiplyStep ([],value)).1.length=num.length ∧
      (num.foldr multiplyStep ([],value)).2*256^num.length+fromBeBytes
        (num.foldr multiplyStep ([],value)).1 =
        fromBeBytes num*58+value := by
  induction num with
  | nil => simp [fromBeBytes]
  | cons digit num ih =>
    obtain ⟨hlen,hval⟩ := ih
    set p := num.foldr multiplyStep ([],value)
    have hbyte : (UInt8.ofNat ((digit.toNat*58+p.2) % 256)).toNat=(digit.toNat*58+p.2) % 256 :=
      Nat.mod_eq_of_lt (Nat.mod_lt _ (by decide))
    have hsplit := Nat.div_add_mod (digit.toNat*58+p.2) 256
    rw [foldr_cons]
    change (multiplyStep digit p).1.length=_ ∧ _
    refine ⟨by simp [multiplyStep,hlen],?_⟩
    rw [multiplyStep,fromBeBytes_cons,fromBeBytes_cons,hbyte,hlen,length_cons]
    calc (digit.toNat*58+p.2)/256*256^(num.length+1)+((digit.toNat*58+p.2) %
      256*256^num.length+fromBeBytes p.1)
        = (256*((digit.toNat*58+p.2)/256)+(digit.toNat*58+p.2) % 256)*256^num.length+fromBeBytes
          p.1 := by ring
      _=digit.toNat*58*256^num.length+(p.2*256^num.length+fromBeBytes p.1) := by rw [hsplit]; ring
      _=(digit.toNat*256^num.length+fromBeBytes num)*58+value := by rw [hval]; ring

private theorem head?_multiply58 (h : num.head?≠some 0) (value : ℕ) :
    (multiply58 num value).head?≠some 0 := by
  rw [multiply58]
  set p := num.foldr multiplyStep ([],value) with hp
  change (minimalBytes p.2++p.1).head?≠some 0
  by_cases hcarry : p.2=0
  · rw [hcarry,minimalBytes_zero,nil_append]
    cases num with
    | nil => simp [hp]
    | cons digit num =>
      have hdigit : digit.toNat≠0 := fun hz =>
        h (congrArg some (UInt8.toNat_inj.mp (hz.trans UInt8.toNat_zero.symm)))
      rw [foldr_cons,multiplyStep] at hp
      rw [hp] at hcarry ⊢
      dsimp only at hcarry ⊢
      intro hzero
      have hbyte := congrArg UInt8.toNat (Option.some.inj hzero)
      simp only [UInt8.toNat_ofNat',UInt8.toNat_zero] at hbyte
      omega
  · rw [head?_append_of_ne_nil _ (minimalBytes_ne_nil hcarry)]
    exact head?_minimalBytes p.2

theorem multiply58_minimalBytes (n value : ℕ) :
    multiply58 (minimalBytes n) value=minimalBytes (n*58+value) := by
  have hval : fromBeBytes (multiply58 (minimalBytes n) value)=n*58+value := by
    obtain ⟨hlen,hfold⟩ := foldr_multiplyStep (minimalBytes n) value
    rw [multiply58]
    change fromBeBytes (minimalBytes _++_)=_
    rw [fromBeBytes_append,fromBeBytes_minimalBytes,hlen,hfold,fromBeBytes_minimalBytes]
  rw [← hval,minimalBytes_fromBeBytes (head?_multiply58 (head?_minimalBytes n) value)]

theorem letterValue_letter (h : d < 58) : letterValue (letter d)=some d := by
  have hall : ∀ d < 58, letterValue (letter d)=some d := by decide
  exact hall d h

theorem letter_lt (d : ℕ) : letter d < 128 := by
  by_cases h : d < 58
  · have hall : ∀ d < 58, letter d < 128 := by decide
    exact hall d h
  · rw [letter,getD_eq_default _ _ (by simpa [xrplAlphabet] using h)]
    decide

private theorem foldlM_letters (h : ∀ d∈ds, d < 58) (n : ℕ) :
    (ds.map letter).foldlM decodeLetter (minimalBytes n) =
      .ok (minimalBytes (ds.foldl (fun a d => a*58+d) n)) := by
  induction ds generalizing n with
  | nil => rfl
  | cons d ds ih =>
    have hstep : decodeLetter (minimalBytes n) (letter d)=.ok (minimalBytes (n*58+d)) := by
      rw [decodeLetter,letterValue_letter (h d (by simp)),← multiply58_minimalBytes]
    rw [map_cons,foldlM_cons,hstep]
    exact ih (fun d' hd' => h d' (by simp [hd'])) (n*58+d)

private theorem leadingZeros_append (data : Bytes) :
    data=replicate (leadingZeros data) 0++minimalBytes (fromBeBytes data) := by
  have hzeros : data.takeWhile (· == 0)=replicate (leadingZeros data) 0 := by
    apply eq_replicate_iff.mpr
    exact ⟨rfl,fun b hb => by simpa using mem_takeWhile_imp hb⟩
  have hsplit : data=replicate (leadingZeros data) 0++data.dropWhile (· == 0) := by
    rw [← hzeros,takeWhile_append_dropWhile]
  have hvalue : fromBeBytes data=fromBeBytes (data.dropWhile (· == 0)) := by
    conv_lhs => rw [hsplit]
    rw [fromBeBytes_append,fromBeBytes_replicate_zero,zero_mul,zero_add]
  have hhead : (data.dropWhile (· == 0)).head?≠some 0 := by
    intro hzero
    have := head?_dropWhile_not (· == 0) data
    rw [hzero] at this
    simp at this
  rw [hvalue,minimalBytes_fromBeBytes hhead]
  exact hsplit

theorem eq_of_fromBeBytes {bs : Bytes} (hlen : data.length=bs.length)
    (h : fromBeBytes data=fromBeBytes bs) : data=bs := by
  have hdata := leadingZeros_append data
  have hbs := leadingZeros_append bs
  rw [h] at hdata
  have hzeros : leadingZeros data=leadingZeros bs := by
    have hlen' := congrArg length hbs
    rw [← hlen,hdata,length_append,length_append,length_replicate,length_replicate] at hlen'
    omega
  rw [hdata,hzeros,← hbs]

theorem utf8_base58Encode (hn : fromBeBytes data≠0) : utf8 (base58Encode data) =
      (replicate (leadingZeros data) 0++Numeral.digits 58 (fromBeBytes data)).map letter := by
  rw [base58Encode_eq hn,utf8_ascii,map_append,map_replicate]
  intro b hb
  rcases mem_append.mp hb with hb | hb
  · rw [eq_of_mem_replicate hb]
    exact letter_lt 0
  · obtain ⟨d,-,rfl⟩ := mem_map.mp hb
    exact letter_lt d

theorem base58Decode_base58Encode (hn : fromBeBytes data≠0) :
    base58Decode (base58Encode data)=.ok data := by
  set z := leadingZeros data with hz
  set ds := Numeral.digits 58 (fromBeBytes data) with hds
  have hdigit : ∀ d∈ds, d < 58 := fun d hd => Numeral.digits_lt (by decide) hd
  have htext : utf8 (base58Encode data)=(replicate z 0++ds).map letter := utf8_base58Encode hn
  have hones : (((replicate z 0++ds).map letter).takeWhile (· == letter 0)).length=z := by
    obtain ⟨d,ds',hcons⟩ := exists_cons_of_ne_nil (Numeral.digits_ne_nil (b := 58) hn)
    have hd : letter d≠letter 0 := by
      intro heq
      have hlt : d < 58 := hdigit d (by rw [hds,hcons]; simp)
      have := congrArg letterValue heq
      rw [letterValue_letter hlt,letterValue_letter (by decide)] at this
      have hhead := Numeral.head?_digits 58 (fromBeBytes data)
      rw [hcons,Option.some.inj this] at hhead
      exact hhead rfl
    rw [map_append,map_replicate,takeWhile_append_of_pos (by simp),hds,hcons,map_cons,
      takeWhile_cons_of_neg (by simpa using hd)]
    simp
  have hfold := @foldlM_letters (replicate z 0++ds) (by
    intro d hd
    rcases mem_append.mp hd with hd | hd
    · rw [eq_of_mem_replicate hd]
      decide
    · exact hdigit d hd) 0
  rw [Numeral.foldl_eq,zero_mul,zero_add,Numeral.value_zeros_append,hds,Numeral.value_digits,← hds,
    minimalBytes_zero] at hfold
  rw [base58Decode,htext,hfold,hones]
  exact congrArg Except.ok (leadingZeros_append data).symm

/-! ## One text for given bytes -/

theorem letter_of_letterValue {c : UInt8} (h : letterValue c=some d) : d < 58 ∧ letter d=c := by
  obtain ⟨hlt,hget,-⟩ := idxOf?_eq_some_iff.mp h
  exact ⟨hlt,by rw [letter,getD_eq_getElem _ _ hlt,hget]⟩

theorem letter_eq_zero_iff (hd : d < 58) : letter d=letter 0 ↔ d=0 := by
  refine ⟨fun h => ?_,fun h => by rw [h]⟩
  have hvalue := congrArg letterValue h
  rw [letterValue_letter hd,letterValue_letter (by decide)] at hvalue
  exact Option.some.inj hvalue

theorem exists_digits_of_foldlM {bytes num' : Bytes} (h : bytes.foldlM decodeLetter num=.ok num') :
    ∃ ds : List ℕ, (∀ d∈ds, d < 58) ∧ bytes=ds.map letter := by
  induction bytes generalizing num with
  | nil => exact ⟨[],by simp,rfl⟩
  | cons c bytes ih =>
    rw [foldlM_cons] at h
    cases hc : letterValue c with
    | none =>
      rw [decodeLetter,hc] at h
      cases h
    | some d =>
      rw [decodeLetter,hc] at h
      obtain ⟨ds,hds,rfl⟩ := ih h
      obtain ⟨hlt,rfl⟩ := letter_of_letterValue hc
      exact ⟨d::ds,forall_mem_cons.mpr ⟨hlt,hds⟩,rfl⟩

theorem length_takeWhile_letters (h : ∀ d∈ds, d < 58) :
    ((ds.map letter).takeWhile (· == letter 0)).length=(ds.takeWhile (· == 0)).length := by
  induction ds with
  | nil => rfl
  | cons d ds ih =>
    obtain ⟨hd,hds⟩ := forall_mem_cons.mp h
    by_cases hzero : d=0
    · simp [hzero,ih hds]
    · simp [hzero,letter_eq_zero_iff hd]

theorem digits_eq_zeros_append (h : ∀ d∈ds, d < 58) :
    ds=replicate (ds.takeWhile (· == 0)).length 0++Numeral.digits 58 (Numeral.value 58 ds) := by
  have hzeros : ds.takeWhile (· == 0)=replicate (ds.takeWhile (· == 0)).length 0 :=
    eq_replicate_iff.mpr ⟨rfl,fun d hd => by simpa using mem_takeWhile_imp hd⟩
  have hhead : (ds.dropWhile (· == 0)).head?≠some 0 := by
    intro hzero
    have hnot := head?_dropWhile_not (· == 0) ds
    rw [hzero] at hnot
    simp at hnot
  have hrest : ∀ d∈ds.dropWhile (· == 0), d < 58 := fun d hd => h d (dropWhile_subset _ hd)
  rw [← Numeral.value_dropWhile_zero,Numeral.digits_value (by decide) hrest hhead,← hzeros,
    takeWhile_append_dropWhile]

/-- The digits of a text that is read: its leading zeros and the number behind them are in the
bytes. -/
theorem base58Decode_ok (h : base58Decode s=.ok data) :
    ∃ z n, utf8 s=(replicate z 0++Numeral.digits 58 n).map letter ∧
      data=replicate z 0++minimalBytes n := by
  unfold base58Decode at h
  cases hfold : (utf8 s).foldlM decodeLetter [] with
  | error e =>
    simp only [hfold] at h
    cases h
  | ok num =>
    obtain ⟨ds,hds,hbytes⟩ := exists_digits_of_foldlM hfold
    have hnum := foldlM_letters hds 0
    rw [minimalBytes_zero,← hbytes,hfold,Numeral.foldl_eq,zero_mul,zero_add] at hnum
    simp only [hfold] at h
    rw [hbytes,length_takeWhile_letters hds] at h
    refine ⟨(ds.takeWhile (· == 0)).length,Numeral.value 58 ds,?_,?_⟩
    · rw [← digits_eq_zeros_append hds,hbytes]
    · cases hnum
      exact (Except.ok.inj h).symm

theorem base58Decode_injective (hs : base58Decode s=.ok data) (ht : base58Decode t=.ok data) :
    s=t := by
  obtain ⟨z,n,hstext,hsdata⟩ := base58Decode_ok hs
  obtain ⟨z',n',httext,htdata⟩ := base58Decode_ok ht
  have hvalue : ∀ z n, fromBeBytes (replicate z 0++minimalBytes n)=n := by
    intro z n
    rw [fromBeBytes_append,fromBeBytes_replicate_zero,zero_mul,zero_add,fromBeBytes_minimalBytes]
  have hn : n=n' := by rw [← hvalue z n,← hsdata,htdata,hvalue]
  subst hn
  have hz : z=z' := by simpa using congrArg length (hsdata.symm.trans htdata)
  subst hz
  exact utf8_injective (hstext.trans httext.symm)

/-! ## Any checksum -/

namespace Checksum

variable (c : Checksum) {p : Bytes}

theorem base58checkDecode_of_bytes (hp : p≠[]) (h : base58Decode s=.ok (p++c.of p)) :
    c.base58checkDecode s=.ok p := by
  have hpos := length_pos_iff.mpr hp
  have hlength : (p++c.of p).length-4=p.length := by simp
  rw [base58checkDecode,h]
  change (if (p++c.of p).length < 5 then _ else _)=_
  rw [if_neg (by simp; omega)]
  rw [hlength,take_left,drop_left,if_neg (by simp)]
  rfl

/-- A text that is read ends in the checksum of its payload. -/
theorem base58checkDecode_ok (h : c.base58checkDecode s=.ok p) :
    base58Decode s=.ok (p++c.of p) := by
  unfold base58checkDecode at h
  cases hdata : base58Decode s with
  | error e =>
    rw [hdata] at h
    cases h
  | ok data =>
    rw [hdata] at h
    by_cases hshort : data.length < 5
    · simp [hshort,bind,Except.bind,throw,throwThe,MonadExceptOf.throw] at h
    by_cases hcheck : data.drop (data.length-4)=c.of (data.take (data.length-4))
    · simp [hshort,hcheck,bind,Except.bind,pure,Except.pure] at h
      rw [← h,← hcheck,take_append_drop]
    · simp [hshort,hcheck,bind,Except.bind,throw,throwThe,MonadExceptOf.throw] at h

end Checksum

/-! ## Addresses -/

variable (sha : Sha256)

theorem accountIdOf_ok {decoded : Bytes} (h : accountIdOf decoded=.ok a) :
    decoded=0::a.asBytes := by
  unfold accountIdOf at h
  have hlength : decoded.length=21 := by
    by_contra hne
    simp [hne,bind,Except.bind,throw,throwThe,MonadExceptOf.throw] at h
  obtain ⟨b,rest,rfl⟩ := exists_cons_of_length_pos (show 0 < decoded.length by omega)
  have hrest : rest.length=20 := by simpa using hlength
  have hzero : b=0 := by
    by_contra hne
    simp [hrest,hne,bind,Except.bind,throw,throwThe,MonadExceptOf.throw] at h
  subst hzero
  have haccount : AccountId.fromSlice rest=.ok a := by
    simpa [hrest,bind,Except.bind,pure,Except.pure] using h
  simp only [AccountId.fromSlice,hrest,dite_true] at haccount
  cases haccount
  rfl

/-- The bytes of an address: the type, the account and the checksum. -/
private def addressBytes (a : AccountId) : Bytes := 0::a.asBytes++checksum sha (0::a.asBytes)

private theorem length_addressBytes (a : AccountId) : (addressBytes sha a).length=25 := by
  simp [addressBytes]

private theorem addressBytes_ne_zero (a : AccountId) : fromBeBytes (addressBytes sha a)≠0 := by
  intro h
  have hzero := eq_zero_of_fromBeBytes h
  rw [length_addressBytes,addressBytes,show 25=21+4 from rfl,replicate_add] at hzero
  obtain ⟨haccount,hcheck⟩ := append_inj hzero (by simp)
  rw [haccount] at hcheck
  exact sha.zero_account hcheck

@[simp] theorem decodeAccountId_encodeAccountId (a : AccountId) :
    decodeAccountId sha (encodeAccountId sha a)=.ok a := by
  have hpayload : sha.toChecksum.base58checkDecode (encodeAccountId sha a)=.ok (0::a.asBytes) :=
    sha.toChecksum.base58checkDecode_of_bytes (by simp)
      (base58Decode_base58Encode (addressBytes_ne_zero sha a))
  rw [decodeAccountId,hpayload]
  change (if (0::a.asBytes).length≠21 then _ else _)=_
  rw [if_neg (by simp)]
  change (if (0 : UInt8)≠0 then _ else _)=_
  rw [if_neg (by simp)]
  exact AccountId.fromSlice_asBytes a

private theorem base58Decode_of_decodeAccountId (h : decodeAccountId sha s=.ok a) :
    base58Decode s=.ok (addressBytes sha a) := by
  obtain ⟨decoded,hdecoded,ha⟩ := bind_ok h
  rw [sha.toChecksum.base58checkDecode_ok hdecoded,accountIdOf_ok ha]
  rfl

theorem decodeAccountId_injective (hs : decodeAccountId sha s=.ok a)
    (ht : decodeAccountId sha t=.ok a) : s=t :=
  base58Decode_injective (base58Decode_of_decodeAccountId sha hs)
    (base58Decode_of_decodeAccountId sha ht)

theorem length_encodeAccountId (a : AccountId) :
    0 < (utf8 (encodeAccountId sha a)).length ∧ (utf8 (encodeAccountId sha a)).length < 40 := by
  have hne := addressBytes_ne_zero sha a
  have htext : utf8 (encodeAccountId sha a)=(replicate (leadingZeros (addressBytes sha a)) 0 ++
      Numeral.digits 58 (fromBeBytes (addressBytes sha a))).map letter := utf8_base58Encode hne
  have hpos : 0 < leadingZeros (addressBytes sha a) := by simp [leadingZeros,addressBytes]
  have hsplit := congrArg length (leadingZeros_append (addressBytes sha a))
  rw [length_addressBytes,length_append,length_replicate] at hsplit
  set z := leadingZeros (addressBytes sha a)
  set n := fromBeBytes (addressBytes sha a)
  -- two bytes take at most three digits
  have hdigits : (Numeral.digits 58 n).length ≤ 3*((25-z+1)/2) := by
    apply Numeral.length_digits_le (by decide)
    calc n=fromBeBytes (minimalBytes n) := (fromBeBytes_minimalBytes n).symm
      _ < 256^(minimalBytes n).length := fromBeBytes_lt _
      _ ≤ 256^(2*((25-z+1)/2)) := Nat.pow_le_pow_right (by decide) (by omega)
      _=(256^2)^((25-z+1)/2) := pow_mul 256 2 _
      _ ≤ (58^3)^((25-z+1)/2) := Nat.pow_le_pow_left (by decide) _
      _=58^(3*((25-z+1)/2)) := (pow_mul 58 3 _).symm
  rw [htext,length_map,length_append,length_replicate]
  omega

end Rxrpl.Codec
