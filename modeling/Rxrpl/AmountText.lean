import Rxrpl.Number

/-!
# The texts of issued amounts

`parse_decimal`, `serialize_iou_value` and `decode_iou_value`. An issued amount is a
mantissa of sixteen digits and a power of ten between -96 and 80. A text that writes such a
number is read back exactly; of a longer number the serialiser keeps sixteen digits.
-/

namespace Rxrpl.Codec

open Decimal DecimalText Except List

/-- The text of bytes that were cut from a text. -/
def textOf (s : Bytes) : String := (String.fromUTF8? s.toByteArray).getD ""

/-- `str::parse::<i32>`. -/
def parseI32 (s : Bytes) : Option ℤ := (readInt s).filter fun n => decide (-2^31 ≤ n ∧ n < 2^31)

/-- The loop over the zeros at the end of the digits, which are given from the last one on. -/
def popZeros : Bytes → ℤ → Bytes × ℤ
  | d::d'::ds, e => if d=48 then popZeros (d'::ds) (wrapI32 (e+1)) else (d::d'::ds,e)
  | ds, e => (ds,e)

/-- The loop that divides a mantissa of at least `hi` by ten. -/
def scaleDown (hi : ℕ) : ℕ → ℕ → ℤ → ℕ × ℤ
  | 0, m, e => (m,e)
  | fuel+1, m, e => if m ≥ hi then scaleDown hi fuel (m/10) (wrapI32 (e+1)) else (m,e)

/-- The end of `parse_decimal`: the digits without leading zeros and their power of ten become
a mantissa of sixteen digits. -/
def normalizeDigits (digits : Bytes) (e : ℤ) : ℕ × ℤ :=
  let (reversed,e) := popZeros digits.reverse e
  let digits := reversed.reverse
  let e := if digits.length > 16 then wrapI32 (e+wrapI32 (digits.length-16)) else e
  -- at most sixteen digits, which always fit into a `u64`
  let m := natValue (digits.take 16)
  let (m,e) := scaleUp (10^15) 16 m e
  scaleDown (10^16) 4 m e

/-- The digits of a number and their power of ten; zero has the pair `(0, 0)`. -/
def fromDigits (digits : Bytes) (e : ℤ) : ℕ × ℤ :=
  match digits.dropWhile (· == 48) with
  | [] => (0,0)
  | digits => normalizeDigits digits e

def parseExponent (bad : CodecError) (s : Bytes) : Except CodecError ℤ :=
  match s.dropWhile (!isExponentMark ·) with
  | [] => .ok 0
  | _::e => match parseI32 e with
    | some n => .ok n
    | none => .error bad

def parseDecimal (s : Bytes) : Except CodecError (ℕ × ℤ) :=
  let shown := textOf s
  let bad := CodecError.unsupportedType s!"invalid decimal: {shown}"
  let num := s.takeWhile (!isExponentMark ·)
  let integerPart := (splitPoint num).1
  let decimalPart := (splitPoint num).2
  parseExponent bad s >>= fun sciExp =>
    if num.count 46 > 1 then .error bad
    else if !integerPart.all isDigit || !decimalPart.all isDigit then .error bad
    else .ok (fromDigits (integerPart++decimalPart) (wrapI32 (sciExp-wrapI32 decimalPart.length)))

/-- The word of an issued amount, from its sign, power of ten and mantissa. -/
def iouWord (negative : Bool) (exponent : ℤ) (mantissa : ℕ) : ℕ :=
  let signBit := if negative then 0 else 1 <<< 62
  let expBits := ((exponent+97) % 256).toNat <<< 54
  let mantissaBits := mantissa &&& 0x003FFFFFFFFFFFFF
  0x8000000000000000 ||| signBit ||| expBits ||| mantissaBits

def serializeIouValue (valueStr : String) : Except CodecError Bytes :=
  if valueStr="0" ∨ valueStr="0.0" then .ok (toBeBytes 8 0x8000000000000000)
  else
    let bytes := utf8 valueStr
    let negative := bytes.head? == some 45
    parseDecimal (if negative then bytes.tail else bytes) >>= fun (mantissa,exponent) =>
      if mantissa≠0 ∧ ¬(-96 ≤ exponent ∧ exponent ≤ 80) then
        .error (.unsupportedType s!"IOU amount exponent {exponent} out of range [-96, 80]")
      else .ok (toBeBytes 8 (iouWord negative exponent mantissa))

def pointText (mantissa : ℕ) (exponent : ℤ) : Bytes :=
  let s := natText mantissa
  if exponent=0 then s
  else if exponent > 0 then s++List.replicate exponent.toNat 48
  else
    let decimalPos := (s.length : ℤ)+exponent
    if decimalPos ≤ 0 then 48::46::List.replicate (-decimalPos).toNat 48++s
    else
      let integer := s.take decimalPos.toNat
      let decimal := s.drop decimalPos.toNat
      if decimal=[] then integer else integer++46::decimal

def decodeIouValue (raw : ℕ) : Except CodecError Bytes :=
  let positive := decide (raw &&& 0x4000000000000000≠0)
  let exponent : ℤ := ((raw >>> 54) &&& 0xFF : ℕ)-97
  let mantissa := raw &&& 0x003FFFFFFFFFFFFF
  if mantissa=0 then .ok [48]
  else if ¬(10^15 ≤ mantissa ∧ mantissa ≤ 10^16-1) ∨ ¬(-96 ≤ exponent ∧ exponent ≤ 80) then
    .error (.unsupportedType s!"non-canonical IOU amount: mantissa={mantissa} exponent={exponent}")
  else .ok (trimPoint (signText (!positive)++pointText mantissa exponent))

/-! ## Normalising -/

theorem popZeros_spec {l : Bytes} (hne : l≠[]) (x : ℤ) :
    ∃ (k : ℕ) (r : Bytes), popZeros l (wrapI32 x)=(r,wrapI32 (x+k)) ∧ l=replicate k 48++r ∧
      r≠[] := by
  induction l generalizing x with
  | nil => exact absurd rfl hne
  | cons d l ih =>
    cases l with
    | nil => exact ⟨0,[d],by simp [popZeros],rfl,by simp⟩
    | cons d' l =>
      rw [popZeros]
      split
      · rename_i hd
        obtain ⟨k,r,hpop,hl,hr⟩ := ih (by simp) (x+1)
        refine ⟨k+1,r,?_,?_,hr⟩
        · rw [wrapI32_add,hpop]
          congr 2
          push_cast
          ring
        · rw [hd,hl,replicate_succ,cons_append]
      · exact ⟨0,d::d'::l,by simp,rfl,by simp⟩

variable {digits s t : Bytes} {e x : ℤ} {m raw : ℕ} {q : ℚ} {r : ℕ × ℤ}

/-- The digits of a number become its first sixteen. -/
theorem normalizeDigits_eq (hdigits : ∀ c∈digits, isDigit c) (hne : digits≠[])
    (hhead : digits.head?≠some 48) (h : Leads 15 (natValue digits*10^x) m e) :
      normalizeDigits digits (wrapI32 x)=(m,wrapI32 e) := by
  obtain ⟨k,r,hpop,hl,hr⟩ := popZeros_spec (l := digits.reverse) (by simpa using hne) x
  obtain ⟨kept,hkept⟩ : ∃ kept, kept=r.reverse := ⟨_,rfl⟩
  obtain rfl : digits=kept++replicate k 48 := by
    rw [← reverse_reverse digits,hl,reverse_append,reverse_replicate,hkept]
  replace hdigits : ∀ c∈kept, isDigit c := fun c hc => hdigits c (mem_append_left _ hc)
  replace hne : kept≠[] := by simpa [hkept] using hr
  have hfirst : ∀ n, (kept.take (n+1)).head?≠some 48 := by
    intro n hn
    rw [head?_take,if_neg (by omega)] at hn
    exact hhead (by rw [head?_append,hn]; rfl)
  have hvalue : (natValue (kept++replicate k 48) : ℚ)*10^x=natValue kept*10^(x+k) := by
    rw [natValue_append_zeros,zpow_add₀ (by norm_num),zpow_natCast]
    push_cast
    ring
  rw [hvalue] at h
  rw [normalizeDigits,hpop]
  dsimp only
  rw [← hkept]
  rcases le_or_gt kept.length 16 with hlen | hlen
  · -- zeros are added
    have hlt : natValue kept < 10^(15+1) :=
      (natValue_lt hdigits).trans_le (Nat.pow_le_pow_right (by decide) hlen)
    have hpos : 0 < natValue kept := by
      refine lt_of_lt_of_le (by positivity) (pow_le_natValue hdigits hne ?_)
      have := hfirst 15
      rwa [take_of_length_le hlen] at this
    obtain ⟨j,hj,hleads⟩ := exists_leads hpos hlt (x+k)
    obtain ⟨rfl,rfl⟩ := h.unique hleads
    have hlt := hleads.lt
    rw [if_neg (by omega),take_of_length_le hlen,scaleUp_eq hleads.ge hlt rfl (by omega)]
    dsimp only
    rw [scaleDown,if_neg (by omega)]
  · -- the digits behind the sixteenth are dropped
    have hlow := pow_le_natValue (s := kept.take 16) (fun c hc => hdigits c (mem_of_mem_take hc))
      (by simpa using hne)
      (hfirst 15)
    have hhigh := natValue_lt fun c (hc : c∈kept.take 16) => hdigits c (mem_of_mem_take hc)
    rw [length_take,min_eq_left hlen.le,natValue_take hdigits,length_drop] at hlow hhigh
    obtain ⟨rfl,rfl⟩ := h.unique (leads_div hlow hhigh (x+k))
    rw [if_pos hlen,wrapI32_add_wrapI32,natValue_take hdigits,length_drop,scaleUp,if_neg (by omega)]
    dsimp only
    rw [scaleDown,if_neg (by omega),Nat.cast_sub hlen.le]
    rfl

theorem readExponent_of_parseExponent {bad : CodecError} {n : ℤ} (h : parseExponent bad s=.ok n) :
    readExponent s=some n := by
  rw [parseExponent] at h
  rw [readExponent]
  cases he : s.dropWhile (!isExponentMark ·) with
  | nil =>
    rw [he] at h
    exact congrArg some (ok.inj h)
  | cons c e =>
    rw [he] at h
    dsimp only at h
    split at h
    · rename_i n' hp
      cases h
      exact (Option.filter_eq_some_iff.mp hp).1
    · cases h

theorem parseDecimal_eq_ok (h : parseDecimal s=.ok r) :
    ∃ w f n, splitPoint (s.takeWhile (!isExponentMark ·))=(w,f) ∧ readExponent s=some n ∧
      (∀ c∈w++f, isDigit c) ∧ r=fromDigits (w++f) (wrapI32 (n-(f.length : ℤ))) := by
  obtain ⟨w,f,hsplit⟩ : ∃ w f, splitPoint (s.takeWhile (!isExponentMark ·))=(w,f) := ⟨_,_,rfl⟩
  simp only [parseDecimal,hsplit] at h
  obtain ⟨n,hexp,h⟩ := bind_ok h
  split_ifs at h with _ hdigits
  simp only [Bool.or_eq_true,Bool.not_eq_true',not_or,Bool.not_eq_false,all_eq_true] at hdigits
  refine ⟨w,f,n,hsplit,readExponent_of_parseExponent hexp,?_,?_⟩
  · intro c hc
    exact (mem_append.mp hc).elim (hdigits.1 c) (hdigits.2 c)
  · rw [sub_wrapI32] at h
    exact (ok.inj h).symm

theorem fromDigits_zero (hdigits : ∀ c∈digits, isDigit c) (h : natValue digits=0) (e : ℤ) :
    fromDigits digits e=(0,0) := by
  rw [fromDigits,(dropWhile_zeros_eq_nil hdigits).mpr h]

theorem fromDigits_of_leads (hdigits : ∀ c∈digits, isDigit c)
    (h : Leads 15 (natValue digits*10^x) m e) : fromDigits digits (wrapI32 x)=(m,wrapI32 e) := by
  rw [← natValue_dropWhile] at h
  have hsub : ∀ c∈digits.dropWhile (· == 48), isDigit c := fun c hc =>
    hdigits c ((dropWhile_sublist _).subset hc)
  have hhead := dropWhile_zeros_head? digits
  rw [fromDigits]
  cases hd : digits.dropWhile (· == 48) with
  | nil =>
    have hpos := h.pos
    rw [hd] at hpos
    simp [natValue] at hpos
  | cons c s =>
    rw [hd] at h hsub hhead
    exact normalizeDigits_eq hsub (by simp) hhead h

/-! ## The word of an amount -/

theorem and_two_pow_ne_zero_iff (n k : ℕ) : n &&& 2^k≠0 ↔ n/2^k % 2=1 := by
  have hand : n &&& 2^k=if n.testBit k then 2^k else 0 := by
    apply Nat.eq_of_testBit_eq
    intro i
    rw [Nat.testBit_and,Nat.testBit_two_pow]
    by_cases hi : k=i
    · subst hi
      split <;> simp_all
    · split <;> simp [hi]
  rw [hand,Nat.testBit_eq_decide_div_mod_eq]
  by_cases h : n/2^k % 2=1 <;> simp [h]

theorem iouWord_eq (negative : Bool) (he : -97 ≤ e) (he' : e ≤ 158) (hm : m < 2^54) :
    iouWord negative e m=2^63+(if negative then 0 else 2^62)+(e+97).toNat*2^54+m := by
  have hexp : ((e+97) % 256).toNat=(e+97).toNat := by rw [Int.emod_eq_of_lt (by omega) (by omega)]
  have hmask : m &&& 0x003FFFFFFFFFFFFF=m := by
    rw [show 0x003FFFFFFFFFFFFF=2^54-1 from rfl,Nat.and_two_pow_sub_one_eq_mod,Nat.mod_eq_of_lt hm]
  have hexp' : (e+97).toNat < 256 := by omega
  set x := (e+97).toNat
  -- the four parts share no bit
  have hsign : 2^63 ||| (if negative then 0 else 2^62)=2^62*(if negative then 2 else 3) := by
    cases negative <;> rfl
  have hor :
    2^62*(if negative then 2 else 3) ||| x*2^54=2^54*(2^8*(if negative then 2 else 3)+x) := by
    rw [← Nat.two_pow_add_eq_or_of_lt (by omega)]
    ring
  rw [iouWord,hexp,hmask]
  simp only [Nat.shiftLeft_eq,one_mul]
  change 2^63 ||| (if negative then 0 else 2^62) ||| x*2^54 ||| m=_
  rw [hsign,hor,← Nat.two_pow_add_eq_or_of_lt hm]
  cases negative <;> simp <;> omega

/-- The parser and `to_decimal_string` write one text. -/
theorem trimPoint_pointText (negative : Bool) (hm : m≠0) (e : ℤ) :
    trimPoint (signText negative++pointText m e)=IOUAmount.toDecimalString ⟨m,e,negative⟩ := by
  have hdigits : ∀ c∈natText m, isDigit c := fun c hc => isDigit_of_mem_natText hc
  have hzeros : ∀ k, ∀ c∈replicate k (48 : UInt8), isDigit c := by
    intro k c hc
    rw [eq_of_mem_replicate hc]
    exact isDigit_zero
  have hne := natText_ne_nil m
  have hlast := natText_rdropWhile_ne_nil hm
  rw [pointText,IOUAmount.toDecimalString,IOUAmount.isZero,beq_eq_false_iff_ne.mpr hm,
    if_neg Bool.false_ne_true]
  dsimp only
  generalize natText m=s at hdigits hne hlast ⊢
  rcases lt_or_ge e 0 with he | he
  · rw [if_neg he.ne,if_neg (not_lt.mpr he.le),if_neg (not_le.mpr he)]
    rcases le_or_gt ((s.length : ℤ)+e) 0 with hpos | hpos
    · rw [if_pos hpos,if_pos (by omega),show (-((s.length : ℤ)+e)).toNat=(-e).toNat-s.length by
        omega]
      have htrim := trimPoint_point negative (s := [48]) (by simp) (by simp [isDigit_zero])
        (t := replicate ((-e).toNat-s.length) 48++s) fun c hc =>
          (mem_append.mp hc).elim (hzeros _ c) (hdigits c)
      rw [if_neg (by rw [rdropWhile_append_of_ne_nil hlast]; simp [hlast])] at htrim
      exact htrim
    · have hpoint : ((s.length : ℤ)+e).toNat=s.length-(-e).toNat := by omega
      have hdrop : s.drop (s.length-(-e).toNat)≠[] := by
        rw [Ne,drop_eq_nil_iff]
        omega
      have htake : s.take (s.length-(-e).toNat)≠[] := by
        rw [Ne,take_eq_nil_iff,not_or]
        exact ⟨by omega,hne⟩
      rw [if_neg (not_le.mpr hpos),hpoint,if_neg hdrop,if_neg (by omega)]
      exact trimPoint_point negative htake (fun c hc => hdigits c (mem_of_mem_take hc)) fun c hc =>
        hdigits c (mem_of_mem_drop hc)
  · rw [if_pos he]
    rcases he.eq_or_lt with rfl | hpos
    · simpa using trimPoint_digits negative hdigits
    · rw [if_neg hpos.ne',if_pos hpos]
      exact trimPoint_digits negative fun c hc => (mem_append.mp hc).elim (hdigits c) (hzeros _ c)

theorem read_zero : read [48]=some 0 := by
  have := read_digits false (s := [48]) (by simp) (by simp [isDigit_zero])
  simpa [signText,signed,natValue,digitValue] using this

theorem read_toDecimalString (a : IOUAmount) : read a.toDecimalString=some a.value := by
  by_cases hm : a.mantissa=0
  · rw [IOUAmount.toDecimalString,if_pos (show a.isZero=true by simp [IOUAmount.isZero,hm]),
      read_zero,IOUAmount.value,hm]
    simp [signed]
  · have hzero : a.isZero=false := by simpa [IOUAmount.isZero] using hm
    have hzero' : Number.isZero ⟨a.negative,a.mantissa,a.exponent⟩=false := hzero
    have hsame : a.toDecimalString=Number.toDecimalString ⟨a.negative,a.mantissa,a.exponent⟩ := by
      rw [IOUAmount.toDecimalString,Number.toDecimalString,hzero,hzero']
      dsimp only
      rw [rdropWhile_append_of_ne_nil (natText_rdropWhile_ne_nil hm)]
      split_ifs <;> rfl
    rw [hsame,Number.read_toDecimalString]
    rfl

theorem decodeIouValue_zero (h : raw % 2^54=0) : decodeIouValue raw=.ok [48] := by
  have hmask : raw &&& 0x003FFFFFFFFFFFFF=raw % 2^54 := Nat.and_two_pow_sub_one_eq_mod raw 54
  rw [decodeIouValue,hmask,if_pos h]

theorem decodeIouValue_iouWord {negative : Bool} (hm : 10^15 ≤ m) (hm' : m < 10^16) (he : -96 ≤ e)
    (he' : e ≤ 80) :
    decodeIouValue (iouWord negative e m)=.ok (IOUAmount.toDecimalString ⟨m,e,negative⟩) := by
  have hword := iouWord_eq negative (e := e) (m := m) (by omega) (by omega) (by omega)
  set raw := iouWord negative e m
  have hmask : raw &&& 0x003FFFFFFFFFFFFF=m := by
    rw [show 0x003FFFFFFFFFFFFF=2^54-1 from rfl,Nat.and_two_pow_sub_one_eq_mod]
    cases negative <;> simp at hword <;> omega
  have hexp : (((raw >>> 54) &&& 0xFF : ℕ) : ℤ)-97=e := by
    rw [show 0xFF=2^8-1 from rfl,Nat.and_two_pow_sub_one_eq_mod,Nat.shiftRight_eq_div_pow]
    cases negative <;> simp at hword <;> omega
  have hsign : decide (raw &&& 0x4000000000000000≠0)=!negative := by
    have hbit : raw &&& 0x4000000000000000≠0 ↔ raw/2^62 % 2=1 := and_two_pow_ne_zero_iff raw 62
    cases negative with
    | true =>
      have hzero : ¬ raw/2^62 % 2=1 := by simp at hword; omega
      exact decide_eq_false fun hne => hzero (hbit.mp hne)
    | false =>
      have hone : raw/2^62 % 2=1 := by simp at hword; omega
      exact decide_eq_true (hbit.mpr hone)
  rw [decodeIouValue,hmask,hexp,hsign,if_neg (by omega),if_neg (by omega),Bool.not_not,
    trimPoint_pointText negative (by omega)]

theorem decodeIouValue_cases (h : decodeIouValue raw=.ok t) : ∃ a : IOUAmount, a.Canonical ∧
    t=a.toDecimalString := by
  rw [decodeIouValue] at h
  split_ifs at h with hzero <;> cases h
  · exact ⟨.zero,Or.inl rfl,rfl⟩
  · refine ⟨_,Or.inr ⟨?_,?_,?_,?_⟩,trimPoint_pointText _ hzero _⟩ <;> dsimp only <;> omega

theorem read_decodeIouValue (h : decodeIouValue raw=.ok t) : ∃ q, read t=some q ∧ IouFits q := by
  obtain ⟨a,ha,rfl⟩ := decodeIouValue_cases h
  exact ⟨a.value,read_toDecimalString a,ha.fits⟩

theorem decodeIouValue_unique {raw' : ℕ} {t' : Bytes} (h : decodeIouValue raw=.ok t)
    (h' : decodeIouValue raw'=.ok t') (hread : read t=read t') : t=t' := by
  obtain ⟨a,ha,rfl⟩ := decodeIouValue_cases h
  obtain ⟨b,hb,rfl⟩ := decodeIouValue_cases h'
  rw [read_toDecimalString,read_toDecimalString,Option.some.injEq] at hread
  rw [ha.eq_of_value hb hread]

theorem splitSign_of_parseDecimal
    (h : parseDecimal (if s.head? == some 45 then s.tail else s)=.ok r) :
    splitSign s=(s.head? == some 45,if s.head? == some 45 then s.tail else s) := by
  cases s with
  | nil => rfl
  | cons c s =>
    by_cases hminus : c=45
    · simp [hminus,splitSign]
    have hhead : ((c::s).head? == some 45)=false := by simpa using hminus
    rw [hhead] at h ⊢
    have hplus : c≠43 := by
      -- the plus would stand before the point, where only digits are accepted
      rintro rfl
      obtain ⟨w,f,n,hsplit,-,hdigits,-⟩ := parseDecimal_eq_ok h
      have hw : 43∈w := by
        have hfirst : w=_ := (congrArg Prod.fst hsplit).symm
        rw [hfirst]
        simp [splitPoint,isExponentMark]
      exact absurd (hdigits 43 (mem_append_left _ hw)) (by decide)
    simp [splitSign,hminus,hplus]

variable {bs : Bytes} {p : Parts} {valueStr : String}

/-- The word of an accepted text: of its first sixteen digits, or of zero. -/
theorem serializeIouValue_cases (h : serializeIouValue valueStr=.ok bs)
    (hp : parts (utf8 valueStr)=some p) : (∀ m e, Leads 15 p.magnitude m e →
      -96 ≤ wrapI32 e ∧ wrapI32 e ≤ 80 ∧ bs=toBeBytes 8 (iouWord p.negative (wrapI32 e) m)) ∧
    (p.magnitude=0 → bs=toBeBytes 8 (if valueStr="0" ∨ valueStr="0.0" then 0x8000000000000000
      else iouWord p.negative 0 0)) := by
  rw [serializeIouValue] at h
  split_ifs at h with hzero
  · have hmag : p.magnitude=0 := by
      have hdigits : p.digits=[] := by
        have hread : (parts (utf8 valueStr)).map Parts.digits=some [] := by
          rcases hzero with rfl | rfl <;> decide
        rw [hp] at hread
        exact Option.some.inj hread
      exact (digits_eq_nil_iff hp).mp hdigits
    refine ⟨fun m e hleads => absurd hmag hleads.pos.ne',fun _ => ?_⟩
    rw [if_pos hzero]
    exact (ok.inj h).symm
  · obtain ⟨r,hparse,h⟩ := bind_ok h
    have hsign := splitSign_of_parseDecimal hparse
    obtain ⟨w,f,n,hsplit,hexp,hdigits,hr⟩ := parseDecimal_eq_ok hparse
    -- the parts of the text are those that the serialiser sees
    obtain rfl : p=⟨(utf8 valueStr).head? == some 45,w,f,n⟩ := by
      simp only [parts,hsign,hsplit,hexp] at hp
      split_ifs at hp
      exact (Option.some.inj hp).symm
    refine ⟨fun m e hleads => ?_,fun hmag => ?_⟩
    · rw [hr.trans (fromDigits_of_leads hdigits hleads)] at h
      have hm := hleads.ge
      dsimp only at h
      split_ifs at h with hrange
      rw [not_and_not_right] at hrange
      obtain ⟨he,he'⟩ := hrange (by omega)
      exact ⟨he,he',(ok.inj h).symm⟩
    · have hvalue : natValue (w++f)=0 :=
        (dropWhile_zeros_eq_nil hdigits).mp ((digits_eq_nil_iff hp).mpr hmag)
      rw [hr.trans (fromDigits_zero hdigits hvalue _)] at h
      rw [if_neg hzero]
      exact (ok.inj h).symm

theorem iouWord_zero (negative : Bool) : iouWord negative 0 0=if negative then 0x9840000000000000
    else 0xD840000000000000 := by
  cases negative <;> decide

/-- What the parser reads back from the word of an accepted text. -/
theorem serializeIouValue_decodes (h : serializeIouValue valueStr=.ok bs)
    (hp : parts (utf8 valueStr)=some p) :
    ∃ (raw : ℕ) (a : IOUAmount), bs=toBeBytes 8 raw ∧ 2^63 ≤ raw ∧ raw < 2^64 ∧
      decodeIouValue raw=.ok a.toDecimalString ∧
      (p.magnitude=0 ∧ a=.zero ∨ ∃ m e, Leads 15 p.magnitude m e ∧ -96 ≤ wrapI32 e ∧
        wrapI32 e ≤ 80 ∧
        a=⟨m,wrapI32 e,p.negative⟩) := by
  obtain ⟨hword,hzero⟩ := serializeIouValue_cases h hp
  rcases (magnitude_nonneg p).eq_or_lt with hmag | hmag
  · refine ⟨_,.zero,hzero hmag.symm,?_,?_,decodeIouValue_zero ?_,Or.inl ⟨hmag.symm,rfl⟩⟩ <;>
      rw [iouWord_zero] <;> split_ifs <;> norm_num
  · obtain ⟨m,e,hleads⟩ := exists_leads_of_pos hmag 15
    obtain ⟨he,he',rfl⟩ := hword m e hleads
    have hlt := hleads.lt
    have heq := iouWord_eq p.negative (e := wrapI32 e) (m := m) (by omega) (by omega) (by omega)
    refine ⟨_,⟨m,wrapI32 e,p.negative⟩,rfl,?_,?_,decodeIouValue_iouWord hleads.ge hlt he he',
      Or.inr ⟨m,e,hleads,he,he',rfl⟩⟩ <;> rw [heq] <;> cases p.negative <;> simp <;> omega

/-- The text of an issued amount is written as a word that is read back as the same number. -/
theorem serializeIouValue_spec (h : serializeIouValue valueStr=.ok bs)
    (hread : read (utf8 valueStr)=some q) (hq : IouFits q) :
    ∃ raw t, bs=toBeBytes 8 raw ∧ 2^63 ≤ raw ∧ raw < 2^64 ∧ decodeIouValue raw=.ok t ∧
      read t=some q := by
  obtain ⟨p,hp,rfl⟩ := Option.map_eq_some_iff.mp hread
  obtain ⟨raw,a,hbs,hlow,hhigh,hdecode,ha⟩ := serializeIouValue_decodes h hp
  refine ⟨raw,_,hbs,hlow,hhigh,hdecode,?_⟩
  rw [read_toDecimalString,Option.some.injEq]
  rcases ha with ⟨hmag,rfl⟩ | ⟨m,e,hleads,-,-,rfl⟩
  · rw [IOUAmount.zero_value,hmag]
    simp [signed]
  · rcases hq with hq | ⟨n,f,hn,hn',hf,hf',hq⟩
    · rw [← abs_eq_zero,abs_signed,abs_eq_zero] at hq
      exact absurd hq hleads.pos.ne'
    · rw [abs_signed,abs_of_pos hleads.pos] at hq
      obtain ⟨rfl,rfl⟩ := hleads.unique (hq ▸ leads_self hn hn' f)
      rw [IOUAmount.value,hq,wrapI32_of_range (by omega) (by omega)]

/-! ## One word for one number -/

/-- A text that both readers accept writes a number. -/
theorem parts_of_accepted {a : IOUAmount} (h : serializeIouValue valueStr=.ok bs)
    (h' : IOUAmount.fromDecimalString valueStr=.ok a) : ∃ p, parts (utf8 valueStr)=some p := by
  rw [serializeIouValue] at h
  split_ifs at h with hzero
  · rcases hzero with rfl | rfl <;> exact Option.isSome_iff_exists.mp (by decide)
  obtain ⟨r,hparse,-⟩ := bind_ok h
  have hsign := splitSign_of_parseDecimal hparse
  obtain ⟨w,f,n,hsplit,hexp,hdigits,-⟩ := parseDecimal_eq_ok hparse
  have htrim := IOUAmount.trim_of_decimal fun c hc =>
    isDecimalChar_of_split hsign hsplit hexp hdigits hc
  have hplain := IOUAmount.plain_of_fromDecimalString h'
  rw [htrim] at hplain
  by_cases hne : w++f=[]
  · -- with neither digits nor a power of ten, at most a sign and a point are left
    exfalso
    obtain ⟨rfl,rfl⟩ := append_eq_nil_iff.mp hne
    rw [IOUAmount.fromDecimalString,htrim] at h'
    generalize utf8 valueStr=bytes at hplain hsplit h'
    have hrest : bytes.dropWhile (fun c => c == 45 || c == 43)=[] ∨
      bytes.dropWhile (fun c => c == 45 || c == 43)=[46] := by
      have hbody : ∀ body : Bytes, (∀ c∈body, isExponentMark c=false) →
          splitPoint (body.takeWhile (!isExponentMark ·))=([],[]) → body=[] ∨ body=[46] := by
        intro body hbody hsplit
        rw [takeWhile_eq_self_iff.mpr (by simpa using hbody)] at hsplit
        have := splitPoint_cases body
        rw [hsplit] at this
        exact this.imp_left And.left
      cases bytes with
      | nil => exact Or.inl rfl
      | cons c bytes =>
        by_cases hc : c=45
        · rw [hc] at hsplit ⊢
          rcases hbody bytes (fun c hc => hplain c (mem_cons_of_mem _ hc)) hsplit with rfl | rfl
          exacts [Or.inl rfl,Or.inr rfl]
        · have hhead : ((c::bytes).head? == some 45)=false := by simpa using hc
          rw [hhead] at hsplit
          obtain hnil | hpoint := hbody _ hplain hsplit
          · cases hnil
          · rw [hpoint]
            exact Or.inr rfl
    rcases hrest with hrest | hrest <;> rw [hrest] at h' <;> cases h'
  · refine ⟨⟨(utf8 valueStr).head? == some 45,w,f,n⟩,?_⟩
    simp only [parts,hsign,hsplit,hexp]
    rw [if_pos ⟨hne,all_eq_true.mpr hdigits⟩]
    rfl

/-- How a zero is written: as one of the two texts that the serialiser looks for, or with or without
a minus. -/
def zeroSpelling (valueStr : String) : Option Bool :=
  if valueStr="0" ∨ valueStr="0.0" then none else some ((utf8 valueStr).head? == some 45)

/-- The word of a zero. -/
def zeroWord : Option Bool → ℕ
  | none => 0x8000000000000000
  | some negative => if negative then 0x9840000000000000 else 0xD840000000000000

theorem zeroWord_bytes : ∀ z z' : Option Bool, toBeBytes 8 (zeroWord z)=toBeBytes 8 (zeroWord z') ↔
    z=z' := by
  decide

theorem serializeIouValue_zero (h : serializeIouValue valueStr=.ok bs)
    (hread : read (utf8 valueStr)=some 0) : bs=toBeBytes 8 (zeroWord (zeroSpelling valueStr)) := by
  obtain ⟨p,hp,hq⟩ := Option.map_eq_some_iff.mp hread
  obtain ⟨body,hsign,-⟩ := parts_eq_some hp
  rw [← abs_eq_zero,abs_signed,abs_eq_zero] at hq
  rw [(serializeIouValue_cases h hp).2 hq,zeroSpelling,iouWord_zero,
    (IOUAmount.dropWhile_sign_of_parts hp hsign).1]
  split <;> rfl

/-- Two texts of one number have one word, unless it is zero and they write it in two ways; a zero
has the word of zero when it is written as `0` or `0.0`; and the word of a text is shown as the
amount that it is parsed to. -/
theorem one_word_iff (s : String) (bs : Bytes) (h : serializeIouValue s=.ok bs) :
    (∀ s' bs' q, serializeIouValue s'=.ok bs' → read (utf8 s)=some q → read (utf8 s')=some q →
      (bs=bs' ↔ q≠0 ∨ zeroSpelling s=zeroSpelling s')) ∧
    (read (utf8 s)=some 0 → (bs=toBeBytes 8 0x8000000000000000 ↔ s="0" ∨ s="0.0")) ∧
    ∀ a, IOUAmount.fromDecimalString s=.ok a →
      ∃ raw < 2^64, bs=toBeBytes 8 raw ∧ decodeIouValue raw=.ok a.toDecimalString := by
  refine ⟨fun s' bs' q h' hread hread' => ?_,fun hread => ?_,fun a h' => ?_⟩
  · by_cases hq : q=0
    · subst hq
      rw [serializeIouValue_zero h hread,serializeIouValue_zero h' hread',zeroWord_bytes]
      simp
    · refine iff_of_true ?_ (Or.inl hq)
      obtain ⟨p,hp,hpq⟩ := Option.map_eq_some_iff.mp hread
      obtain ⟨p',hp',hpq'⟩ := Option.map_eq_some_iff.mp hread'
      obtain ⟨hnegative,hmag⟩ :=
        signed_inj (magnitude_nonneg p) (magnitude_nonneg p') (hpq ▸ hq) (hpq.trans hpq'.symm)
      have hpos : 0 < p.magnitude := (magnitude_nonneg p).lt_of_ne fun hzero =>
        hq (by rw [← hpq,← hzero]; simp [signed])
      obtain ⟨m,e,hleads⟩ := exists_leads_of_pos hpos 15
      rw [((serializeIouValue_cases h hp).1 m e hleads).2.2,
        ((serializeIouValue_cases h' hp').1 m e (hmag ▸ hleads)).2.2,
        hnegative]
  · rw [serializeIouValue_zero h hread]
    exact (zeroWord_bytes _ none).trans (by simp [zeroSpelling,or_iff_not_imp_left])
  · obtain ⟨p,hp⟩ := parts_of_accepted h h'
    obtain ⟨raw,b,hbs,-,hraw,hdecode,hb⟩ := serializeIouValue_decodes h hp
    have htrim := IOUAmount.trim_of_parts hp
    have hplain := IOUAmount.plain_of_fromDecimalString h'
    refine ⟨raw,hraw,hbs,?_⟩
    rw [← htrim] at hp
    obtain rfl : b=a := by
      rcases hb with ⟨hmag,rfl⟩ | ⟨m,e,hleads,he,he',rfl⟩
      · rw [(IOUAmount.fromDecimalString_eq hp hplain).2,if_pos ((digits_eq_nil_iff hp).mpr hmag)]
          at h'
        exact ok.inj h'
      · rw [IOUAmount.fromDecimalString_of_leads hp hplain hleads he he'] at h'
        exact ok.inj h'
    exact hdecode

theorem one_and_a_half_two_ways : ∃ bs bs', serializeIouValue "1.50"=.ok bs ∧
    serializeIouValue "0015e-1"=.ok bs' ∧
    bs=bs' := by
  have hread : read (utf8 "1.50")=some (3/2) := by decide +kernel
  have hread' : read (utf8 "0015e-1")=some (3/2) := by decide +kernel
  have hbs : serializeIouValue "1.50"=.ok (toBeBytes 8 0xD485543DF729C000) := by decide +kernel
  have hbs' : serializeIouValue "0015e-1"=.ok (toBeBytes 8 0xD485543DF729C000) := by decide +kernel
  exact ⟨_,_,hbs,hbs',((one_word_iff _ _ hbs).1 _ _ _ hbs' hread hread').mpr (Or.inl (by norm_num))⟩

/-- A zero with a point and two zeros behind it is not the zero of the wire. -/
theorem zero_with_other_word : serializeIouValue "0"=.ok (toBeBytes 8 0x8000000000000000) ∧
    serializeIouValue "0.00"=.ok (toBeBytes 8 0xD840000000000000) ∧
    serializeIouValue "-0"=.ok (toBeBytes 8 0x9840000000000000) := by
  decide

end Rxrpl.Codec
