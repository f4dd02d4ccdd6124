import Rxrpl.DecimalText
import Rxrpl.Json
import Rxrpl.Wire

/-!
# Issued amounts

`IOUAmount` and the decimal texts of `from_decimal_string`. The value of a canonical amount
is a mantissa of sixteen digits times a power of ten between -96 and 80, or zero; `IouFits`
says that a rational is such a value.
-/

namespace Rxrpl

open Decimal DecimalText List

def wrapI32 (x : ℤ) : ℤ := x.bmod (2^32)

theorem wrapI32_of_range {x : ℤ} (h : -2^31 ≤ x) (h' : x < 2^31) : wrapI32 x=x :=
  Int.bmod_eq_of_le (by simpa using h) (by omega)

theorem wrapI32_add (x y : ℤ) : wrapI32 (wrapI32 x+y)=wrapI32 (x+y) := Int.bmod_add_bmod

theorem wrapI32_sub (x y : ℤ) : wrapI32 (wrapI32 x-y)=wrapI32 (x-y) := Int.bmod_sub_bmod

theorem sub_wrapI32 (x y : ℤ) : wrapI32 (x-wrapI32 y)=wrapI32 (x-y) := Int.sub_bmod_bmod

theorem wrapI32_add_wrapI32 (x y : ℤ) : wrapI32 (wrapI32 x+wrapI32 y)=wrapI32 (x+y) := by
  rw [wrapI32_add,wrapI32,wrapI32,Int.add_bmod_bmod]
  rfl

/-- The loop that multiplies a mantissa below `lo` by ten. -/
def scaleUp (lo : ℕ) : ℕ → ℕ → ℤ → ℕ × ℤ
  | 0, m, e => (m,e)
  | fuel+1, m, e => if m < lo then scaleUp lo fuel (m*10) (wrapI32 (e-1)) else (m,e)

inductive AmountError
  | overflow
deriving DecidableEq

structure IOUAmount where
  mantissa : ℕ
  exponent : ℤ
  negative : Bool
deriving DecidableEq

namespace IOUAmount

def zero : IOUAmount := ⟨0,-100,false⟩

def isZero (a : IOUAmount) : Bool := a.mantissa == 0

/-- The loop of `normalize` that divides a mantissa of more than sixteen digits. -/
def reduce : ℕ → ℕ → ℤ → Except AmountError (ℕ × ℤ)
  | 0, m, e => .ok (m,e)
  | fuel+1, m, e =>
    if m > 10^16-1 then
      if e ≥ 80 then .error .overflow else reduce fuel (m/10) (wrapI32 (e+1))
    else .ok (m,e)

/-- `normalize`; a mantissa is a `u64`, so its loops take at most sixteen and four steps. -/
def normalize (a : IOUAmount) : Except AmountError IOUAmount :=
  if a.mantissa=0 then .ok zero
  else
    let scaled := scaleUp (10^15) 16 a.mantissa a.exponent
    reduce 4 scaled.1 scaled.2 >>= fun r =>
      if r.2 < -96 then .ok zero
      else if r.2 > 80 then .error .overflow
      else .ok ⟨r.1,r.2,a.negative⟩

def fromParts (mantissa : ℕ) (exponent : ℤ) (negative : Bool) : Except AmountError IOUAmount :=
  normalize ⟨mantissa,exponent,negative⟩

def isWhiteSpace (c : Char) : Bool :=
  let n := c.toNat
  (9 ≤ n && n ≤ 13) || n == 0x20 || n == 0x85 || n == 0xA0 || n == 0x1680 ||
    (0x2000 ≤ n && n ≤ 0x200A) ||
    n == 0x2028 || n == 0x2029 || n == 0x202F || n == 0x205F || n == 0x3000

def trim (s : String) : String :=
    String.ofList ((s.toList.dropWhile isWhiteSpace).rdropWhile isWhiteSpace)

def fromDecimalString (s : String) : Except AmountError IOUAmount :=
  let bytes := utf8 (trim s)
  let negative := bytes.head? == some 45
  let body := bytes.dropWhile fun c => c == 45 || c == 43
  let intPart := (splitPoint body).1
  let fracPart := (splitPoint body).2
  if intPart=[] ∧ fracPart=[] then .error .overflow
  else if !(intPart++fracPart).all isDigit then .error .overflow
  else
    let trimmed := (intPart++fracPart).dropWhile (· == 48)
    if trimmed=[] then .ok zero
    else
      let kept := trimmed.take 17
      let dropped := trimmed.length-kept.length
      fromParts (natValue kept) (wrapI32 (wrapI32 dropped-wrapI32 fracPart.length)) negative

def toDecimalString (a : IOUAmount) : Bytes :=
  if a.isZero then [48]
  else
    let sign := signText a.negative
    let digits := natText a.mantissa
    if a.exponent ≥ 0 then sign++(digits++List.replicate a.exponent.toNat 48)
    else
      let frac := (-a.exponent).toNat
      let body := if frac ≥ digits.length then
          let fracDigits := List.replicate (frac-digits.length) 48++digits
          [48]++46::fracDigits.rdropWhile (· == 48)
        else
          let point := digits.length-frac
          let intPart := digits.take point
          let fracPart := (digits.drop point).rdropWhile (· == 48)
          if fracPart=[] then intPart else intPart++46::fracPart
      sign++body

def value (a : IOUAmount) : ℚ := signed a.negative (a.mantissa*10^a.exponent)

/-- A mantissa of sixteen digits and a power of ten in its range, or zero. -/
def Canonical (a : IOUAmount) : Prop :=
  a=zero ∨ 10^15 ≤ a.mantissa ∧ a.mantissa < 10^16 ∧ -96 ≤ a.exponent ∧ a.exponent ≤ 80

end IOUAmount

def IouFits (q : ℚ) : Prop :=
  q=0 ∨ ∃ (m : ℕ) (e : ℤ), 10^15 ≤ m ∧ m < 10^16 ∧ -96 ≤ e ∧ e ≤ 80 ∧ |q| = m*10^e

theorem scaleUp_eq {fuel n m j : ℕ} (hm : 10^15 ≤ m) (hm' : m < 10^16) (hj : n*10^j=m)
    (hfuel : j ≤ fuel)
    (x : ℤ) : scaleUp (10^15) fuel n (wrapI32 x)=(m,wrapI32 (x-j)) := by
  induction fuel generalizing n j x with
  | zero =>
    have hz : j=0 := by omega
    simp [scaleUp,← hj,hz]
  | succ fuel ih =>
    rw [scaleUp]
    cases j with
    | zero =>
      have hn : n=m := by simpa using hj
      rw [if_neg (by omega),hn]
      simp
    | succ j =>
      have hstep : n*10*10^j=m := by rw [← hj,pow_succ]; ring
      have hlt : n < 10^15 := by
        have : n*10 ≤ n*10*10^j := Nat.le_mul_of_pos_right _ (by positivity)
        omega
      rw [if_pos hlt,wrapI32_sub,ih hstep (by omega)]
      congr 2
      push_cast
      ring

namespace IOUAmount

theorem zero_value : zero.value=0 := by simp [value,zero,signed]

variable {a : IOUAmount} {e : ℤ} {fuel m : ℕ} {p : Parts} {s : String}

theorem Canonical.fits (h : a.Canonical) : IouFits a.value := by
  rcases h with rfl | ⟨hm,hm',he,he'⟩
  · exact Or.inl zero_value
  · exact Or.inr ⟨_,_,hm,hm',he,he',by rw [value,abs_signed,abs_of_nonneg (by positivity)]⟩

theorem Canonical.eq_of_value {b : IOUAmount} (ha : a.Canonical) (hb : b.Canonical)
    (h : a.value=b.value) : a=b := by
  have hne : ∀ {c : IOUAmount}, 10^15 ≤ c.mantissa → c.value≠0 := by
    intro c hc hzero
    have hpos : 0 < c.mantissa := by omega
    have habs := congrArg abs hzero
    rw [value,abs_signed,abs_zero,abs_of_pos (by positivity)] at habs
    exact absurd habs (by positivity)
  rcases ha with rfl | ⟨hm,hm',-,-⟩ <;> rcases hb with rfl | ⟨hn,hn',-,-⟩
  · rfl
  · exact absurd (h.symm.trans zero_value) (hne hn)
  · exact absurd (h.trans zero_value) (hne hm)
  · obtain ⟨hsign,hmantissa,hexponent⟩ := signed_unique hm hm' hn hn' h
    cases a
    cases b
    congr

/-! ## Normalising -/

theorem le_scaleUp {lo : ℕ} (h : lo ≤ m*10^fuel) (e : ℤ) : lo ≤ (scaleUp lo fuel m e).1 := by
  induction fuel generalizing m e with
  | zero => simpa [scaleUp] using h
  | succ fuel ih =>
    rw [scaleUp]
    split
    · exact ih (by rw [pow_succ] at h; rw [mul_assoc,mul_comm 10]; exact h) _
    · rename_i hlo
      exact Nat.le_of_not_lt hlo

theorem scaleUp_lt {hi : ℕ} (hlo : 10^16 ≤ hi) (h : m < hi) (e : ℤ) :
    (scaleUp (10^15) fuel m e).1 < hi := by
  induction fuel generalizing m e with
  | zero => simpa [scaleUp] using h
  | succ fuel ih =>
    rw [scaleUp]
    split
    · exact ih (by omega) _
    · exact h

theorem reduce_bounds {r : ℕ × ℤ} (hlo : 10^15 ≤ m) (hhi : m < 10^(16+fuel))
    (h : reduce fuel m e=.ok r) : 10^15 ≤ r.1 ∧ r.1 < 10^16 := by
  induction fuel generalizing m e with
  | zero =>
    cases h
    exact ⟨hlo,by simpa using hhi⟩
  | succ fuel ih =>
    rw [reduce] at h
    split at h
    · split_ifs at h
      refine ih (by omega) ?_ h
      rw [← add_assoc,pow_succ] at hhi
      exact Nat.div_lt_of_lt_mul (by omega)
    · cases h
      exact ⟨hlo,by omega⟩

theorem normalize_canonical {r : IOUAmount} (ha : a.mantissa < 10^20) (h : normalize a=.ok r) :
    r.Canonical ∧ (r=zero ∨ r.negative=a.negative) := by
  rw [normalize] at h
  split at h
  · cases h
    exact ⟨Or.inl rfl,Or.inl rfl⟩
  rename_i hm
  dsimp only at h
  have hlo : 10^15 ≤ (scaleUp (10^15) 16 a.mantissa a.exponent).1 := le_scaleUp (by omega) _
  have hhi : (scaleUp (10^15) 16 a.mantissa a.exponent).1 < 10^(16+4) :=
    scaleUp_lt (by norm_num) ha _
  obtain ⟨p,hr,h⟩ := bind_ok h
  obtain ⟨hp,hp'⟩ := reduce_bounds hlo hhi hr
  split_ifs at h <;> cases h
  · exact ⟨Or.inl rfl,Or.inl rfl⟩
  · exact ⟨Or.inr ⟨hp,hp',by dsimp only; omega,by dsimp only; omega⟩,Or.inr rfl⟩

theorem normalize_of_leads {k : ℕ} {y : ℤ} (negative : Bool) (hk : k < 10^16)
    (h : Leads 15 (k*10^y) m e) :
    normalize ⟨k,wrapI32 y,negative⟩=if wrapI32 e < -96 then .ok zero
      else if wrapI32 e > 80 then .error .overflow else .ok ⟨m,wrapI32 e,negative⟩ := by
  have hne : k≠0 := by
    rintro rfl
    have hpos := h.pos
    simp at hpos
  obtain ⟨j,hj,hleads⟩ := exists_leads (Nat.pos_of_ne_zero hne) hk y
  obtain ⟨rfl,rfl⟩ := h.unique hleads
  have hlt := hleads.lt
  rw [normalize,if_neg hne]
  dsimp only
  rw [scaleUp_eq hleads.ge hlt rfl (by omega),reduce,if_neg (by omega)]
  rfl

/-- The first seventeen digits of a number become its first sixteen. -/
theorem normalize_eq {n d : ℕ} {x : ℤ} (negative : Bool) (hk : n/10^d < 10^17)
    (hd : n/10^d < 10^16 → d=0)
    (h : Leads 15 (n*10^x) m e) (he : -96 ≤ wrapI32 e) (he' : wrapI32 e ≤ 80) :
    normalize ⟨n/10^d,wrapI32 (x+d),negative⟩=.ok ⟨m,wrapI32 e,negative⟩ := by
  rcases lt_or_ge (n/10^d) (10^16) with hsmall | hlarge
  · obtain rfl := hd hsmall
    rw [pow_zero,Nat.div_one] at hsmall ⊢
    rw [Nat.cast_zero,add_zero,normalize_of_leads negative hsmall h,if_neg (by omega),
      if_neg (by omega)]
  · -- the seventeenth digit goes
    have hten : n/10^(d+1)=n/10^d/10 := by rw [pow_succ,Nat.div_div_eq_div_mul]
    obtain ⟨rfl,rfl⟩ := h.unique (leads_div (j := d+1) (by omega) (by omega) x)
    have hwrap : wrapI32 (x+d)=wrapI32 (x+(d+1 : ℕ))-1 := by
      rw [← wrapI32_of_range (x := wrapI32 (x+(d+1 : ℕ))-1) (by omega) (by omega),wrapI32_sub]
      push_cast
      ring_nf
    generalize wrapI32 (x+(d+1 : ℕ))=e at he he' hwrap
    rw [hwrap,hten,normalize,if_neg (by dsimp only; omega)]
    dsimp only
    rw [scaleUp,if_neg (by omega)]
    dsimp only
    rw [reduce,if_pos (by omega),if_neg (by omega),sub_add_cancel,
      wrapI32_of_range (by omega) (by omega),reduce,
      if_neg (by omega)]
    change (if _ then _ else _)=_
    rw [if_neg (by dsimp only; omega),if_neg (by dsimp only; omega)]

/-! ## Texts -/

theorem trim_of_decimal (h : ∀ c∈utf8 s, isDecimalChar c) : trim s=s := by
  have hall : ∀ n < 256, isDecimalChar (UInt8.ofNat n) → n < 128 ∧
    isWhiteSpace (Char.ofNat n)=false :=
    by decide +kernel
  have hchar : ∀ c∈utf8 s, c < 128 ∧ isWhiteSpace (Char.ofNat c.toNat)=false := by
    intro c hc
    have := hall c.toNat c.toNat_lt (by rw [UInt8.ofNat_toNat]; exact h c hc)
    exact ⟨by simpa [UInt8.lt_iff_toNat_lt] using this.1,this.2⟩
  have hlist : s.toList=(utf8 s).map fun b => Char.ofNat b.toNat := by
    conv_lhs => rw [← ascii_utf8 fun c hc => (hchar c hc).1]
    rw [ascii,String.toList_ofList]
  have hspace : ∀ c∈s.toList, isWhiteSpace c=false := by
    intro c hc
    rw [hlist] at hc
    obtain ⟨b,hb,rfl⟩ := mem_map.mp hc
    exact (hchar b hb).2
  have hdrop : s.toList.dropWhile isWhiteSpace=s.toList := by
    apply dropWhile_eq_self_iff.mpr
    intro hpos
    simp [hspace _ (getElem_mem hpos)]
  have hrdrop : s.toList.rdropWhile isWhiteSpace=s.toList := by
    apply rdropWhile_eq_self_iff.mpr
    intro hne
    simp [hspace _ (getLast_mem hne)]
  rw [trim,hdrop,hrdrop,String.ofList_toList]

theorem trim_of_parts (h : parts (utf8 s)=some p) : trim s=s :=
  trim_of_decimal fun _ hc => isDecimalChar_of_parts h hc

theorem dropWhile_sign_of_parts {s body : Bytes} (h : parts s=some p)
    (hsign : splitSign s=(p.negative,body)) :
    (s.head? == some 45)=p.negative ∧ s.dropWhile (fun c => c == 45 || c == 43)=body := by
  obtain ⟨body',hsign',hsplit,-,hne,hdigits⟩ := parts_eq_some h
  obtain rfl : body=body' := by
    rw [hsign] at hsign'
    exact (Prod.mk.injEq .. ▸ hsign').2
  -- the text behind the sign starts with a digit or a point
  have hbody : body.dropWhile (fun c => c == 45 || c == 43)=body := by
    cases body with
    | nil => rfl
    | cons c t =>
      apply dropWhile_cons_of_neg
      by_cases hmark : isExponentMark c=true
      · rw [takeWhile_cons_of_neg (by simp [hmark])] at hsplit
        obtain ⟨h₁,h₂⟩ := Prod.mk.injEq .. ▸ hsplit
        exact absurd (by rw [← h₁,← h₂]; rfl) hne
      · have hc : isDigit c ∨ c=46 := by
          apply mem_of_splitPoint (by rw [hsplit]; exact hdigits)
          rw [takeWhile_cons_of_pos (by simp [hmark])]
          exact mem_cons_self
        rcases hc with hc | rfl
        · rw [isDigit_iff] at hc
          simp only [Bool.or_eq_true,beq_iff_eq,not_or]
          constructor <;> rintro rfl <;> simp at hc
        · decide
  cases s with
  | nil =>
    obtain ⟨h₁,h₂⟩ := Prod.mk.injEq .. ▸ hsign
    exact ⟨h₁,h₂⟩
  | cons c t =>
    rw [splitSign] at hsign
    split at hsign
    · rename_i hc
      obtain ⟨h₁,rfl⟩ := Prod.mk.injEq .. ▸ hsign
      exact ⟨by simp [hc,← h₁],by rw [dropWhile_cons_of_pos (by simp [hc]),hbody]⟩
    · rename_i hminus
      split at hsign
      · rename_i hc
        obtain ⟨h₁,rfl⟩ := Prod.mk.injEq .. ▸ hsign
        exact ⟨by simp [hc,← h₁],by rw [dropWhile_cons_of_pos (by simp [hc]),hbody]⟩
      · obtain ⟨h₁,rfl⟩ := Prod.mk.injEq .. ▸ hsign
        exact ⟨by simp [hminus,← h₁],hbody⟩

section

variable {s : String} {p : Parts} {a : IOUAmount}

/-- What `from_decimal_string` makes of a text without a power of ten. -/
theorem fromDecimalString_eq (hp : parts (utf8 (trim s))=some p)
    (hplain : ∀ c∈utf8 (trim s), isExponentMark c=false) :
    p.magnitude=natValue p.digits*10^(-(p.fraction.length : ℤ)) ∧
      fromDecimalString s=if p.digits=[] then .ok zero
        else normalize ⟨natValue p.digits/10^(p.digits.drop 17).length,
        wrapI32 (-(p.fraction.length : ℤ)+(p.digits.drop 17).length),p.negative⟩ := by
  obtain ⟨body,hsign,hsplit,hexp,hne,hdigits⟩ := parts_eq_some hp
  obtain ⟨hnegative,hbody⟩ := dropWhile_sign_of_parts hp hsign
  have hmark : ∀ c∈body, (!isExponentMark c)=true := by
    intro c hc
    rw [← hbody] at hc
    rw [hplain c ((dropWhile_sublist _).subset hc)]
    rfl
  have hzero : p.exponent=0 := by
    rw [readExponent,dropWhile_eq_nil_iff.mpr hmark] at hexp
    exact (Option.some.inj hexp).symm
  refine ⟨by rw [magnitude_eq,hzero,zero_sub],?_⟩
  rw [takeWhile_eq_self_iff.mpr hmark] at hsplit
  have hall : (p.whole++p.fraction).all isDigit=true := all_eq_true.mpr hdigits
  have htake := natValue_take (fun c hc => isDigit_of_mem_digits hp hc) 17
  have hdrop : p.digits.length-(p.digits.take 17).length=(p.digits.drop 17).length := by simp; omega
  rw [fromDecimalString]
  dsimp only
  rw [hnegative,hbody,hsplit]
  dsimp only
  rw [if_neg (by rwa [← append_eq_nil_iff]),hall,Bool.not_true,if_neg Bool.false_ne_true]
  change (if p.digits=[] then _ else fromParts (natValue (p.digits.take 17)) (wrapI32 (wrapI32
    (p.digits.length-(p.digits.take 17).length : ℕ)-wrapI32 p.fraction.length)) p.negative)=_
  rw [htake,hdrop,fromParts,wrapI32_sub,sub_wrapI32,neg_add_eq_sub]

theorem plain_of_fromDecimalString (h : fromDecimalString s=.ok a) : ∀ c∈utf8 (trim s),
    isExponentMark c=false := by
  intro c hc
  rw [← takeWhile_append_dropWhile (p := fun c => c == 45 || c == 43) (l := utf8 (trim s))] at hc
  rw [fromDecimalString] at h
  dsimp only at h
  split_ifs at h with _ hall
  all_goals
    rw [Bool.not_eq_true',Bool.not_eq_false,all_eq_true] at hall
    rcases mem_append.mp hc with hc | hc
    · have hsign := mem_takeWhile_imp hc
      rw [Bool.or_eq_true,beq_iff_eq,beq_iff_eq] at hsign
      rcases hsign with rfl | rfl <;> rfl
    · rcases mem_of_splitPoint hall hc with hc | rfl
      · exact not_isExponentMark hc
      · rfl

theorem natValue_take_lt (hp : parts (utf8 (trim s))=some p) :
    natValue p.digits/10^(p.digits.drop 17).length < 10^17 := by
  rw [← natValue_take fun c hc => isDigit_of_mem_digits hp hc]
  refine (natValue_lt fun c hc => isDigit_of_mem_digits hp (mem_of_mem_take hc)).trans_le ?_
  exact Nat.pow_le_pow_right (by decide) (by simp)

theorem fromDecimalString_of_leads {m : ℕ} {e : ℤ} (hp : parts (utf8 (trim s))=some p)
    (hplain : ∀ c∈utf8 (trim s), isExponentMark c=false) (h : Leads 15 p.magnitude m e)
    (he : -96 ≤ wrapI32 e) (he' : wrapI32 e ≤ 80) :
    fromDecimalString s=.ok ⟨m,wrapI32 e,p.negative⟩ := by
  obtain ⟨hmag,heq⟩ := fromDecimalString_eq hp hplain
  have hcons : p.digits≠[] := fun hnil => h.pos.ne' ((digits_eq_nil_iff hp).mp hnil)
  rw [heq,if_neg hcons]
  refine normalize_eq _ (natValue_take_lt hp) (fun hsmall => ?_) (hmag ▸ h) he he'
  -- seventeen digits that do not start with a zero are not below `10^16`
  by_contra hlong
  rw [length_drop] at hlong
  have hlow := pow_le_natValue (s := p.digits.take 17)
    (fun c hc => isDigit_of_mem_digits hp (mem_of_mem_take hc))
    (by simp [hcons]) (by rw [head?_take,if_neg (by decide)]; exact dropWhile_zeros_head? _)
  rw [natValue_take fun c hc => isDigit_of_mem_digits hp hc,length_take,min_eq_left (by omega)]
    at hlow
  omega

/-- An accepted decimal text gives a canonical amount, which is the text's number when that number
is one. -/
theorem fromDecimalString_spec (hp : parts (utf8 (trim s))=some p) (h : fromDecimalString s=.ok a) :
    a.Canonical ∧ (a=zero ∨ a.negative=p.negative) ∧
      (IouFits p.magnitude → a.value=signed p.negative p.magnitude) := by
  have hplain := plain_of_fromDecimalString h
  have heq := (fromDecimalString_eq hp hplain).2.symm.trans h
  split at heq
  · rename_i hnil
    cases heq
    refine ⟨Or.inl rfl,Or.inl rfl,fun _ => ?_⟩
    rw [zero_value,(digits_eq_nil_iff hp).mp hnil]
    simp [signed]
  · rename_i hcons
    have hlt := natValue_take_lt hp
    obtain ⟨hcanon,hneg⟩ := normalize_canonical (by dsimp only; omega) heq
    refine ⟨hcanon,hneg,fun hfits => ?_⟩
    rcases hfits with hq | ⟨m,e,hm,hm',he,he',hq⟩
    · exact absurd ((digits_eq_nil_iff hp).mpr hq) hcons
    · rw [abs_of_nonneg (magnitude_nonneg p)] at hq
      have hwrap := wrapI32_of_range (x := e) (by omega) (by omega)
      rw [fromDecimalString_of_leads hp hplain (hq ▸ leads_self hm hm' e) (by omega) (by omega),
        hwrap] at h
      cases h
      rw [value,hq]

end

end IOUAmount

end Rxrpl
