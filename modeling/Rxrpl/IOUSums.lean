import Rxrpl.Number

/-!
# Sums of issued amounts

`add_round`, which adds two balances. The sum of canonical amounts is the exact one, rounded
to sixteen digits with ties to even; below the smallest amount it is zero, and above the
largest one an error.
-/

namespace Rxrpl.IOUAmount

open Decimal DecimalText

def negate (a : IOUAmount) : IOUAmount := if a.mantissa≠0 then { a with negative := !a.negative }
    else a

/-- The end of `add_round`: a sum of more than sixteen digits is rounded; it is a `u128`. -/
def roundSum (mag : ℕ) (exp : ℤ) : ℕ × ℤ :=
  if mag > 10^16-1 then
    let digitsOver := Number.excessDigits 39 mag
    let div := 10^digitsOver
    let rem := mag % div
    let rounded := if rem > div/2 ∨ rem=div/2 ∧ mag/div &&& 1=1 then mag/div+1 else mag/div
    if rounded > 10^16-1 then (rounded/10,exp+digitsOver+1) else (rounded,exp+digitsOver)
  else (mag,exp)

def addRound (a b : IOUAmount) : Except AmountError IOUAmount :=
  if a.isZero then .ok b
  else if b.isZero then .ok a
  else
    let lo := min a.exponent b.exponent
    let hi := max a.exponent b.exponent
    if hi-lo > 19 then .ok (if a.exponent=hi then a else b)
    else
      let ma : ℤ := a.mantissa*10^(a.exponent-lo).toNat
      let mb : ℤ := b.mantissa*10^(b.exponent-lo).toNat
      let va := if a.negative then -ma else ma
      let vb := if b.negative then -mb else mb
      let sum := va+vb
      if sum=0 then .ok zero
      else
        let r := roundSum sum.natAbs lo
        fromParts r.1 r.2 (decide (sum < 0))

def minPositive : IOUAmount := ⟨10^15,-96,false⟩

def largest : IOUAmount := ⟨10^16-1,80,false⟩

/-! ## What a rounded result becomes -/

/-- What is returned for an exact result that is `r` when it is rounded. -/
structure Returns (r : ℚ) (x : Except AmountError IOUAmount) : Prop where
  small : |r| < minPositive.value → x=.ok zero
  large : largest.value < |r| → x=.error .overflow
  inside : minPositive.value ≤ |r| → |r| ≤ largest.value → ∃ c : IOUAmount, x=.ok c ∧ c.Canonical ∧
    c.value=r

variable {a b c : IOUAmount} {r : ℚ} {x y : Except AmountError IOUAmount}

theorem Returns.unique (hx : Returns r x) (hy : Returns r y) : x=y := by
  rcases lt_or_ge |r| minPositive.value with hlt | hge
  · rw [hx.small hlt,hy.small hlt]
  rcases lt_or_ge largest.value |r| with hlt | hle
  · rw [hx.large hlt,hy.large hlt]
  obtain ⟨c,rfl,hc,hvalue⟩ := hx.inside hge hle
  obtain ⟨d,rfl,hd,hvalue'⟩ := hy.inside hge hle
  rw [hc.eq_of_value hd (hvalue.trans hvalue'.symm)]

theorem minPositive_value : minPositive.value=10^15*10^(-96 : ℤ) := by
  rw [minPositive,value,signed,if_neg Bool.false_ne_true]
  norm_num

theorem largest_value : largest.value=(10^16-1)*10^(80 : ℤ) := by
  rw [largest,value,signed,if_neg Bool.false_ne_true]
  norm_num

theorem minPositive_pos : 0 < minPositive.value := by
  rw [minPositive_value]
  positivity

theorem returns_zero : Returns 0 (.ok zero) := by
  have hpos := minPositive_pos
  refine ⟨fun _ => rfl,fun h => ?_,fun h => ?_⟩
  · rw [abs_zero,largest_value] at h
    norm_num at h
  · rw [abs_zero] at h
    linarith

/-- What is returned for sixteen digits and any power of ten. -/
theorem returns_of_digits {m : ℕ} {e : ℤ} (hm : 10^15 ≤ m) (hm' : m < 10^16) (negative : Bool) :
    Returns (signed negative (m*10^e))
      (if e < -96 then .ok zero else if e > 80 then .error .overflow
      else .ok ⟨m,e,negative⟩) := by
  have hlow : (10 : ℚ)^15 ≤ m := by exact_mod_cast hm
  have hhigh : (m : ℚ) ≤ 10^16-1 := by
    rw [le_sub_iff_add_le]
    exact_mod_cast hm'
  have hpow : (0 : ℚ) < 10^e := by positivity
  have hmono : ∀ {i j : ℤ}, i ≤ j → (10 : ℚ)^i ≤ 10^j := fun h =>
    zpow_le_zpow_right₀ (by norm_num) h
  have habs : |signed negative ((m : ℚ)*10^e)| = m*10^e := by
    rw [abs_signed,abs_of_nonneg (by positivity)]
  have hmin : -96 ≤ e → minPositive.value ≤ m*10^e := fun h => by
    rw [minPositive_value]
    exact mul_le_mul hlow (hmono h) (by positivity) (by positivity)
  have hmax : e ≤ 80 → m*10^e ≤ largest.value := fun h => by
    rw [largest_value]
    exact mul_le_mul hhigh (hmono h) (by positivity) (by norm_num)
  split_ifs with hlt hgt
  · have hsmall : (m : ℚ)*10^e < minPositive.value := by
      have hstep : (10 : ℚ)^e ≤ 10^(-97 : ℤ) := hmono (by omega)
      rw [minPositive_value]
      calc (m : ℚ)*10^e ≤ (10^16-1)*10^(-97 : ℤ) :=
        mul_le_mul hhigh hstep (by positivity) (by norm_num)
        _ < 10^15*10^(-96 : ℤ) := by norm_num
    have hmax := hmax (by omega)
    refine ⟨fun _ => rfl,fun h => ?_,fun h => ?_⟩ <;> rw [habs] at h <;> exact absurd h
      (by linarith)
  · have hlarge : largest.value < m*10^e := by
      have hstep : (10 : ℚ)^(81 : ℤ) ≤ 10^e := hmono (by omega)
      rw [largest_value]
      calc ((10 : ℚ)^16-1)*10^(80 : ℤ) < (10^15 : ℚ)*10^(81 : ℤ) := by norm_num
        _ ≤ m*10^e := mul_le_mul hlow hstep (by positivity) (by positivity)
    have hmin := hmin (by omega)
    refine ⟨fun h => ?_,fun _ => rfl,fun _ h => ?_⟩ <;> rw [habs] at h <;> exact absurd h
      (by linarith)
  · have hmin := hmin (by omega)
    have hmax := hmax (by omega)
    refine ⟨fun h => ?_,fun h => ?_,fun _ _ =>
      ⟨_,rfl,Or.inr ⟨hm,hm',by dsimp only; omega,by dsimp only; omega⟩,rfl⟩⟩
    all_goals
      rw [habs] at h
      exact absurd h (by linarith)

theorem Canonical.returns (h : a.Canonical) : Returns a.value (.ok a) := by
  rcases h with rfl | ⟨hm,hm',he,he'⟩
  · rw [zero_value]
    exact returns_zero
  · have hreturns := @returns_of_digits a.mantissa a.exponent hm hm' a.negative
    rwa [if_neg (by omega),if_neg (by omega)] at hreturns

theorem fromParts_returns {m : ℕ} {e : ℤ} (hm : m < 10^16) (he : -1000 ≤ e) (he' : e ≤ 1000)
    (negative : Bool) : Returns (signed negative (m*10^e)) (fromParts m e negative) := by
  rcases Nat.eq_zero_or_pos m with rfl | hpos
  · have hzero : signed negative (((0 : ℕ) : ℚ)*10^e)=0 := by simp [signed]
    rw [hzero]
    exact returns_zero
  · obtain ⟨j,hj,hleads⟩ := exists_leads hpos hm e
    have hnormalize := normalize_of_leads negative hm hleads
    rw [wrapI32_of_range (by omega) (by omega),wrapI32_of_range (by omega) (by omega)] at hnormalize
    rw [fromParts,hnormalize,scaled_mul m j]
    exact returns_of_digits hleads.ge hleads.lt negative

/-! ## Rounding a sum -/

theorem excessDigits_spec {fuel mag : ℕ} (hlow : 10^15 ≤ mag) (hhigh : mag < 10^(16+fuel)) :
    10^15 ≤ mag/10^Number.excessDigits fuel mag ∧ mag/10^Number.excessDigits fuel mag < 10^16 := by
  induction fuel generalizing mag with
  | zero =>
    exact ⟨by simpa [Number.excessDigits] using hlow,by simpa [Number.excessDigits] using hhigh⟩
  | succ fuel ih =>
    rw [Number.excessDigits]
    split
    · rw [pow_succ' 10 (Number.excessDigits _ _),← Nat.div_div_eq_div_mul]
      exact ih (by omega) (by rw [← add_assoc,pow_succ] at hhigh; omega)
    · simp only [pow_zero,Nat.div_one]
      omega

/-- How a sum lies to the middle between two of sixteen digits. -/
theorem compare_middle (mag d : ℕ) (exp : ℤ) :
    ((mag : ℚ)*10^exp < ((mag/10^d : ℕ)+1/2)*10^(exp+d) ↔ 2*(mag % 10^d) < 10^d) ∧
      ((mag : ℚ)*10^exp=((mag/10^d : ℕ)+1/2)*10^(exp+d) ↔ 2*(mag % 10^d)=10^d) := by
  have hpow : (0 : ℚ) < 10^exp := by positivity
  have hsplit : ((mag/10^d : ℕ) : ℚ)*10^d+(mag % 10^d : ℕ)=mag := by
    exact_mod_cast Nat.div_add_mod' mag (10^d)
  have hmiddle :
    (((mag/10^d : ℕ) : ℚ)+1/2)*10^(exp+d)=(((mag/10^d : ℕ) : ℚ)*10^d+10^d/2)*10^exp := by
    rw [zpow_add₀ (by norm_num),zpow_natCast]
    ring
  rw [hmiddle,mul_lt_mul_iff_left₀ hpow,mul_left_inj' hpow.ne',← hsplit,add_lt_add_iff_left,
    add_right_inj,
    lt_div_iff₀ (by norm_num),eq_div_iff (by norm_num),mul_comm]
  constructor <;> norm_cast

theorem roundSum_spec {mag : ℕ} (hpos : 0 < mag) (hmag : mag < 10^55) (exp : ℤ) :
    (roundSum mag exp).1 < 10^16 ∧ exp ≤ (roundSum mag exp).2 ∧ (roundSum mag exp).2 ≤ exp+41 ∧
      ((roundSum mag exp).1 : ℚ)*10^(roundSum mag exp).2=roundTo 15 (mag*10^exp) := by
  rw [roundSum]
  split
  · rename_i hlarge
    obtain ⟨hlow,hhigh⟩ := @excessDigits_spec 39 mag (by omega) hmag
    have hpositive : 0 < Number.excessDigits 39 mag := by
      rw [Number.excessDigits,if_pos hlarge]
      omega
    dsimp only
    generalize Number.excessDigits 39 mag=d at hlow hhigh hpositive
    have hd : d < 40 := by
      have hle : 10^(15+d) < 10^(15+40) := by
        rw [pow_add]
        exact ((Nat.le_div_iff_mul_le (by positivity)).mp hlow).trans_lt hmag
      have := (Nat.pow_lt_pow_iff_right (by decide)).mp hle
      omega
    obtain ⟨half,hhalf⟩ : ∃ half, 10^d=2*half := by
      obtain ⟨i,rfl⟩ := Nat.exists_eq_succ_of_ne_zero hpositive.ne'
      exact ⟨10^i*5,by rw [pow_succ]; ring⟩
    obtain ⟨rounded,hrounded⟩ : ∃ n, n=if mag % 10^d > 10^d/2 ∨ mag % 10^d=10^d/2 ∧ mag/10^d &&& 1=1
      then mag/10^d+1 else mag/10^d := ⟨_,rfl⟩
    have hvalue : (rounded : ℚ)*10^(exp+d)=roundTo 15 (mag*10^exp) := by
      obtain ⟨hlt,heq⟩ := compare_middle mag d exp
      rw [(leads_div hlow hhigh exp).roundTo_eq,hrounded]
      simp only [hlt,heq,Nat.even_iff,Nat.and_one_is_mod]
      split_ifs <;> first | omega | (push_cast; rfl)
    rw [← hrounded,← hvalue]
    have hle : rounded ≤ 10^16 := by
      rw [hrounded]
      split <;> omega
    split
    · obtain rfl : rounded=10^16 := by omega
      refine ⟨by norm_num,by dsimp only; omega,by dsimp only; omega,?_⟩
      dsimp only
      rw [zpow_add_one₀ (by norm_num)]
      norm_num
      ring
    · exact ⟨by dsimp only; omega,by dsimp only; omega,by dsimp only; omega,rfl⟩
  · rw [roundTo_of_lt hpos (by omega)]
    exact ⟨by dsimp only; omega,le_rfl,by dsimp only; omega,rfl⟩

/-! ## Sums -/

theorem roundTo_signed (k : ℕ) (negative : Bool) (v : ℚ) :
    roundTo k (signed negative v)=signed negative (roundTo k v) := by
  cases negative
  · rfl
  · exact roundTo_neg k v

theorem Canonical.of_isZero (h : a.Canonical) (hzero : a.isZero=true) : a=zero := by
  rw [isZero,beq_iff_eq] at hzero
  exact h.resolve_right fun hm => by omega

theorem Canonical.of_not_isZero (h : a.Canonical) (hzero : a.isZero≠true) :
    10^15 ≤ a.mantissa ∧ a.mantissa < 10^16 ∧ -96 ≤ a.exponent ∧ a.exponent ≤ 80 := by
  refine h.resolve_left ?_
  rintro rfl
  exact hzero rfl

theorem Canonical.roundTo_value (h : a.Canonical) : roundTo 15 a.value=a.value := by
  rcases h with rfl | ⟨hm,hm',-,-⟩
  · rw [zero_value,roundTo_zero]
  · rw [value,roundTo_signed,roundTo_of_lt (by omega) hm']

/-- An amount whose power of ten is less by twenty is lost. -/
theorem Canonical.roundTo_far (ha : a.Canonical) (hzero : a.isZero≠true) (hb : b.mantissa < 10^16)
    (hfar : b.exponent+20 ≤ a.exponent) : roundTo 15 (a.value+b.value)=a.value := by
  obtain ⟨hm,hm',-,-⟩ := ha.of_not_isZero hzero
  have hsum : a.value+b.value=signed a.negative
    (a.mantissa*10^a.exponent+signed a.negative b.value) := by
    rw [value,signed,signed,signed]
    split <;> ring
  have hsmall : |b.value| < 10^(a.exponent-1)/2 := by
    have hbm : (b.mantissa : ℚ) ≤ 10^16 := by exact_mod_cast hb.le
    have hpow : (10 : ℚ)^b.exponent ≤ 10^(a.exponent-1-19) :=
      zpow_le_zpow_right₀ (by norm_num) (by omega)
    have hpos : (0 : ℚ) < 10^(a.exponent-1) := by positivity
    rw [zpow_sub₀ (by norm_num)] at hpow
    rw [value,abs_signed,abs_of_nonneg (by positivity)]
    calc (b.mantissa : ℚ)*10^b.exponent ≤ 10^16*(10^(a.exponent-1)/10^(19 : ℤ)) :=
          mul_le_mul hbm hpow (by positivity) (by positivity)
      _ < 10^(a.exponent-1)/2 := by
          norm_num
          linarith
  rw [hsum,roundTo_signed,roundTo_of_near hm hm' (by rwa [add_sub_cancel_left,abs_signed])]
  rfl

/-- The mantissa of an amount at a lower power of ten. -/
theorem exists_aligned {lo : ℤ} (hm : a.mantissa < 10^16) (hlo : lo ≤ a.exponent)
    (hgap : a.exponent-lo ≤ 19) :
    ∃ n : ℤ, (if a.negative then -((a.mantissa : ℤ)*10^(a.exponent-lo).toNat)
      else (a.mantissa : ℤ)*10^(a.exponent-lo).toNat)=n ∧ a.value=n*10^lo ∧ n.natAbs < 10^35 := by
  have hscale : (a.mantissa : ℚ)*10^a.exponent=a.mantissa*10^(a.exponent-lo).toNat*10^lo := by
    rw [mul_assoc,← zpow_natCast,← zpow_add₀ (by norm_num),Int.toNat_of_nonneg (by omega),
      sub_add_cancel]
  have hlt : a.mantissa*10^(a.exponent-lo).toNat < 10^16*10^19 :=
    Nat.mul_lt_mul_of_lt_of_le hm (Nat.pow_le_pow_right (by decide) (by omega)) (by positivity)
  refine ⟨_,rfl,?_,?_⟩
  · rw [value,signed,hscale]
    split <;> push_cast <;> ring
  · generalize (a.exponent-lo).toNat=k at hlt
    split
    · rw [Int.natAbs_neg]
      exact_mod_cast hlt
    · exact_mod_cast hlt

theorem addRound_returns (ha : a.Canonical) (hb : b.Canonical) :
    Returns (roundTo 15 (a.value+b.value)) (addRound a b) := by
  rw [addRound]
  split
  · rename_i hzero
    rw [ha.of_isZero hzero,zero_value,zero_add,hb.roundTo_value]
    exact hb.returns
  rename_i hazero
  split
  · rename_i hzero
    rw [hb.of_isZero hzero,zero_value,add_zero,ha.roundTo_value]
    exact ha.returns
  rename_i hbzero
  obtain ⟨-,ham,hae,hae'⟩ := ha.of_not_isZero hazero
  obtain ⟨-,hbm,hbe,hbe'⟩ := hb.of_not_isZero hbzero
  dsimp only
  obtain ⟨lo,hlo⟩ : ∃ lo, lo=min a.exponent b.exponent := ⟨_,rfl⟩
  split
  · split
    · rw [ha.roundTo_far hazero hbm (by omega)]
      exact ha.returns
    · rw [add_comm,hb.roundTo_far hbzero ham (by omega)]
      exact hb.returns
  rename_i hnear
  rw [← hlo] at hnear ⊢
  obtain ⟨va,hva,hvalue,hbound⟩ := @exists_aligned a lo ham (by omega) (by omega)
  obtain ⟨vb,hvb,hvalue',hbound'⟩ := @exists_aligned b lo hbm (by omega) (by omega)
  rw [hva,hvb,hvalue,hvalue',← add_mul,← Int.cast_add]
  have hsum : (va+vb).natAbs < 10^55 := (Int.natAbs_add_le va vb).trans_lt (by omega)
  generalize va+vb=sum at hsum
  split
  · rename_i hzero
    rw [hzero,Int.cast_zero,zero_mul,roundTo_zero]
    exact returns_zero
  rename_i hne
  obtain ⟨hm,he,he',hround⟩ := roundSum_spec (Int.natAbs_pos.mpr hne) hsum lo
  have hsigned : (sum : ℚ)*10^lo=signed (decide (sum < 0)) (sum.natAbs*10^lo) := by
    rw [Nat.cast_natAbs,Int.cast_abs,signed]
    split
    · rename_i hneg
      rw [abs_of_neg (by exact_mod_cast of_decide_eq_true hneg)]
      ring
    · rename_i hnonneg
      rw [abs_of_nonneg (by exact_mod_cast not_lt.mp fun h => hnonneg (decide_eq_true h))]
  rw [hsigned,roundTo_signed,← hround]
  exact fromParts_returns hm (by omega) (by omega) _

theorem negate_spec (h : a.Canonical) : a.negate.Canonical ∧ a.negate.value=-a.value := by
  rcases h with rfl | ⟨hm,hm',he,he'⟩
  · exact ⟨Or.inl rfl,by rw [show zero.negate=zero from rfl,zero_value,neg_zero]⟩
  · rw [negate,if_pos (by omega)]
    refine ⟨Or.inr ⟨hm,hm',he,he'⟩,?_⟩
    cases hneg : a.negative <;> simp [value,signed,hneg]

/-- The sum of two amounts is the exact one, rounded to sixteen digits with ties to even: zero below
the smallest amount, an error above the largest. It is the same in both orders, and an amount and
its opposite add to zero. -/
theorem addRound_rounds (ha : a.Canonical) (hb : b.Canonical) :
    (|roundTo 15 (a.value+b.value)| < minPositive.value → addRound a b=.ok zero) ∧
    (largest.value < |roundTo 15 (a.value+b.value)| ↔ addRound a b=.error .overflow) ∧
    (minPositive.value ≤ |roundTo 15 (a.value+b.value)| →
      |roundTo 15 (a.value+b.value)| ≤ largest.value →
      ∃ c : IOUAmount, addRound a b=.ok c ∧ c.Canonical ∧ c.value=roundTo 15 (a.value+b.value)) ∧
    addRound a b=addRound b a ∧ addRound a a.negate=.ok zero := by
  have hreturns := addRound_returns ha hb
  refine ⟨hreturns.small,⟨hreturns.large,fun herror => ?_⟩,hreturns.inside,?_,?_⟩
  · by_contra hle
    rcases lt_or_ge |roundTo 15 (a.value+b.value)| minPositive.value with hlt | hge
    · cases herror.symm.trans (hreturns.small hlt)
    · obtain ⟨c,hok,-⟩ := hreturns.inside hge (not_lt.mp hle)
      cases herror.symm.trans hok
  · have hswapped := addRound_returns hb ha
    rw [add_comm] at hswapped
    exact hreturns.unique hswapped
  · obtain ⟨hcanonical,hvalue⟩ := negate_spec ha
    have hzero := addRound_returns ha hcanonical
    rw [hvalue,add_neg_cancel,roundTo_zero] at hzero
    exact hzero.unique returns_zero

/-- A half more than sixteen nines is carried into a new digit. -/
theorem carried_sum :
    addRound ⟨9999999999999999,0,false⟩ ⟨5000000000000000,-16,false⟩=.ok
      ⟨1000000000000000,1,false⟩ ∧
    addRound ⟨5000000000000000,-16,false⟩ ⟨9999999999999999,0,false⟩=.ok
      ⟨1000000000000000,1,false⟩ := by
  have hsum : addRound ⟨9999999999999999,0,false⟩ ⟨5000000000000000,-16,false⟩ =
      .ok ⟨1000000000000000,1,false⟩ := by
    decide
  obtain ⟨-,-,-,hcomm,-⟩ := @addRound_rounds ⟨9999999999999999,0,false⟩ ⟨5000000000000000,-16,false⟩
    (Or.inr (by norm_num)) (Or.inr (by norm_num))
  exact ⟨hsum,hcomm ▸ hsum⟩

end Rxrpl.IOUAmount
