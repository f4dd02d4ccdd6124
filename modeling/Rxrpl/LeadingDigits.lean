import Mathlib.Algebra.Order.Field.Power
import Mathlib.Data.Int.Log
import Mathlib.Data.Rat.Floor
import Mathlib.Tactic.Positivity

/-!
# Leading digits

The first digits of a positive number, as a mantissa of fixed length and the power of ten of its
last digit, and numbers rounded to as many digits.
-/

namespace Decimal

/-- The first `k + 1` digits of `v` are those of `m`, and the last of them counts `10^e`. -/
structure Leads (k : ℕ) (v : ℚ) (m : ℕ) (e : ℤ) : Prop where
  ge : 10^k ≤ m
  lt : m < 10^(k+1)
  le_value : m*10^e ≤ v
  value_lt : v < (m+1)*10^e

variable {j k m n : ℕ} {e f x : ℤ} {v : ℚ}

namespace Leads

theorem pos (h : Leads k v m e) : 0 < v := by
  have hm : 0 < m := lt_of_lt_of_le (by positivity) h.ge
  exact lt_of_lt_of_le (by positivity) h.le_value

theorem log_eq (h : Leads k v m e) : Int.log 10 v=e+k := by
  have hlo : (10 : ℚ)^(e+k) ≤ v := by
    have hm : (10 : ℚ)^k ≤ m := by exact_mod_cast h.ge
    calc (10 : ℚ)^(e+k)=10^k*10^e := by rw [zpow_add₀ (by norm_num),zpow_natCast,mul_comm]
      _ ≤ m*10^e := by gcongr
      _ ≤ v := h.le_value
  have hhi : v < (10 : ℚ)^(e+k+1) := by
    have hm : (m+1 : ℚ) ≤ 10^(k+1) := by exact_mod_cast h.lt
    calc v < (m+1)*10^e := h.value_lt
      _ ≤ 10^(k+1)*10^e := by gcongr
      _=10^(e+k+1) := by
        rw [add_assoc,zpow_add₀ (by norm_num),mul_comm,← Nat.cast_succ,zpow_natCast]
  refine le_antisymm (Int.lt_add_one_iff.mp ?_) ?_
  · exact (Int.lt_zpow_iff_log_lt (by norm_num) h.pos).mp (by exact_mod_cast hhi)
  · exact (Int.zpow_le_iff_le_log (by norm_num) h.pos).mp (by exact_mod_cast hlo)

theorem unique (h : Leads k v m e) (h' : Leads k v n f) : m=n ∧ e=f := by
  have hexp : e=f := by
    have hlog := h.log_eq
    have hlog' := h'.log_eq
    omega
  subst hexp
  have hle : (m : ℚ) < n+1 := lt_of_mul_lt_mul_right (h.le_value.trans_lt h'.value_lt)
    (by positivity)
  have hle' : (n : ℚ) < m+1 := lt_of_mul_lt_mul_right (h'.le_value.trans_lt h.value_lt)
    (by positivity)
  norm_cast at hle hle'
  exact ⟨by omega,rfl⟩

end Leads

/-- The first digits of a number with more digits. -/
theorem leads_div (hlo : 10^k ≤ n/10^j) (hhi : n/10^j < 10^(k+1)) (x : ℤ) :
    Leads k (n*10^x) (n/10^j) (x+j) := by
  have hscale : ∀ y : ℚ, y*10^(x+j)=y*10^j*10^x := by
    intro y
    rw [zpow_add₀ (by norm_num),zpow_natCast]
    ring
  refine ⟨hlo,hhi,?_,?_⟩
  · have hdiv : ((n/10^j : ℕ) : ℚ)*10^j ≤ n := by exact_mod_cast Nat.div_mul_le_self n (10^j)
    rw [hscale]
    exact mul_le_mul_of_nonneg_right hdiv (by positivity)
  · have hdiv : (n : ℚ) < ((n/10^j : ℕ)+1)*10^j := by
      exact_mod_cast Nat.lt_mul_of_div_lt (Nat.lt_succ_self (n/10^j)) (by positivity)
    rw [hscale]
    exact mul_lt_mul_of_pos_right hdiv (by positivity)

theorem scaled_mul (n j : ℕ) (x : ℤ) : (n : ℚ)*10^x=(n*10^j : ℕ)*10^(x-j) := by
  rw [zpow_sub₀ (by norm_num),zpow_natCast]
  push_cast
  field_simp

/-- The first digits of a number with fewer digits. -/
theorem leads_mul (hlo : 10^k ≤ n*10^j) (hhi : n*10^j < 10^(k+1)) (x : ℤ) :
    Leads k (n*10^x) (n*10^j) (x-j) := by
  refine ⟨hlo,hhi,(scaled_mul n j x).ge,(scaled_mul n j x).trans_lt ?_⟩
  exact mul_lt_mul_of_pos_right (lt_add_one _) (by positivity)

theorem exists_leads (hn : 0 < n) (hn' : n < 10^(k+1)) (x : ℤ) :
    ∃ i ≤ k, Leads k (n*10^x) (n*10^i) (x-i) := by
  have hlog : Nat.log 10 n ≤ k := Nat.lt_succ_iff.mp (Nat.log_lt_of_lt_pow hn.ne' hn')
  refine ⟨k-Nat.log 10 n,Nat.sub_le ..,leads_mul ?_ ?_ x⟩
  · calc 10^k=10^Nat.log 10 n*10^(k-Nat.log 10 n) := by rw [← pow_add]; congr; omega
      _ ≤ n*10^(k-Nat.log 10 n) := Nat.mul_le_mul_right _ (Nat.pow_log_le_self 10 hn.ne')
  · calc n*10^(k-Nat.log 10 n) < 10^(Nat.log 10 n+1)*10^(k-Nat.log 10 n) :=
          Nat.mul_lt_mul_of_pos_right (Nat.lt_pow_succ_log_self (by decide) n) (by positivity)
      _=10^(k+1) := by rw [← pow_add]; congr 1; omega

theorem exists_leads_of_pos (hv : 0 < v) (k : ℕ) : ∃ m e, Leads k v m e := by
  obtain ⟨e,he⟩ : ∃ e : ℤ, Int.log 10 v=e+k := ⟨Int.log 10 v-k,by ring⟩
  have hlo := Int.zpow_log_le_self (b := 10) (by norm_num) hv
  have hhi := Int.lt_zpow_succ_log_self (b := 10) (by norm_num) v
  rw [he,Nat.cast_ofNat,zpow_add₀ (by norm_num),zpow_natCast,mul_comm] at hlo
  rw [he,add_assoc,Nat.cast_ofNat,zpow_add₀ (by norm_num),← Nat.cast_succ,zpow_natCast,mul_comm]
    at hhi
  have hpow : (0 : ℚ) < 10^e := by positivity
  refine ⟨⌊v/10^e⌋₊,e,?_,?_,?_,?_⟩
  · rw [Nat.le_floor_iff (by positivity),le_div_iff₀ hpow]
    exact_mod_cast hlo
  · rw [Nat.floor_lt (by positivity),div_lt_iff₀ hpow]
    exact_mod_cast hhi
  · exact (le_div_iff₀ hpow).mp (Nat.floor_le (by positivity))
  · exact (div_lt_iff₀ hpow).mp (Nat.lt_floor_add_one _)

theorem leads_self (hlo : 10^k ≤ m) (hhi : m < 10^(k+1)) (e : ℤ) : Leads k (m*10^e) m e := by
  simpa using @leads_mul 0 k m (by simpa using hlo) (by simpa using hhi) e

/-! ## Rounding -/

/-- The integer next to `q`, and the even one of two that are equally near. -/
def roundEven (q : ℚ) : ℤ := if Int.fract q < 1/2 ∨ Int.fract q=1/2 ∧ Even ⌊q⌋ then ⌊q⌋ else ⌊q⌋+1

theorem roundEven_neg (q : ℚ) : roundEven (-q)=-roundEven q := by
  have hsum := Int.floor_add_fract q
  by_cases hint : Int.fract q=0
  · have hzero : Int.fract (-q)=0 := by rw [Int.fract_neg_eq_zero,hint]
    rw [hint,add_zero] at hsum
    rw [roundEven,roundEven,hzero,hint,if_pos (by norm_num),if_pos (by norm_num),← hsum,
      ← Int.cast_neg,
      Int.floor_intCast,Int.floor_intCast]
  · have hpos : 0 < Int.fract q := (Int.fract_nonneg q).lt_of_ne (Ne.symm hint)
    have hfloor : ⌊-q⌋=-⌊q⌋-1 := by
      rw [Int.floor_eq_iff]
      push_cast
      exact ⟨by linarith [Int.fract_lt_one q],by linarith⟩
    have hparity : Even (-⌊q⌋-1) ↔ ¬ Even ⌊q⌋ := by
      rw [Int.even_sub_one,even_neg]
    rw [roundEven,roundEven,Int.fract_neg hint,hfloor]
    simp only [hparity]
    split_ifs with h h' h'
    · exfalso
      rcases h with h | h <;> rcases h' with h' | h' <;> first | linarith | exact h.2 h'.2
    · ring
    · ring
    · exfalso
      rw [not_or,not_lt,not_and] at h h'
      have hhalf : Int.fract q=1/2 := le_antisymm (by linarith [h.1]) h'.1
      exact h.2 (by linarith) (h'.2 hhalf)

/-- `v` rounded to `k + 1` digits. -/
def roundTo (k : ℕ) (v : ℚ) : ℚ := roundEven (v/10^(Int.log 10 |v| - k))*10^(Int.log 10 |v| - k)

theorem roundTo_neg (k : ℕ) (v : ℚ) : roundTo k (-v)=-roundTo k v := by
  rw [roundTo,roundTo,abs_neg,neg_div,roundEven_neg]
  push_cast
  ring

theorem Leads.roundTo_eq (h : Leads k v m e) :
    roundTo k v=if v < (m+1/2)*10^e ∨ v=(m+1/2)*10^e ∧ Even m then (m : ℚ)*10^e
      else (m+1)*10^e := by
  have hpow : (0 : ℚ) < 10^e := by positivity
  have hfloor : ⌊v/10^e⌋=(m : ℤ) := by
    rw [Int.floor_eq_iff,le_div_iff₀ hpow,div_lt_iff₀ hpow]
    exact ⟨h.le_value,h.value_lt⟩
  have hfract : Int.fract (v/10^e)=v/10^e-m := by
    rw [Int.fract,hfloor]
    rfl
  have hlt : v/10^e-m < 1/2 ↔ v < (m+1/2)*10^e := by
    rw [sub_lt_iff_lt_add,div_lt_iff₀ hpow,add_comm]
  have heq : v/10^e-m=1/2 ↔ v=(m+1/2)*10^e := by
    rw [sub_eq_iff_eq_add,div_eq_iff hpow.ne',add_comm]
  rw [roundTo,abs_of_pos h.pos,h.log_eq,add_sub_cancel_right,roundEven]
  simp only [hfract,hfloor,hlt,heq,Int.even_coe_nat]
  split <;> push_cast <;> rfl

theorem roundTo_zero (k : ℕ) : roundTo k 0=0 := by simp [roundTo,roundEven]

theorem roundTo_of_lt (hn : 0 < n) (hn' : n < 10^(k+1)) (x : ℤ) : roundTo k (n*10^x)=n*10^x := by
  obtain ⟨i,-,h⟩ := exists_leads hn hn' x
  rw [h.roundTo_eq,if_pos (Or.inl _),← scaled_mul]
  rw [scaled_mul n i]
  exact mul_lt_mul_of_pos_right (by linarith) (by positivity)

/-- A number is rounded to one with few digits that is as near as half of the next digit. -/
theorem roundTo_of_near (hm : 10^k ≤ m) (hm' : m < 10^(k+1)) (h : |v-m*10^e| < 10^(e-1)/2) :
    roundTo k v=m*10^e := by
  obtain ⟨u,hu,hpos⟩ : ∃ u : ℚ, 10^(e-1)=u ∧ 0 < u := ⟨_,rfl,by positivity⟩
  have hten : (10 : ℚ)^e=10*u := by
    rw [← hu,zpow_sub_one₀ (by norm_num)]
    field_simp
  rw [hu,hten,abs_lt] at h
  rcases le_or_gt ((m : ℚ)*10^e) v with hle | hlt
  · -- the digits of `m`, and nothing to round
    have hleads : Leads k v m e := ⟨hm,hm',hle,by rw [hten]; linarith⟩
    rw [hleads.roundTo_eq,if_pos (Or.inl (by rw [hten]; linarith))]
  · have hone : 1 ≤ m := Nat.one_le_iff_ne_zero.mpr (lt_of_lt_of_le (by positivity) hm).ne'
    obtain ⟨n,rfl⟩ : ∃ n, m=n+1 := ⟨m-1,by omega⟩
    push_cast at h hlt ⊢
    rw [hten] at hlt
    rcases hm.eq_or_lt with heq | hgt
    · -- the nines below a power of ten
      have hnines : ((10^(k+1)-1 : ℕ) : ℚ)=(n+1)*10-1 := by
        rw [Nat.cast_sub (Nat.one_le_two_pow.trans (Nat.pow_le_pow_left (by decide) _)),pow_succ,
          heq]
        push_cast
        ring
      have hleads : Leads k v (10^(k+1)-1) (e-1) := by
        have hpow : 10^k < 10^(k+1) := Nat.pow_lt_pow_right (by decide) (Nat.lt_succ_self k)
        refine ⟨by omega,by omega,?_,?_⟩ <;> rw [hnines,hu] <;> linarith
      rw [hleads.roundTo_eq,hnines,hu,hten,if_neg]
      · ring
      · rintro (hv | ⟨hv,-⟩) <;> linarith
    · have hleads : Leads k v n e := by
        refine ⟨by omega,by omega,?_,?_⟩ <;> rw [hten] <;> linarith
      rw [hleads.roundTo_eq,hten,if_neg]
      rintro (hv | ⟨hv,-⟩) <;> linarith

end Decimal
