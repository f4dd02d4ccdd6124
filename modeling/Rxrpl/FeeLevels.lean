import Mathlib.Algebra.Order.Ring.Nat

/-!
# Fee levels

The queue orders transactions by fee level, the fee in 256ths of the base fee, and asks for a higher
level once it is more than half full. Every product is taken in `u64`, so the order of the fees and
the way back from a level to drops last as long as those products fit.
-/

namespace Rxrpl.Txq

/-- `FeeLevel::new`. -/
def FeeLevel.new (feeDrops baseFee : ℕ) : ℕ :=
  if baseFee=0 then feeDrops else feeDrops*256 % 2^64/baseFee

structure FeeMetrics where
  queueSize : ℕ
  maxSize : ℕ

def baseFeeLevel : ℕ := 256

namespace FeeMetrics

def escalatedFeeLevel (m : FeeMetrics) (baseFeeLevel : ℕ) : ℕ :=
  if m.maxSize=0 ∨ m.queueSize ≤ m.maxSize/2 then baseFeeLevel
  else
    let ratio := m.queueSize*256 % 2^64/m.maxSize
    baseFeeLevel*ratio % 2^64/128

/-- `escalated_fee_drops`, rounded up by `div_ceil`. -/
def escalatedFeeDrops (m : FeeMetrics) (baseFee : ℕ) : ℕ :=
  (m.escalatedFeeLevel baseFeeLevel*baseFee % 2^64+255)/256

variable {m : FeeMetrics} {base limit : ℕ}

theorem escalatedFeeLevel_eq (hmax : m.maxSize < 2^32) (hq : m.queueSize ≤ m.maxSize) :
    m.escalatedFeeLevel baseFeeLevel=if m.queueSize ≤ m.maxSize/2 then 256
      else 2*(m.queueSize*256/m.maxSize) := by
  have hratio : m.queueSize*256/m.maxSize ≤ 256 :=
    Nat.div_le_of_le_mul (Nat.mul_le_mul_right 256 hq)
  have hfits : m.queueSize*256 % 2^64=m.queueSize*256 := Nat.mod_eq_of_lt (by omega)
  simp only [escalatedFeeLevel,baseFeeLevel,hfits]
  split_ifs <;> omega

theorem le_escalatedFeeLevel (hmax : m.maxSize < 2^32) (hq : m.queueSize ≤ m.maxSize) :
    256 ≤ m.escalatedFeeLevel baseFeeLevel := by
  rw [escalatedFeeLevel_eq hmax hq]
  split_ifs with h
  · exact le_rfl
  · -- more than half full, the ratio is at least 128
    have : 128 ≤ m.queueSize*256/m.maxSize := (Nat.le_div_iff_mul_le (by omega)).mpr (by omega)
    omega

theorem escalatedFeeLevel_mono (hmax : m.maxSize < 2^32) {q : ℕ} (hmq : m.queueSize ≤ q)
    (hq : q ≤ m.maxSize) :
    m.escalatedFeeLevel baseFeeLevel ≤ { m with queueSize := q }.escalatedFeeLevel
      baseFeeLevel := by
  have hleast : 256 ≤ { m with queueSize := q }.escalatedFeeLevel baseFeeLevel :=
    le_escalatedFeeLevel hmax hq
  have hdiv : m.queueSize*256/m.maxSize ≤ q*256/m.maxSize :=
    Nat.div_le_div_right (Nat.mul_le_mul_right 256 hmq)
  rw [escalatedFeeLevel_eq hmax (hmq.trans hq)]
  rw [escalatedFeeLevel_eq (m := { m with queueSize := q }) hmax hq] at *
  dsimp only at *
  split_ifs at * <;> omega

/-- The first fee whose product wraps has level zero. -/
theorem feeLevel_mono_iff (hbase : 0 < base) (hbase' : base ≤ 10^17) :
    (∀ a b, a ≤ b → b ≤ limit → FeeLevel.new a base ≤ FeeLevel.new b base) ↔ limit < 2^56 := by
  simp only [FeeLevel.new,hbase.ne',if_false]
  constructor
  · intro h
    by_contra hl
    have hwrap := h (2^56-1) (2^56) (by omega) (by omega)
    rw [show 2^56*256 % 2^64=0 from rfl,Nat.zero_div,Nat.le_zero,Nat.div_eq_zero_iff] at hwrap
    omega
  · intro hl a b hab hb
    rw [Nat.mod_eq_of_lt (by omega),Nat.mod_eq_of_lt (by omega)]
    exact Nat.div_le_div_right (by omega)

/-- A level is reached by the drops computed for it exactly when neither product wraps. -/
theorem le_feeLevel_iff {level : ℕ} (hbase : 0 < base) (hlevel : 0 < level) :
    level ≤ FeeLevel.new ((level*base % 2^64+255)/256) base ↔ level*base+256 ≤ 2^64 := by
  simp only [FeeLevel.new,hbase.ne',if_false]
  rw [Nat.le_div_iff_mul_le hbase]
  have hpos : 0 < level*base := Nat.mul_pos hlevel hbase
  generalize level*base=n at *
  omega

/-- Fees up to a limit are ordered by their levels exactly when 256 times the limit fits in a `u64`.
The escalated level grows with the queue and is never below the base level, and the escalated drops
reach it exactly when the price in 256ths of a drop, rounded up, fits. -/
theorem fee_levels_iff (m : FeeMetrics) (base limit : ℕ) (hbase : 0 < base) (hbase' : base ≤ 10^17)
    (hmax : m.maxSize < 2^32) (hq : m.queueSize ≤ m.maxSize) :
    ((∀ a b, a ≤ b → b ≤ limit → FeeLevel.new a base ≤ FeeLevel.new b base) ↔ limit < 2^56) ∧
      (∀ q, m.queueSize ≤ q → q ≤ m.maxSize →
        m.escalatedFeeLevel baseFeeLevel ≤ { m with queueSize := q }.escalatedFeeLevel
          baseFeeLevel) ∧
      256 ≤ m.escalatedFeeLevel baseFeeLevel ∧
      (m.escalatedFeeLevel baseFeeLevel ≤ FeeLevel.new (m.escalatedFeeDrops base) base ↔
        m.escalatedFeeLevel baseFeeLevel*base+256 ≤ 2^64) := by
  have hleast := le_escalatedFeeLevel hmax hq
  exact ⟨feeLevel_mono_iff hbase hbase',fun q => escalatedFeeLevel_mono hmax,hleast,
    le_feeLevel_iff hbase (by omega)⟩

/-- At a base fee of ten drops fees up to 10^16 drops are ordered, the level of a queue of three
grows with a fourth transaction, and the escalated drops reach it. -/
theorem fee_levels_at_ten : (∀ a b, a ≤ b → b ≤ 10^16 → FeeLevel.new a 10 ≤ FeeLevel.new b 10) ∧
    (FeeMetrics.mk 3 4).escalatedFeeLevel baseFeeLevel ≤
      (FeeMetrics.mk 4 4).escalatedFeeLevel baseFeeLevel ∧
    (FeeMetrics.mk 3 4).escalatedFeeLevel baseFeeLevel ≤
      FeeLevel.new ((FeeMetrics.mk 3 4).escalatedFeeDrops 10) 10 := by
  obtain ⟨hmono,hgrows,-,hreach⟩ :=
    fee_levels_iff ⟨3,4⟩ 10 (10^16) (by decide) (by decide) (by decide) (by decide)
  exact ⟨hmono.mpr (by decide),hgrows 4 (by decide) (by decide),hreach.mpr (by decide)⟩

/-- Two fees of less than 10^17 drops, and the larger one has level zero; at a base fee of 10^17
drops the escalated drops of a full queue are too few. -/
theorem larger_fee_has_level_zero :
    FeeLevel.new (2^56-1) 10=1844674407370955136 ∧ FeeLevel.new (2^56) 10=0 ∧
      FeeLevel.new ((FeeMetrics.mk 4 4).escalatedFeeDrops (10^17)) (10^17)=143 := by decide

end FeeMetrics
end Rxrpl.Txq
