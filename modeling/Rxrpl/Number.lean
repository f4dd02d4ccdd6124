import Rxrpl.IOUAmount

/-!
# Numbers with guard digits

`Number` of the amounts crate: a sign, a mantissa in the range of the mantissa scale and a power
of ten. The scale and the rounding mode, which the source keeps in thread-local cells, are
arguments here.
-/

namespace Rxrpl

open DecimalText List

inductive MantissaScale
  | large
  | small
deriving DecidableEq

inductive RoundingMode
  | toNearest
  | towardsZero
  | downward
  | upward
deriving DecidableEq

namespace MantissaScale

def minMantissa : MantissaScale → ℕ
  | large => 10^18
  | small => 10^15

def maxMantissa : MantissaScale → ℕ
  | large => 10^19-1
  | small => 10^16-1

end MantissaScale

def maxRep : ℕ := 2^63-1

def minExponent : ℤ := -32768

structure Number where
  negative : Bool
  mantissa : ℕ
  exponent : ℤ
deriving DecidableEq

/-- Sixteen decimal digits that fell off a mantissa, one in each nibble, the last one uppermost. -/
structure Guard where
  digits : ℕ
  xbit : Bool
  sbit : Bool
deriving DecidableEq

namespace Number

/-- `Number::ZERO`, whose exponent is the smallest `i32`. -/
def zero : Number := ⟨false,0,-2^31⟩

def isZero (n : Number) : Bool := n.mantissa == 0

end Number

namespace Guard

/-- `Guard::default`, with the sign and the dropped bit set at once. -/
def start (negative dropped : Bool) : Guard := ⟨0,dropped,negative⟩

def doPush (g : Guard) (d : ℕ) : Guard :=
  { g with
    xbit := g.xbit || g.digits &&& 0xF != 0
    digits := (g.digits >>> 4) ||| ((d &&& 0xF) <<< 60) }

/-- `drop_digit_u128`. -/
def dropDigit (g : Guard) (n : Number) : Guard × Number :=
  (g.doPush (n.mantissa % 10),
    { n with mantissa := n.mantissa/10, exponent := wrapI32 (n.exponent+1) })

/-- `round`: below half, exactly half or above half. -/
def round (mode : RoundingMode) (g : Guard) : ℤ :=
  match mode with
  | .towardsZero => -1
  | .downward => if g.sbit && (g.digits > 0 || g.xbit) then 1 else -1
  | .upward => if g.sbit then -1 else if g.digits > 0 || g.xbit then 1 else -1
  | .toNearest =>
    if g.digits > 0x5000000000000000 then 1
    else if g.digits < 0x5000000000000000 then -1
    else if g.xbit then 1
    else 0

def bringIntoRange (scale : MantissaScale) (n : Number) : Number :=
  let n' :=
    if n.mantissa < scale.minMantissa then
      { n with mantissa := n.mantissa*10, exponent := wrapI32 (n.exponent - 1) }
    else n
  if n'.exponent < minExponent then .zero else n'

/-- `do_round_up`, which calls itself at most once: after a digit is dropped the mantissa is safe.
-/
def doRoundUp (scale : MantissaScale) (mode : RoundingMode) : ℕ → Guard → Number → Number
  | 0, _, n => n
  | fuel+1, g, n =>
    let r := g.round mode
    if r=1 ∨ r=0 ∧ n.mantissa &&& 1=1 then
      if n.mantissa < scale.maxMantissa ∧ n.mantissa < maxRep then
        bringIntoRange scale { n with mantissa := n.mantissa+1 }
      else
        let (g',n') := g.dropDigit n
        doRoundUp scale mode fuel g' n'
    else bringIntoRange scale n

end Guard

namespace Number

/-- The loop of `do_normalize` that multiplies a mantissa below the scale by ten. -/
def grow (scale : MantissaScale) : ℕ → Number → Number
  | 0, n => n
  | fuel+1, n =>
    if n.mantissa < scale.minMantissa ∧ n.exponent > minExponent then
      grow scale fuel { n with mantissa := n.mantissa*10, exponent := wrapI32 (n.exponent - 1) }
    else n

/-- The loop of `do_normalize` that drops the digits of a mantissa above the scale. -/
def shrink (scale : MantissaScale) : ℕ → Guard → Number → Guard × Number
  | 0, g, n => (g,n)
  | fuel+1, g, n =>
    if n.mantissa > scale.maxMantissa then
      let (g',n') := g.dropDigit n
      shrink scale fuel g' n'
    else (g,n)

/-- `do_normalize`; a positive mantissa is grown at most eighteen times, and a `u128` has at most
39 digits. -/
def doNormalize (scale : MantissaScale) (mode : RoundingMode) (n : Number) (dropped : Bool) :
    Number :=
  if n.mantissa=0 then zero
  else
    let (g,m) := shrink scale 39 (Guard.start n.negative dropped) (grow scale 18 n)
    if m.exponent < minExponent ∨ m.mantissa < scale.minMantissa then zero
    else if m.mantissa > maxRep then
      let (g',m') := g.dropDigit m
      g'.doRoundUp scale mode 2 m'
    else g.doRoundUp scale mode 2 m

def new (scale : MantissaScale) (mode : RoundingMode) (negative : Bool) (mantissa : ℕ)
    (exponent : ℤ) : Number :=
  doNormalize scale mode ⟨negative,mantissa,exponent⟩ false

def fromIou (scale : MantissaScale) (mode : RoundingMode) (iou : IOUAmount) : Number :=
  if iou.isZero then zero else new scale mode iou.negative iou.mantissa iou.exponent

def toDecimalString (n : Number) : Bytes :=
  if n.isZero then [48]
  else
    let sign := signText n.negative
    let digits := natText n.mantissa
    if n.exponent ≥ 0 then sign++(digits++List.replicate n.exponent.toNat 48)
    else
      let frac := (-n.exponent).toNat
      if frac ≥ digits.length then
        let zeros := List.replicate (frac-digits.length) 48
        sign++([48]++46::(zeros++digits.rdropWhile (· == 48)))
      else
        let point := digits.length-frac
        let intPart := digits.take point
        let fracPart := (digits.drop point).rdropWhile (· == 48)
        if fracPart=[] then sign++intPart else sign++(intPart++46::fracPart)

def value (n : Number) : ℚ := signed n.negative (n.mantissa*10^n.exponent)

/-- The number of digits beyond sixteen. -/
def excessDigits : ℕ → ℕ → ℕ
  | 0, _ => 0
  | fuel+1, m => if m > 10^16-1 then excessDigits fuel (m/10)+1 else 0

end Number

/-! ## Exact normalising -/

theorem Guard.round_start (mode : RoundingMode) (negative : Bool) :
    (Guard.start negative false).round mode=-1 := by
  cases mode <;> cases negative <;> rfl

variable {n : Number} {scale : MantissaScale}

theorem Guard.doRoundUp_of_exact {mode : RoundingMode} {g : Guard} (hround : g.round mode=-1)
    (fuel : ℕ) (n : Number) : g.doRoundUp scale mode (fuel+1) n=bringIntoRange scale n := by
  rw [doRoundUp,hround]
  simp

theorem Guard.doPush_zero (negative : Bool) :
    (Guard.start negative false).doPush 0=Guard.start negative false := by
  cases negative <;> decide

theorem Guard.bringIntoRange_of_le (hm : scale.minMantissa ≤ n.mantissa)
    (he : minExponent ≤ n.exponent) : bringIntoRange scale n=n := by
  simp only [bringIntoRange]
  rw [if_neg (Nat.not_lt.mpr hm),if_neg (not_lt.mpr he)]

theorem Guard.bringIntoRange_of_lt (hm : n.mantissa < scale.minMantissa)
    (he : minExponent ≤ wrapI32 (n.exponent-1)) :
    bringIntoRange scale
      n={ n with mantissa := n.mantissa*10, exponent := wrapI32 (n.exponent-1) } := by
  simp only [bringIntoRange,if_pos hm]
  rw [if_neg (not_lt.mpr he)]

namespace Number

variable {e : ℤ} {m : ℕ} {n : Number} {scale : MantissaScale}

theorem shrink_of_le (h : n.mantissa ≤ scale.maxMantissa) (fuel : ℕ) (g : Guard) :
    shrink scale fuel g n=(g,n) := by
  cases fuel with
  | zero => rfl
  | succ fuel => rw [shrink,if_neg (by omega)]

theorem grow_of_le (h : scale.minMantissa ≤ n.mantissa) (fuel : ℕ) : grow scale fuel n=n := by
  cases fuel with
  | zero => rfl
  | succ fuel => rw [grow,if_neg (by omega)]

theorem new_of_mem (mode : RoundingMode) (negative : Bool) (hm : 10^18 ≤ m) (hm' : m < 2^63)
    (he : minExponent ≤ e) : new .large mode negative m e=⟨negative,m,e⟩ := by
  have hgrow : grow .large 18 ⟨negative,m,e⟩=⟨negative,m,e⟩ :=
    grow_of_le (by simp only [MantissaScale.minMantissa]; omega) 18
  have hshrink : shrink .large 39 (Guard.start negative false)
    ⟨negative,m,e⟩=(Guard.start negative false,⟨negative,m,e⟩) :=
    shrink_of_le (by simp only [MantissaScale.maxMantissa]; omega) _ _
  rw [new,doNormalize,if_neg (by dsimp only; omega),hgrow,hshrink]
  dsimp only
  rw [if_neg (by simp only [MantissaScale.minMantissa]; omega),if_neg (by rw [maxRep]; omega),
    Guard.doRoundUp_of_exact (Guard.round_start mode negative)]
  exact Guard.bringIntoRange_of_le hm he

theorem grow_canonical {negative : Bool} (hm : 10^15 ≤ m) (hm' : m < 10^16) (he : -96 ≤ e)
    (he' : e ≤ 80) :
    grow .large 18 ⟨negative,m,e⟩=⟨negative,m*1000,e-3⟩ := by
  have hwrap : ∀ x : ℤ, -100 ≤ x → x ≤ 100 → wrapI32 x=x := fun x h h' =>
    wrapI32_of_range (by omega) (by omega)
  have hstep : ∀ (fuel k : ℕ) (x : ℤ), k < 10^18 → -99 ≤ x → x ≤ 100 →
      grow .large (fuel+1) ⟨negative,k,x⟩=grow .large fuel ⟨negative,k*10,x-1⟩ := by
    intro fuel k x hk hx hx'
    rw [grow,if_pos ⟨hk,by rw [minExponent]; dsimp only; omega⟩,
      hwrap _ (by dsimp only; omega) (by dsimp only; omega)]
  rw [hstep 17 m e (by omega) (by omega) (by omega),hstep 16 _ _ (by omega) (by omega) (by omega),
    hstep 15 _ _ (by omega) (by omega) (by omega),
      grow_of_le (by simp only [MantissaScale.minMantissa]; omega)]
  congr 1
  · omega
  · omega

/-- A canonical amount gets three more digits, all zero; one above the range of an `i64` loses a
zero and gets it back. -/
theorem new_canonical (mode : RoundingMode) (negative : Bool) (hm : 10^15 ≤ m) (hm' : m < 10^16)
    (he : -96 ≤ e) (he' : e ≤ 80) : new .large mode negative m e=⟨negative,m*1000,e-3⟩ := by
  have hshrink : shrink .large 39 (Guard.start negative false) ⟨negative,m*1000,e-3⟩ =
      (Guard.start negative false,⟨negative,m*1000,e-3⟩) :=
    shrink_of_le (by simp only [MantissaScale.maxMantissa]; omega) _ _
  rw [new,doNormalize,if_neg (by dsimp only; omega),grow_canonical hm hm' he he',hshrink]
  dsimp only
  rw [if_neg (by simp only [MantissaScale.minMantissa,minExponent]; omega)]
  split
  · have hdrop : (Guard.start negative false).dropDigit ⟨negative,m*1000,e-3⟩ =
        (Guard.start negative false,⟨negative,m*100,e-2⟩) := by
      rw [Guard.dropDigit]
      dsimp only
      rw [show m*1000 % 10=0 by omega,show m*1000/10=m*100 by omega,Guard.doPush_zero,
        wrapI32_of_range (by omega) (by omega),show e-3+1=e-2 by omega]
    rw [hdrop]
    dsimp only
    have hwrap : wrapI32 (e-2-1)=e-3 := by
      rw [wrapI32_of_range (by omega) (by omega)]
      omega
    rw [Guard.doRoundUp_of_exact (Guard.round_start mode negative),Guard.bringIntoRange_of_lt
      (by
        simp only [MantissaScale.minMantissa]; omega)
        (by dsimp only; rw [hwrap,minExponent]; omega)]
    dsimp only
    rw [hwrap,show m*100*10=m*1000 by omega]
  · rw [Guard.doRoundUp_of_exact (Guard.round_start mode negative)]
    exact Guard.bringIntoRange_of_le (by simp only [MantissaScale.minMantissa]; omega)
      (by rw [minExponent]; dsimp only; omega)

/-! ## Texts -/

theorem read_toDecimalString (n : Number) : read n.toDecimalString=some n.value := by
  rw [toDecimalString]
  split
  · rename_i hzero
    have hm : n.mantissa=0 := by simpa [isZero] using hzero
    have hread := read_digits false (s := [48]) (by simp) (by simp [isDigit_zero])
    rw [show signText false++[48]=([48] : Bytes) from rfl] at hread
    rw [hread,value,hm]
    cases n.negative <;> simp [signed,natValue,digitValue,Numeral.value]
  · have hdigits : ∀ c∈natText n.mantissa, isDigit c := fun c hc => isDigit_of_mem_natText hc
    have hvalue := natValue_natText n.mantissa
    have hne := natText_ne_nil n.mantissa
    dsimp only
    rw [value]
    generalize n.exponent=e
    set s := natText n.mantissa
    have hzeros : ∀ k, ∀ c∈replicate k (48 : UInt8), isDigit c := by
      intro k c hc
      rw [eq_of_mem_replicate hc]
      exact isDigit_zero
    split
    · rename_i he
      lift e to ℕ using he
      rw [read_digits _ (by simp [hne])
        (fun c hc => (mem_append.mp hc).elim (hdigits c) (hzeros _ c)),
        natValue_append_zeros,hvalue,Int.toNat_natCast,zpow_natCast]
      push_cast
      rfl
    · rename_i he
      obtain ⟨k,hk⟩ : ∃ k : ℕ, e=-(k : ℤ) := ⟨(-e).toNat,by omega⟩
      rw [hk,neg_neg,Int.toNat_natCast]
      obtain ⟨z,hz⟩ := rdropWhile_zeros s
      split
      · -- only zeros stand before the digits
        rename_i hlen
        have htrim : ∀ c∈s.rdropWhile (· == 48), isDigit c :=
          fun c hc => hdigits c (by rw [hz]; exact mem_append_left _ hc)
        have hscaled := scaled_zeros [48] (replicate (k-s.length) 48++s.rdropWhile (· == 48)) z
        rw [append_assoc,← hz] at hscaled
        rw [read_point _ (by simp) (by simp [isDigit_zero])
          (fun c hc => (mem_append.mp hc).elim (hzeros _ c) (htrim c)),← hscaled]
        have hnum : natValue ([48]++(replicate (k-s.length) 48++s))=n.mantissa := by
          rw [show ([48] : Bytes)=replicate 1 48 from rfl,natValue_zeros_append,
            natValue_zeros_append,hvalue]
        rw [hnum,length_append,length_replicate,Nat.sub_add_cancel hlen]
      · rename_i hlen
        obtain ⟨z',hz'⟩ := rdropWhile_zeros (s.drop (s.length-k))
        set t := (s.drop (s.length-k)).rdropWhile (· == 48)
        have hsplit : s.take (s.length-k)++s.drop (s.length-k)=s := take_append_drop ..
        have hk' : (s.drop (s.length-k)).length=k := by rw [length_drop]; omega
        have hfront : ∀ c∈s.take (s.length-k), isDigit c := fun c hc =>
          hdigits c (mem_of_mem_take hc)
        have hfront' : s.take (s.length-k)≠[] := by
          intro hnil
          have := congrArg length hnil
          rw [length_take,length_nil] at this
          omega
        have ht : ∀ c∈t, isDigit c :=
          fun c hc => hdigits c (mem_of_mem_drop (by rw [hz']; exact mem_append_left _ hc))
        have hscaled := scaled_zeros (s.take (s.length-k)) t z'
        rw [← hz',hsplit,hvalue,hk'] at hscaled
        split
        · rename_i hnil
          rw [read_digits _ hfront' hfront,hscaled,hnil]
          simp
        · rw [read_point _ hfront' hfront ht,hscaled]

/-! ## Normal numbers -/

def Normal (n : Number) : Prop := n=zero ∨ 10^18 ≤ n.mantissa ∧ n.mantissa < 10^19

theorem zero_value : zero.value=0 := by simp [value,zero,signed]

theorem value_ne_zero (h : 10^18 ≤ n.mantissa) : n.value≠0 := by
  rw [← abs_pos,value,abs_signed,abs_of_nonneg (by positivity)]
  have : 0 < n.mantissa := lt_of_lt_of_le (by positivity) h
  positivity

theorem eq_of_value {n' : Number} (h : n.Normal) (h' : n'.Normal) (hv : n.value=n'.value) :
    n=n' := by
  rcases h with rfl | ⟨hm,hm'⟩
  · rcases h' with rfl | ⟨hn,-⟩
    · rfl
    · exact absurd (hv.symm.trans zero_value) (value_ne_zero hn)
  · rcases h' with rfl | ⟨hn,hn'⟩
    · exact absurd (hv.trans zero_value) (value_ne_zero hm)
    · obtain ⟨h₁,h₂,h₃⟩ := signed_unique hm hm' hn hn' hv
      cases n
      cases n'
      simp_all

theorem grow_bounds {fuel : ℕ} (h : n.mantissa < 10^19) :
    (grow .large fuel n).mantissa < 10^19 := by
  induction fuel generalizing n with
  | zero => exact h
  | succ fuel ih =>
    rw [grow]
    split
    · rename_i hlt
      have hmin : n.mantissa < 10^18 := hlt.1
      exact ih (by dsimp only; omega)
    · exact h

theorem bringIntoRange_normal (hlo : 10^17 ≤ n.mantissa) (hhi : n.mantissa < 10^19) :
    (Guard.bringIntoRange .large n).Normal := by
  simp only [Guard.bringIntoRange]
  by_cases hm : n.mantissa < MantissaScale.large.minMantissa
  · have hm' : n.mantissa < 10^18 := hm
    rw [if_pos hm]
    split
    · exact Or.inl rfl
    · exact Or.inr ⟨by dsimp only; omega,by dsimp only; omega⟩
  · have hm' : ¬ n.mantissa < 10^18 := hm
    rw [if_neg hm]
    split
    · exact Or.inl rfl
    · exact Or.inr ⟨by omega,hhi⟩

theorem new_normal (mode : RoundingMode) (negative : Bool) (hm : m ≤ 2^63) (e : ℤ) :
    (new .large mode negative m e).Normal := by
  have hgrow : (grow .large 18 ⟨negative,m,e⟩).mantissa < 10^19 :=
    grow_bounds (by dsimp only; omega)
  rw [new,doNormalize]
  split
  · exact Or.inl rfl
  generalize grow .large 18 ⟨negative,m,e⟩=g at hgrow ⊢
  rw [shrink_of_le (by simp only [MantissaScale.maxMantissa]; omega)]
  dsimp only
  split
  · exact Or.inl rfl
  rename_i hrange
  have hlo : 10^18 ≤ g.mantissa := by
    simp only [MantissaScale.minMantissa] at hrange
    omega
  split
  · -- one digit is dropped, and the mantissa is then rounded without leaving its range
    simp only [Guard.dropDigit]
    rw [Guard.doRoundUp]
    split
    · rw [if_pos
        ⟨by simp only [MantissaScale.maxMantissa]; omega,by rw [maxRep]; dsimp only; omega⟩]
      exact bringIntoRange_normal (by dsimp only; omega) (by dsimp only; omega)
    · exact bringIntoRange_normal (by dsimp only; omega) (by dsimp only; omega)
  · rw [Guard.doRoundUp_of_exact (Guard.round_start mode negative)]
    exact bringIntoRange_normal (by omega) hgrow

end Number

end Rxrpl
