import Mathlib.Data.Nat.Digits.Lemmas

/-!
# Big-endian numerals

A word of digits in any base, most significant digit first. `value` reads a word,
`digits` writes a number without leading zeros and `fixed` writes it on a given number of
places.
-/

namespace Numeral

open List

def value (b : ℕ) (ds : List ℕ) : ℕ := ds.foldl (fun a d => a*b+d) 0

variable {b : ℕ}

theorem foldl_eq (ds : List ℕ) (a : ℕ) :
    ds.foldl (fun a d => a*b+d) a=a*b^ds.length+value b ds := by
  induction ds generalizing a with
  | nil => simp [value]
  | cons d ds ih =>
    simp only [value,foldl_cons,length_cons,zero_mul,zero_add]
    rw [ih,ih d,pow_succ]
    ring

@[simp] theorem value_nil : value b []=0 := rfl

@[simp] theorem value_singleton (d : ℕ) : value b [d]=d := by simp [value]

theorem value_append (xs ys : List ℕ) : value b (xs++ys)=value b xs*b^ys.length+value b ys := by
  rw [value,foldl_append,foldl_eq]
  rfl

theorem value_cons (d : ℕ) (ds : List ℕ) : value b (d::ds)=d*b^ds.length+value b ds := by
  rw [← singleton_append,value_append,value_singleton]

theorem value_concat (ds : List ℕ) (d : ℕ) : value b (ds++[d])=value b ds*b+d := by
  simp [value_append]

theorem value_eq_ofDigits (ds : List ℕ) : value b ds=Nat.ofDigits b ds.reverse := by
  induction ds with
  | nil => rfl
  | cons d ds ih => rw [value_cons,reverse_cons,Nat.ofDigits_append,ih]; simp; ring

theorem value_lt (hb : 1 < b) {ds : List ℕ} (h : ∀ d∈ds, d < b) : value b ds < b^ds.length := by
  rw [value_eq_ofDigits,← length_reverse]
  exact Nat.ofDigits_lt_base_pow_length hb fun d hd => h d (mem_reverse.mp hd)

@[simp] theorem value_replicate_zero (n : ℕ) : value b (replicate n 0)=0 := by
  induction n with
  | zero => rfl
  | succ n ih => rw [replicate_succ,value_cons,ih]; simp

theorem value_zeros_append (n : ℕ) (ds : List ℕ) : value b (replicate n 0++ds)=value b ds := by
  simp [value_append]

theorem value_append_zeros (ds : List ℕ) (n : ℕ) : value b (ds++replicate n 0)=value b ds*b^n := by
  simp [value_append]

theorem value_dropWhile_zero (ds : List ℕ) : value b (ds.dropWhile (· == 0))=value b ds := by
  induction ds with
  | nil => rfl
  | cons d ds ih =>
    by_cases hd : d=0
    · rw [dropWhile_cons_of_pos (by simp [hd]),ih,value_cons,hd,zero_mul,zero_add]
    · rw [dropWhile_cons_of_neg (by simp [hd])]

theorem pow_le_value {d : ℕ} {ds : List ℕ} (h : d≠0) : b^ds.length ≤ value b (d::ds) := by
  rw [value_cons]
  exact (Nat.le_mul_of_pos_left _ (Nat.pos_of_ne_zero h)).trans (Nat.le_add_right _ _)

/-! ## Writing a number -/

/-- The digits of a number, without leading zeros: none for zero. -/
def digits (b n : ℕ) : List ℕ := (Nat.digits b n).reverse

@[simp] theorem value_digits (b n : ℕ) : value b (digits b n)=n := by
  rw [value_eq_ofDigits,digits,reverse_reverse,Nat.ofDigits_digits]

theorem digits_lt (hb : 1 < b) {n d : ℕ} (h : d∈digits b n) : d < b :=
    Nat.digits_lt_base hb (mem_reverse.mp h)

@[simp] theorem digits_zero (b : ℕ) : digits b 0=[] := by simp [digits]

theorem digits_ne_nil {n : ℕ} (h : n≠0) : digits b n≠[] := by
  rw [digits,Ne,reverse_eq_nil_iff]
  exact Nat.digits_ne_nil_iff_ne_zero.mpr h

theorem head?_digits (b n : ℕ) : (digits b n).head?≠some 0 := by
  intro h
  by_cases hn : n=0
  · simp [hn] at h
  · rw [digits,head?_reverse,getLast?_eq_some_getLast (Nat.digits_ne_nil_iff_ne_zero.mpr hn)] at h
    exact Nat.getLast_digit_ne_zero b hn (Option.some.inj h)

theorem digits_value (hb : 1 < b) {ds : List ℕ} (h : ∀ d∈ds, d < b) (hhead : ds.head?≠some 0) :
    digits b (value b ds)=ds := by
  rw [value_eq_ofDigits,digits,Nat.digits_ofDigits b hb _ (fun d hd => h d (mem_reverse.mp hd)),
    reverse_reverse]
  intro hne hlast
  rw [getLast_reverse] at hlast
  apply hhead
  rw [head?_eq_some_head (by simpa using hne),hlast]

theorem length_digits_le (hb : 1 < b) {n k : ℕ} (h : n < b^k) : (digits b n).length ≤ k := by
  rw [digits,length_reverse]
  exact (Nat.digits_length_le_iff hb n).mpr h

/-! ## A fixed number of places -/

/-- The last `w` digits of a number, leading zeros included. -/
def fixed (b : ℕ) : ℕ → ℕ → List ℕ
  | 0, _ => []
  | w+1, n => fixed b w (n/b)++[n % b]

@[simp] theorem length_fixed (b w n : ℕ) : (fixed b w n).length=w := by
  induction w generalizing n with
  | zero => rfl
  | succ w ih => simp [fixed,ih]

theorem fixed_lt (hb : 0 < b) {w n d : ℕ} (h : d∈fixed b w n) : d < b := by
  induction w generalizing n with
  | zero => simp [fixed] at h
  | succ w ih =>
    rcases mem_append.mp h with h | h
    · exact ih h
    · rw [mem_singleton.mp h]
      exact Nat.mod_lt _ hb

theorem value_fixed (b w n : ℕ) : value b (fixed b w n)=n % b^w := by
  induction w generalizing n with
  | zero => simp [fixed,Nat.mod_one]
  | succ w ih =>
    rw [fixed,value_concat,ih,pow_succ',Nat.mod_mul,add_comm,mul_comm]

end Numeral
