import Rxrpl.LeadingDigits
import Rxrpl.Numeral
import Mathlib.Data.List.DropRight

/-!
# Decimal texts

The decimal texts of rational numbers as words of ASCII bytes: an optional sign, digits with
an optional point, and an optional power of ten. `read` gives the rational that a text
writes. Zeros before the digits, at the end of the fraction or for a power of ten do not
change it.
-/

namespace DecimalText

open List

abbrev Text := List UInt8

def isDigit (c : UInt8) : Bool := 48 ≤ c && c ≤ 57

def digitValue (c : UInt8) : ℕ := c.toNat-48

def digitChar (d : ℕ) : UInt8 := UInt8.ofNat (48+d)

def natValue (s : Text) : ℕ := Numeral.value 10 (s.map digitValue)

def natText (n : ℕ) : Text := if n=0 then [48] else (Numeral.digits 10 n).map digitChar

/-- The parts before and after the first point; the second is empty when there is none. -/
def splitPoint (s : Text) : Text × Text := (s.takeWhile (· ≠ 46),(s.dropWhile (· ≠ 46)).tail)

/-- A possible sign and the rest; `true` for a minus. -/
def splitSign : Text → Bool × Text
  | [] => (false,[])
  | c::s => if c=45 then (true,s) else if c=43 then (false,s) else (false,c::s)

def isExponentMark (c : UInt8) : Bool := c=101 || c=69

def signed (negative : Bool) (q : ℚ) : ℚ := if negative then -q else q

/-- An integer: a possible sign and at least one digit. -/
def readInt (s : Text) : Option ℤ :=
  let (negative,body) := splitSign s
  if body≠[] ∧ body.all isDigit then some (if negative then -(natValue body : ℤ) else natValue body)
    else none

/-- The power of ten that a text ends with; zero when there is no mark. -/
def readExponent (s : Text) : Option ℤ :=
  match s.dropWhile (!isExponentMark ·) with
  | [] => some 0
  | _::e => readInt e

structure Parts where
  negative : Bool
  whole : Text
  fraction : Text
  exponent : ℤ

/-- The parts of a text with at least one digit before the power of ten. -/
def parts (s : Text) : Option Parts :=
  let (negative,body) := splitSign s
  let (whole,fraction) := splitPoint (body.takeWhile (!isExponentMark ·))
  if whole++fraction≠[] ∧ (whole++fraction).all isDigit then
    (readExponent body).map fun e => ⟨negative,whole,fraction,e⟩
  else none

def Parts.magnitude (p : Parts) : ℚ :=
  natValue (p.whole++p.fraction)*10^(p.exponent-(p.fraction.length : ℤ))

def read (s : Text) : Option ℚ := (parts s).map fun p => signed p.negative p.magnitude

/-- The digits from the first one on that is not a zero. -/
def Parts.digits (p : Parts) : Text := (p.whole++p.fraction).dropWhile (· == 48)

theorem magnitude_nonneg (p : Parts) : 0 ≤ p.magnitude := by
  rw [Parts.magnitude]
  positivity

theorem abs_signed (negative : Bool) (q : ℚ) : |signed negative q| = |q| := by
  cases negative <;> simp [signed]

theorem signed_inj {b b' : Bool} {q q' : ℚ} (hq : 0 ≤ q) (hq' : 0 ≤ q') (hne : signed b q≠0)
    (h : signed b q=signed b' q') : b=b' ∧ q=q' := by
  cases b <;> cases b' <;> simp only [signed,if_true,Bool.false_eq_true,if_false] at h hne
  · exact ⟨rfl,h⟩
  · exact absurd (le_antisymm (by linarith) hq) hne
  · exact absurd (by linarith : -q=0) hne
  · exact ⟨rfl,neg_inj.mp h⟩

/-! ## Digits -/

variable {c : UInt8} {d k m m' n : ℕ} {e e' : ℤ} {negative : Bool} {p : Parts} {s t : Text}

theorem toNat_digitChar (h : d < 10) : (digitChar d).toNat=48+d := by
  simp only [digitChar,UInt8.toNat_ofNat']
  omega

theorem isDigit_iff : isDigit c ↔ 48 ≤ c.toNat ∧ c.toNat ≤ 57 := by
  simp [isDigit,UInt8.le_iff_toNat_le]

theorem isDigit_digitChar (h : d < 10) : isDigit (digitChar d) := by
  rw [isDigit_iff,toNat_digitChar h]
  omega

theorem digitValue_digitChar (h : d < 10) : digitValue (digitChar d)=d := by
  rw [digitValue,toNat_digitChar h]
  omega

theorem digitChar_digitValue (h : isDigit c) : digitChar (digitValue c)=c := by
  rw [isDigit_iff] at h
  rw [digitChar,digitValue,Nat.add_sub_cancel' h.1,UInt8.ofNat_toNat]

theorem digitValue_lt (h : isDigit c) : digitValue c < 10 := by
  rw [isDigit_iff] at h
  rw [digitValue]
  omega

theorem isDigit_zero : isDigit 48 := by decide

theorem eq_zero_of_digitValue (h : isDigit c) (hv : digitValue c=0) : c=48 := by
  rw [← digitChar_digitValue h,hv]
  rfl

theorem natValue_append (s t : Text) : natValue (s++t)=natValue s*10^t.length+natValue t := by
  simp [natValue,Numeral.value_append]

theorem natValue_zeros_append (n : ℕ) (s : Text) : natValue (replicate n 48++s)=natValue s := by
  simp [natValue,digitValue,Numeral.value_zeros_append]

theorem natValue_append_zeros (s : Text) (n : ℕ) :
    natValue (s++replicate n 48)=natValue s*10^n := by
  simp [natValue,digitValue,Numeral.value_append_zeros]

theorem natValue_dropWhile (s : Text) : natValue (s.dropWhile (· == 48))=natValue s := by
  induction s with
  | nil => rfl
  | cons c s ih =>
    by_cases hc : c=48
    · have hzero : natValue (48::s)=natValue s := natValue_zeros_append 1 s
      rw [dropWhile_cons_of_pos (by simp [hc]),ih,hc,hzero]
    · rw [dropWhile_cons_of_neg (by simp [hc])]

theorem magnitude_eq (p : Parts) :
    p.magnitude=natValue p.digits*10^(p.exponent-(p.fraction.length : ℤ)) := by
  rw [Parts.digits,natValue_dropWhile,Parts.magnitude]

theorem natValue_lt (h : ∀ c∈s, isDigit c) : natValue s < 10^s.length := by
  rw [natValue,← length_map digitValue]
  apply Numeral.value_lt (by decide)
  intro d hd
  obtain ⟨c,hc,rfl⟩ := mem_map.mp hd
  exact digitValue_lt (h c hc)

theorem natValue_take (h : ∀ c∈s, isDigit c) (n : ℕ) :
    natValue (s.take n)=natValue s/10^(s.drop n).length := by
  have hsplit := natValue_append (s.take n) (s.drop n)
  rw [take_append_drop,mul_comm] at hsplit
  rw [hsplit,Nat.mul_add_div (by positivity),Nat.div_eq_of_lt,add_zero]
  exact natValue_lt fun c hc => h c (mem_of_mem_drop hc)

theorem pow_le_natValue (h : ∀ c∈s, isDigit c) (hne : s≠[]) (hhead : s.head?≠some 48) :
    10^(s.length-1) ≤ natValue s := by
  obtain ⟨c,s,rfl⟩ := exists_cons_of_ne_nil hne
  have hd : digitValue c≠0 := fun hv =>
    hhead (congrArg some (eq_zero_of_digitValue (h c mem_cons_self) hv))
  simpa [natValue] using @Numeral.pow_le_value 10 _ (s.map digitValue) hd

theorem dropWhile_zeros_head? (s : Text) : (s.dropWhile (· == 48)).head?≠some 48 := by
  intro h
  have := head?_dropWhile_not (fun c : UInt8 => c == 48) s
  rw [h] at this
  simp at this

theorem dropWhile_zeros_eq_nil (h : ∀ c∈s, isDigit c) : s.dropWhile (· == 48)=[] ↔
    natValue s=0 := by
  rw [← natValue_dropWhile s]
  refine ⟨fun hnil => by rw [hnil]; rfl,fun hzero => ?_⟩
  by_contra hne
  have hpos := pow_le_natValue (fun c hc => h c ((dropWhile_sublist _).subset hc)) hne
    (dropWhile_zeros_head? s)
  rw [hzero] at hpos
  exact absurd hpos (by simp)

theorem isDigit_of_mem_natText (h : c∈natText n) : isDigit c := by
  rw [natText] at h
  split at h
  · rw [mem_singleton.mp h]
    exact isDigit_zero
  · obtain ⟨d,hd,rfl⟩ := mem_map.mp h
    exact isDigit_digitChar (Numeral.digits_lt (by decide) hd)

theorem natText_ne_nil (n : ℕ) : natText n≠[] := by
  rw [natText]
  split
  · simp
  · rename_i hn
    simpa using Numeral.digits_ne_nil hn

@[simp] theorem natValue_natText (n : ℕ) : natValue (natText n)=n := by
  rw [natText]
  split
  · rename_i hn
    rw [hn]
    rfl
  · rw [natValue,map_map]
    have hmap : (Numeral.digits 10 n).map (digitValue ∘ digitChar)=(Numeral.digits 10 n).map id :=
      map_congr_left fun d hd => digitValue_digitChar (Numeral.digits_lt (by decide) hd)
    rw [hmap,map_id,Numeral.value_digits]

/-! ## The parts of a text -/

theorem parts_eq_some (h : parts s=some p) : ∃ body, splitSign s=(p.negative,body) ∧
      splitPoint (body.takeWhile (!isExponentMark ·))=(p.whole,p.fraction) ∧
      readExponent body=some p.exponent ∧ p.whole++p.fraction≠[] ∧ ∀ c∈p.whole++p.fraction,
        isDigit c := by
  simp only [parts] at h
  split_ifs at h with hif
  obtain ⟨e,he,rfl⟩ := Option.map_eq_some_iff.mp h
  exact ⟨_,rfl,rfl,he,hif.1,all_eq_true.mp hif.2⟩

theorem isDigit_of_mem_digits (h : parts s=some p) (hc : c∈p.digits) : isDigit c :=
  let ⟨_,_,_,_,_,hdigits⟩ := parts_eq_some h
  hdigits c ((dropWhile_sublist _).subset hc)

theorem digits_eq_nil_iff (h : parts s=some p) : p.digits=[] ↔ p.magnitude=0 := by
  obtain ⟨-,-,-,-,-,hdigits⟩ := parts_eq_some h
  rw [Parts.digits,dropWhile_zeros_eq_nil hdigits,Parts.magnitude,mul_eq_zero,Nat.cast_eq_zero]
  exact ⟨Or.inl,fun h => h.resolve_right (by positivity)⟩

theorem splitPoint_cases (s : Text) :
    (s=(splitPoint s).1 ∧ (splitPoint s).2=[]) ∨ s=(splitPoint s).1++46::(splitPoint s).2 := by
  have hsplit := takeWhile_append_dropWhile (p := fun c : UInt8 => decide (c≠46)) (l := s)
  cases hd : s.dropWhile (fun c => decide (c≠46)) with
  | nil =>
    left
    rw [hd,append_nil] at hsplit
    exact ⟨hsplit.symm,by rw [splitPoint,hd]; rfl⟩
  | cons c t =>
    right
    have hc : c=46 := by
      have := head?_dropWhile_not (fun c : UInt8 => decide (c≠46)) s
      rw [hd] at this
      simpa using this
    rw [hd,hc] at hsplit
    rw [splitPoint,hd]
    exact hsplit.symm

/-- A text before whose point stand digits has digits, a point and digits. -/
theorem mem_of_splitPoint (h : ∀ c∈(splitPoint s).1++(splitPoint s).2, isDigit c) (hc : c∈s) :
    isDigit c ∨ c=46 := by
  rcases splitPoint_cases s with ⟨heq,-⟩ | heq
  · rw [heq] at hc
    exact Or.inl (h c (mem_append_left _ hc))
  rw [heq] at hc
  rcases mem_append.mp hc with hc | hc
  · exact Or.inl (h c (mem_append_left _ hc))
  · rcases mem_cons.mp hc with hc | hc
    · exact Or.inr hc
    · exact Or.inl (h c (mem_append_right _ hc))

def isDecimalChar (c : UInt8) : Bool :=
    isDigit c || c == 43 || c == 45 || c == 46 || isExponentMark c

theorem mem_of_splitSign {body : Text} (h : splitSign s=(negative,body)) (hc : c∈s) :
    c=43 ∨ c=45 ∨ c∈body := by
  cases s with
  | nil => cases hc
  | cons c' s =>
    rw [splitSign] at h
    split at h
    · rename_i hminus
      obtain ⟨-,rfl⟩ := Prod.mk.injEq .. ▸ h
      rcases mem_cons.mp hc with rfl | hc
      exacts [Or.inr (Or.inl hminus),Or.inr (Or.inr hc)]
    · split at h
      · rename_i hplus
        obtain ⟨-,rfl⟩ := Prod.mk.injEq .. ▸ h
        rcases mem_cons.mp hc with rfl | hc
        exacts [Or.inl hplus,Or.inr (Or.inr hc)]
      · obtain ⟨-,rfl⟩ := Prod.mk.injEq .. ▸ h
        exact Or.inr (Or.inr hc)

theorem mem_of_readInt {n : ℤ} (h : readInt s=some n) (hc : c∈s) : c=43 ∨ c=45 ∨ isDigit c := by
  simp only [readInt] at h
  split at h
  · rename_i hif
    rcases mem_of_splitSign (s := s) rfl hc with hc | hc | hc
    exacts [Or.inl hc,Or.inr (Or.inl hc),Or.inr (Or.inr (all_eq_true.mp hif.2 c hc))]
  · cases h

theorem isDecimalChar_of_split {body whole fraction : Text} (hsign : splitSign s=(negative,body))
    (hsplit : splitPoint (body.takeWhile (!isExponentMark ·))=(whole,fraction))
    (hexp : readExponent body=some e) (hdigits : ∀ c∈whole++fraction, isDigit c) (hc : c∈s) :
    isDecimalChar c := by
  simp only [isDecimalChar,Bool.or_eq_true,beq_iff_eq]
  rcases mem_of_splitSign hsign hc with rfl | rfl | hbody
  · simp
  · simp
  rw [← takeWhile_append_dropWhile (p := fun c => !isExponentMark c) (l := body)] at hbody
  rcases mem_append.mp hbody with hbody | hbody
  · rcases mem_of_splitPoint (by rw [hsplit]; exact hdigits) hbody with hdigit | rfl
    · simp [hdigit]
    · simp
  · -- the mark and the integer behind it
    rw [readExponent] at hexp
    cases hd : body.dropWhile (!isExponentMark ·) with
    | nil =>
      rw [hd] at hbody
      cases hbody
    | cons mark e =>
      rw [hd] at hbody hexp
      rcases mem_cons.mp hbody with rfl | hbody
      · have := head?_dropWhile_not (!isExponentMark ·) body
        rw [hd] at this
        have hmark : isExponentMark c := by simpa using this
        simp [hmark]
      · rcases mem_of_readInt hexp hbody with rfl | rfl | hdigit
        · simp
        · simp
        · simp [hdigit]

theorem isDecimalChar_of_parts (h : parts s=some p) (hc : c∈s) : isDecimalChar c :=
  let ⟨_,hsign,hsplit,hexp,_,hdigits⟩ := parts_eq_some h
  isDecimalChar_of_split hsign hsplit hexp hdigits hc

theorem lt_of_read {q : ℚ} (h : read s=some q) (hc : c∈s) : c < 128 := by
  obtain ⟨p,hp,-⟩ := Option.map_eq_some_iff.mp h
  have hall : ∀ n < 256, isDecimalChar (UInt8.ofNat n) → n < 128 := by decide +kernel
  have := hall c.toNat c.toNat_lt (by rw [UInt8.ofNat_toNat]; exact isDecimalChar_of_parts hp hc)
  rwa [UInt8.lt_iff_toNat_lt]

/-! ## Reading a written text -/

def signText (negative : Bool) : Text := if negative then [45] else []

theorem splitSign_signText (h : isDigit c) :
    splitSign (signText negative++c::s)=(negative,c::s) := by
  rw [isDigit_iff] at h
  cases negative with
  | true => simp [signText,splitSign]
  | false =>
    have h₁ : c≠45 := by rintro rfl; simp at h
    have h₂ : c≠43 := by rintro rfl; simp at h
    simp [signText,splitSign,h₁,h₂]

theorem ne_point (h : isDigit c) : c≠46 := by
  rintro rfl
  exact absurd h (by decide)

theorem not_isExponentMark (h : isDigit c) : isExponentMark c=false := by
  rw [isDigit_iff] at h
  simp only [isExponentMark,Bool.or_eq_false_iff,decide_eq_false_iff_not]
  constructor <;> rintro rfl <;> simp at h

theorem splitPoint_digits (h : ∀ c∈s, isDigit c) : splitPoint s=(s,[]) := by
  have hall : ∀ c∈s, decide (c≠46)=true := fun c hc => decide_eq_true (ne_point (h c hc))
  rw [splitPoint,takeWhile_eq_self_iff.mpr hall,dropWhile_eq_nil_iff.mpr hall]
  rfl

theorem splitPoint_append (h : ∀ c∈s, isDigit c) : splitPoint (s++46::t)=(s,t) := by
  have hall : ∀ c∈s, decide (c≠46)=true := fun c hc => decide_eq_true (ne_point (h c hc))
  rw [splitPoint,takeWhile_append_of_pos hall,dropWhile_append_of_pos hall]
  simp

theorem parts_of_body {whole fraction : Text} (hc : isDigit c)
    (hmark : ∀ c'∈c::s, isExponentMark c'=false) (hsplit : splitPoint (c::s)=(whole,fraction))
    (hne : whole++fraction≠[]) (hdigits : ∀ c∈whole++fraction, isDigit c) :
    parts (signText negative++c::s)=some ⟨negative,whole,fraction,0⟩ := by
  have hall : ∀ c'∈c::s, (!isExponentMark c')=true := fun c' hc' => by rw [hmark c' hc']; rfl
  have hexp : readExponent (c::s)=some 0 := by
    rw [readExponent,dropWhile_eq_nil_iff.mpr hall]
  rw [parts,splitSign_signText hc]
  dsimp only
  rw [takeWhile_eq_self_iff.mpr hall,hsplit]
  dsimp only
  rw [if_pos ⟨hne,all_eq_true.mpr hdigits⟩,hexp]
  rfl

theorem read_digits (negative : Bool) (hne : s≠[]) (h : ∀ c∈s, isDigit c) :
    read (signText negative++s)=some (signed negative (natValue s)) := by
  obtain ⟨c,s,rfl⟩ := exists_cons_of_ne_nil hne
  rw [read,parts_of_body (h c (by simp)) (fun c' hc' => not_isExponentMark (h c' hc'))
    (splitPoint_digits h)
    (by simp) (by simpa using h)]
  simp [Parts.magnitude]

theorem read_point (negative : Bool) (hne : s≠[]) (hs : ∀ c∈s, isDigit c) (ht : ∀ c∈t, isDigit c) :
    read (signText negative++(s++46::t))=some
      (signed negative (natValue (s++t)*10^(-(t.length : ℤ)))) := by
  obtain ⟨c,s,rfl⟩ := exists_cons_of_ne_nil hne
  have hmark : ∀ c'∈c::(s++46::t), isExponentMark c'=false := by
    intro c' hc'
    simp only [mem_cons,mem_append] at hc'
    rcases hc' with rfl | hc' | rfl | hc'
    · exact not_isExponentMark (hs c' (by simp))
    · exact not_isExponentMark (hs c' (by simp [hc']))
    · rfl
    · exact not_isExponentMark (ht c' hc')
  rw [read,cons_append,parts_of_body (hs c (by simp)) hmark
    (by rw [← cons_append]; exact splitPoint_append hs) (by simp)
    (fun c' hc' => (mem_append.mp hc').elim (hs c') (ht c'))]
  simp [Parts.magnitude]

theorem scaled_zeros (s t : Text) (n : ℕ) :
    (natValue (s++(t++replicate n 48)) : ℚ)*10^(-((t++replicate n 48).length : ℤ)) =
      natValue (s++t)*10^(-(t.length : ℤ)) := by
  rw [← append_assoc,natValue_append_zeros,length_append,length_replicate]
  push_cast
  rw [neg_add,zpow_add₀ (by norm_num),mul_assoc,mul_comm ((10 : ℚ)^n),mul_assoc,
    ← zpow_natCast (10 : ℚ) n,
    ← zpow_add₀ (by norm_num)]
  simp

theorem rdropWhile_zeros (s : Text) : ∃ n, s=s.rdropWhile (· == 48)++replicate n 48 := by
  refine ⟨(s.rtakeWhile (· == 48)).length,?_⟩
  have hzeros : s.rtakeWhile (· == 48)=replicate (s.rtakeWhile (· == 48)).length 48 := by
    apply eq_replicate_of_mem
    intro c hc
    simpa using mem_rtakeWhile_imp hc
  rw [← hzeros]
  exact (rdropWhile_append_rtakeWhile ..).symm

theorem rdropWhile_append_cons {p : UInt8 → Bool} (h : p c=false) (s t : Text) :
    (s++c::t).rdropWhile p=s++c::t.rdropWhile p := by
  simp only [rdropWhile,reverse_append,reverse_cons,append_assoc,dropWhile_append]
  split
  · rename_i hempty
    rw [List.isEmpty_iff.mp hempty]
    simp [dropWhile_cons_of_neg,h]
  · simp

/-- A point and a fraction without the zeros at its end; a point with nothing behind it goes. -/
def trimPoint (s : Text) : Text := if 46∈s then (s.rdropWhile (· == 48)).rdropWhile (· == 46) else s

theorem trimPoint_digits (negative : Bool) (h : ∀ c∈s, isDigit c) :
    trimPoint (signText negative++s)=signText negative++s := by
  refine if_neg fun hmem => ?_
  rcases mem_append.mp hmem with hmem | hmem
  · cases negative <;> simp [signText] at hmem
  · exact ne_point (h 46 hmem) rfl

theorem trimPoint_point (negative : Bool) (hne : s≠[]) (hs : ∀ c∈s, isDigit c)
    (ht : ∀ c∈t, isDigit c) :
    trimPoint (signText negative++(s++46::t))=signText negative ++
      if t.rdropWhile (· == 48)=[] then s else s++46::t.rdropWhile (· == 48) := by
  rw [trimPoint,if_pos (by simp),← append_assoc,rdropWhile_append_cons (by rfl)]
  rcases eq_nil_or_concat (t.rdropWhile (· == 48)) with hnil | ⟨u,c,hc⟩
  · -- nothing is left of the fraction, and the point goes too
    obtain ⟨u,c,rfl⟩ := (eq_nil_or_concat s).resolve_left hne
    have hc : isDigit c := hs c (by simp)
    rw [hnil,if_pos rfl,rdropWhile_concat_pos _ _ _ (by rfl),concat_eq_append,← append_assoc,
      rdropWhile_concat_neg _ _ _ (by simpa using ne_point hc)]
  · have hlast : isDigit c := ht c (( rdropWhile_prefix _ t).subset (by rw [hc]; simp))
    rw [if_neg (by rw [hc]; simp),hc,concat_eq_append,← cons_append,← append_assoc,
      rdropWhile_concat_neg _ _ _ (by simpa using ne_point hlast)]
    simp

theorem rdropWhile_append_of_ne_nil {p : UInt8 → Bool} (h : t.rdropWhile p≠[]) (s : Text) :
    (s++t).rdropWhile p=s++t.rdropWhile p := by
  have hempty : (t.reverse.dropWhile p).isEmpty=false := by
    rw [isEmpty_eq_false_iff]
    simpa [rdropWhile] using h
  rw [rdropWhile,reverse_append,dropWhile_append,hempty]
  simp [rdropWhile]

theorem natText_rdropWhile_ne_nil (h : n≠0) : (natText n).rdropWhile (· == 48)≠[] := by
  intro hnil
  obtain ⟨k,hk⟩ := rdropWhile_zeros (natText n)
  have hvalue := natValue_natText n
  rw [hk,hnil,natValue_append_zeros] at hvalue
  exact h (hvalue.symm.trans (by simp [natValue]))

/-! ## Scaled numbers -/

theorem scaled_unique (hm : 10^k ≤ m) (hm' : m < 10^(k+1)) (hn : 10^k ≤ m') (hn' : m' < 10^(k+1))
    (h : (m : ℚ)*10^e=m'*10^e') : m=m' ∧ e=e' :=
  (Decimal.leads_self hm hm' e).unique (h ▸ Decimal.leads_self hn hn' e')

theorem signed_unique {b b' : Bool} (hm : 10^k ≤ m) (hm' : m < 10^(k+1)) (hn : 10^k ≤ m')
    (hn' : m' < 10^(k+1)) (h : signed b ((m : ℚ)*10^e)=signed b' (m'*10^e')) :
    b=b' ∧ m=m' ∧ e=e' := by
  have hpos := (Decimal.leads_self hm hm' e).pos
  have hne : signed b ((m : ℚ)*10^e)≠0 := by rw [← abs_pos,abs_signed,abs_of_pos hpos]; exact hpos
  obtain ⟨hb,heq⟩ := signed_inj hpos.le (by positivity) hne h
  exact ⟨hb,scaled_unique hm hm' hn hn' heq⟩

end DecimalText
