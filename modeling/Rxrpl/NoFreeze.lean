import Mathlib.Order.Lattice

/-!
# The no-freeze promise

AccountSet and TrustSet on the flags of account roots and trust lines. An account keeps its
`lsfNoFreeze`, and TrustSet honours it on a line that exists, but not on one that it creates.
-/

namespace Rxrpl.NoFreeze

open Function

/-- A word of flags by its bits; each flag of the source is one of them. -/
abbrev Word := ℕ → Bool

/-- `flags |= f` in one case, `flags &= !f` in another. -/
def setClear (set clear : Bool) (flags : Word) (f : ℕ) : Word := fun bit =>
  if bit=f then set || !clear && flags bit else flags bit

def asfToLsf (asf : ℕ) : Option ℕ :=
  if 1 ≤ asf ∧ asf ≤ 4 then some (asf+16)
  else if 6 ≤ asf ∧ asf ≤ 9 then some (asf+15)
  else if 12 ≤ asf ∧ asf ≤ 15 then some (asf+14)
  else if asf=16 then some 31 else none

def lsfNoFreeze : ℕ := 21

/-- The bit of a side's flag on a trust line, given the low side's. -/
def side (low : Bool) (bit : ℕ) : ℕ := if low then bit else bit+1

def lsfFreeze (deep low : Bool) : ℕ := side low (if deep then 25 else 22)

variable {Id Cur : Type}

/-- An AccountSet; its other fields decide whether it `fails`. -/
structure AccountSet (Id : Type) where
  account : Id
  setFlag : Option ℕ
  clearFlag : Option ℕ
  fails : Bool

/-- A TrustSet, with what its limit and qualities, the balance and the reserves decide. -/
structure TrustSet (Id Cur : Type) where
  account : Id
  issuer : Id
  currency : Cur
  flags : Word
  fails : Bool
  lowReserve : Bool
  highReserve : Bool
  zeroBalance : Bool

namespace TrustSet

variable (t : TrustSet Id Cur)

def line [LinearOrder Id] : Id × Id × Cur :=
    (min t.account t.issuer,max t.account t.issuer,t.currency)

def setAuth : Bool := t.flags 16
def setNoRipple : Bool := t.flags 17
def clearNoRipple : Bool := t.flags 18
def setFreeze : Bool := t.flags 20
def clearFreeze : Bool := t.flags 21
def setDeepFreeze : Bool := t.flags 22
def clearDeepFreeze : Bool := t.flags 23

def computeFreezeFlags (flags : Word) (low noFreeze : Bool) : Word :=
  let flags := setClear (t.setFreeze && !t.clearFreeze && !noFreeze)
    (t.clearFreeze && !t.setFreeze) flags
    (lsfFreeze false low)
  setClear (t.setDeepFreeze && !t.clearDeepFreeze && !noFreeze)
    (t.clearDeepFreeze && !t.setDeepFreeze) flags
    (lsfFreeze true low)

/-- An existing line, none when it is deleted. -/
def update (flags : Word) (low noFreeze : Bool) : Option Word :=
  let flags := setClear (t.setNoRipple && !t.clearNoRipple) (t.clearNoRipple && !t.setNoRipple)
    flags (side low 20)
  let flags := setClear t.setAuth false (t.computeFreezeFlags flags low noFreeze) (side low 18)
  let lowReserve := t.lowReserve || flags (lsfFreeze false true)
  let highReserve := t.highReserve || flags (lsfFreeze false false)
  if !lowReserve && !highReserve && t.zeroBalance then none
  else setClear highReserve (!highReserve) (setClear lowReserve (!lowReserve) flags 16) 17

/-- A new line; `lsfNoFreeze` is not read. -/
def create (low defaultRipple : Bool) : Word :=
  let flags := setClear t.setAuth false (· == side low 16) (side low 18)
  let flags := setClear (t.setNoRipple && !t.clearNoRipple) false flags (side low 20)
  let flags := setClear (t.setFreeze && !t.clearFreeze) false flags (lsfFreeze false low)
  let flags := setClear t.setDeepFreeze false flags (lsfFreeze true low)
  setClear (!defaultRipple) false flags (side (!low) 20)

/-- What a new line takes from the flags. -/
def freezes (deep : Bool) : Bool := if deep then t.setDeepFreeze else t.setFreeze && !t.clearFreeze

variable {t} {flags : Word} {low deep : Bool}

theorem update_freeze (h : (t.update flags low true).any (· (lsfFreeze deep low))) :
    flags (lsfFreeze deep low) := by
  unfold update at h
  dsimp only at h
  split_ifs at h
  · cases h
  · cases low <;> cases deep <;> simp_all [computeFreezeFlags,lsfFreeze,side,setClear]

theorem create_freeze (defaultRipple : Bool) :
    t.create low defaultRipple (lsfFreeze deep low)=t.freezes deep := by
  cases low <;> cases deep <;> simp [create,freezes,lsfFreeze,side,setClear]

end TrustSet

/-- Flags of the account roots and of the trust lines, by low account, high account and currency. -/
structure Ledger (Id Cur : Type) where
  account : Id → Option Word
  line : Id × Id × Cur → Option Word

namespace Ledger

variable [LinearOrder Id] [DecidableEq Cur] (s : Ledger Id Cur) (t : TrustSet Id Cur)

def has (a : Id) (bit : ℕ) : Bool := (s.account a).any (· bit)

/-- Whether `a` has frozen its line with `b`. -/
def frozen (a b : Id) (c : Cur) (deep : Bool) : Bool :=
  (s.line (min a b,max a b,c)).any (· (lsfFreeze deep (a < b)))

def accountSet (t : AccountSet Id) : Ledger Id Cur :=
  if t.fails || t.setFlag == some 6 && s.has t.account 22 || t.clearFlag == some 6 then s
  else { s with account := update s.account t.account ((s.account t.account).map fun flags bit =>
    (flags bit || t.setFlag.bind asfToLsf == some bit) && t.clearFlag.bind asfToLsf != some bit) }

/-- The checks, on the two accounts and the rest. -/
def admits : Bool :=
  t.account != t.issuer && (s.account t.account).isSome && (s.account t.issuer).isSome &&
    !(s.has t.issuer 29 && (s.line t.line).isNone) && !t.fails

def lineAfter : Option Word :=
  match s.line t.line with
  | some flags => t.update flags (t.account < t.issuer) (s.has t.account lsfNoFreeze)
  | none => t.create (t.account < t.issuer) (s.has t.issuer 23)

def trustSet : Ledger Id Cur :=
  if s.admits t then { s with line := update s.line t.line (s.lineAfter t) } else s

def step : AccountSet Id ⊕ TrustSet Id Cur → Ledger Id Cur
  | .inl t => s.accountSet t
  | .inr t => s.trustSet t

variable {s t} {a b : Id} {c : Cur} {deep : Bool}

omit [DecidableEq Cur] in
theorem has_accountSet {t : AccountSet Id} (h : s.has a lsfNoFreeze) :
    (s.accountSet t).has a lsfNoFreeze := by
  unfold accountSet
  split_ifs with hfails
  · exact h
  · -- no flag but 6 stands for the bit, and 6 is not cleared
    have hclear : t.clearFlag.bind asfToLsf≠some lsfNoFreeze := by
      intro h
      obtain ⟨asf,hasf,hbit⟩ := Option.bind_eq_some_iff.mp h
      grind [asfToLsf,lsfNoFreeze]
    simp only [has,update_apply] at h ⊢
    split_ifs with ha
    · subst ha
      cases hacc : s.account t.account <;> simp_all
    · exact h

theorem has_step {tx : AccountSet Id ⊕ TrustSet Id Cur} (h : s.has a lsfNoFreeze) :
    (s.step tx).has a lsfNoFreeze := by
  cases tx with
  | inl t => exact has_accountSet h
  | inr t =>
    simp only [step,trustSet]
    split_ifs <;> exact h

theorem frozen_trustSet : (s.trustSet t).frozen t.account b c deep =
    if s.admits t ∧ b=t.issuer ∧
      c=t.currency then (s.lineAfter t).any (· (lsfFreeze deep (t.account < b)))
    else s.frozen t.account b c deep := by
  have hkey : (min t.account b,max t.account b,c)=t.line ↔ b=t.issuer ∧ c=t.currency := by
    grind [TrustSet.line]
  by_cases h : s.admits t
  · simp only [trustSet,h,if_true,frozen,update_apply,hkey,true_and]
    split_ifs <;> rfl
  · simp [trustSet,h]

/-- An account with `lsfNoFreeze` keeps it in every run, and afterwards a TrustSet of the account
turns on a freeze flag of its side just where it creates a line and asks for the flag. -/
theorem no_freeze_kept (s : Ledger Id Cur) (a : Id) (h : s.has a lsfNoFreeze)
    (txs : List (AccountSet Id ⊕ TrustSet Id Cur)) :
    (txs.foldl step s).has a lsfNoFreeze ∧ ∀ (t : TrustSet Id Cur) (b : Id) (c : Cur) (deep : Bool),
      t.account=a →
      ((((txs.foldl step s).trustSet t).frozen a b c deep → (txs.foldl step s).frozen a b c deep) ↔
        ¬((txs.foldl step s).admits t ∧ b=t.issuer ∧ c=t.currency ∧
          (txs.foldl step s).line t.line=none ∧ t.freezes deep)) := by
  have hrun : (txs.foldl step s).has a lsfNoFreeze := by
    induction txs generalizing s with
    | nil => exact h
    | cons tx txs ih => exact ih _ (has_step h)
  refine ⟨hrun,?_⟩
  generalize txs.foldl step s=s at hrun ⊢
  rintro t b c deep rfl
  rw [frozen_trustSet]
  split_ifs with hput
  · obtain ⟨hadm,rfl,rfl⟩ := hput
    rw [frozen,← TrustSet.line,lineAfter]
    cases hline : s.line t.line with
    | some flags => simpa [hrun] using TrustSet.update_freeze
    | none => simp [hadm,TrustSet.create_freeze]
  · simp_all

/-- Two accounts without flags and without a line, after one has made the promise. -/
def promised : Ledger ℕ Unit :=
  step ⟨fun _ => some fun _ => false,fun _ => none⟩ (.inl ⟨0,some 6,none,false⟩)

/-- The first account clears another flag, and the second one opens a line. -/
def opening : List (AccountSet ℕ ⊕ TrustSet ℕ Unit) :=
  [.inl ⟨0,none,some 7,false⟩,.inr ⟨1,0,(),fun _ => false,false,false,false,false⟩]

/-- The promise is kept, and a freeze of the line that the other account has opened does nothing. -/
theorem no_freeze_kept_promised : (opening.foldl step promised).has 0 lsfNoFreeze ∧
    ((opening.foldl step promised).line (0,1,())).isSome ∧
    ¬((opening.foldl step promised).trustSet
      ⟨0,1,(),(· == 20),false,true,false,true⟩).frozen 0 1 () false := by
  obtain ⟨hkept,hfreeze⟩ := no_freeze_kept promised 0 (by decide) opening
  refine ⟨hkept,by decide,fun h => ?_⟩
  exact absurd ((hfreeze ⟨0,1,(),(· == 20),false,true,false,true⟩ 1 () false rfl).mpr (by decide) h)
    (by decide)

/-- A TrustSet with no flag but `tfSetFreeze`. -/
theorem promised_line_frozen : promised.has 0 lsfNoFreeze ∧ ¬promised.frozen 0 1 () false ∧
    (promised.trustSet ⟨0,1,(),(· == 20),false,true,false,true⟩).frozen 0 1 () false := by
      decide

end Ledger

end Rxrpl.NoFreeze
