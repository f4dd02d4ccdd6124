import Mathlib.Algebra.BigOperators.Group.Finset.Piecewise

/-!
# Multisets of words

The residual of a multiset of words by a letter is the multiset of the tails of its words
that start with the letter. The residuals and the number of empty words determine the
multiset and add up to its size.
-/

namespace WordMultiset

open Multiset

variable {α : Type} [DecidableEq α]

def tailAfter (a : α) : List α → Option (List α)
  | [] => none
  | b::w => if b=a then some w else none

def residual (a : α) (M : Multiset (List α)) : Multiset (List α) := M.filterMap (tailAfter a)

variable (a : α)

@[simp] theorem residual_zero : residual a (0 : Multiset (List α))=0 := rfl

theorem residual_cons (w : List α) (M : Multiset (List α)) :
    residual a (w ::ₘ M)=match tailAfter a w with
      | some v => v ::ₘ residual a M
      | none => residual a M := by
  cases h : tailAfter a w with
  | none => simp [residual,filterMap_cons_none _ _ h]
  | some v => simp [residual,filterMap_cons_some _ _ _ h]

@[simp] theorem count_residual (w : List α) (M : Multiset (List α)) :
    (residual a M).count w=M.count (a::w) := by
  induction M using Multiset.induction with
  | empty => rfl
  | cons v M ih =>
    rw [residual_cons,count_cons,← ih]
    cases v with
    | nil => simp [tailAfter]
    | cons b v =>
      by_cases hb : b=a
      · subst hb
        simp [tailAfter,count_cons]
      · simp [tailAfter,hb,Ne.symm hb]

theorem residual_add (M N : Multiset (List α)) : residual a (M+N)=residual a M+residual a N :=
    filterMap_add ..

theorem residual_sub (M N : Multiset (List α)) : residual a (M-N)=residual a M-residual a N := by
  ext w
  simp

@[simp] theorem residual_replicate_self (n : ℕ) (w : List α) :
    residual a (replicate n (a::w))=replicate n w := by
  ext v
  simp [count_replicate]

theorem residual_replicate_ne {a b : α} (h : b≠a) (n : ℕ) (w : List α) :
    residual a (replicate n (b::w))=0 := by
  ext v
  simp [count_replicate,h]

@[simp] theorem residual_replicate_nil (n : ℕ) : residual a (replicate n ([] : List α))=0 := by
  ext v
  simp [count_replicate]

def heads (M : Multiset (List α)) : Finset α := (M.filterMap List.head?).toFinset

theorem mem_heads {a : α} {M : Multiset (List α)} : a∈heads M ↔ residual a M≠0 := by
  rw [Ne,eq_zero_iff_forall_notMem]
  simp only [heads,mem_toFinset,mem_filterMap,residual,not_forall,not_not]
  constructor
  · rintro ⟨w,hw,ha⟩
    cases w with
    | nil => cases ha
    | cons b w =>
      cases ha
      exact ⟨w,a::w,hw,by simp [tailAfter]⟩
  · rintro ⟨w,v,hv,hw⟩
    cases v with
    | nil => cases hw
    | cons b v =>
      by_cases hb : b=a
      · exact ⟨b::v,hv,by simp [hb]⟩
      · simp [tailAfter,hb] at hw

theorem card_residual_cons (a b : α) (w : List α) (M : Multiset (List α)) :
    (residual a ((b::w) ::ₘ M)).card=(residual a M).card+if a=b then 1 else 0 := by
  rw [residual_cons]
  by_cases h : a=b
  · simp [tailAfter,h]
  · simp [tailAfter,h,Ne.symm h]

/-- The size of a multiset by the first letters of its words. -/
theorem card_eq_sum_residual (M : Multiset (List α)) {S : Finset α} (hS : heads M⊆S) :
    M.card=M.count []+∑ a∈S, (residual a M).card := by
  induction M using Multiset.induction with
  | empty => simp
  | cons w M ih =>
    have hM : heads M⊆S := by
      intro a ha
      apply hS
      rw [mem_heads] at ha ⊢
      intro hz
      rw [residual_cons] at hz
      cases h : tailAfter a w with
      | none => exact ha (by simpa [h] using hz)
      | some v => simp [h] at hz
    cases w with
    | nil =>
      have hres : ∀ a : α, residual a ([] ::ₘ M)=residual a M := fun a => by rw [residual_cons]; rfl
      simp only [hres,card_cons,count_cons_self,ih hM]
      omega
    | cons b w =>
      have hb : b∈S := hS (mem_heads.mpr (by rw [residual_cons]; simp [tailAfter]))
      simp only [card_residual_cons,Finset.sum_add_distrib,Finset.sum_ite_eq',if_pos hb,card_cons,
        ih hM]
      simp [Nat.add_assoc]

theorem card_residual_le (M : Multiset (List α)) : (residual a M).card ≤ M.card := by
  induction M using Multiset.induction with
  | empty => simp
  | cons w M ih =>
    rw [residual_cons]
    cases tailAfter a w with
    | none => simpa using ih.trans (Nat.le_succ _)
    | some v => simpa using ih

/-! ## The heaviest path -/

section

variable {β : Type} [LinearOrder β]

/-- The letter with the largest residual, the larger letter on a tie. -/
def IsBest (M : Multiset (List β)) (a : β) : Prop :=
  ∀ b, (residual b M).card < (residual a M).card ∨ ((residual b M).card=(residual a M).card ∧ b ≤ a)

/-- The last letter of the path that follows the best letter as long as its residual outweighs
the words that end here. -/
inductive Heaviest : Multiset (List β) → Option β → Prop
  | stop {M : Multiset (List β)} (h : ∀ a, (residual a M).card ≤ M.count []) : Heaviest M none
  | descend {M : Multiset (List β)} {a : β} {r : Option β} (hbest : IsBest M a)
      (hmore : M.count [] < (residual a M).card) (hr : Heaviest (residual a M) r) :
      Heaviest M (some (r.getD a))

variable {M : Multiset (List β)} {a b : β} {r r' : Option β}

theorem IsBest.unique (ha : IsBest M a) (hb : IsBest M b) : a=b := by
  rcases ha b with h | ⟨h,hba⟩
  · rcases hb a with h' | ⟨h',-⟩ <;> omega
  · rcases hb a with h' | ⟨-,hab⟩
    · omega
    · exact le_antisymm hab hba

theorem Heaviest.unique (h : Heaviest M r) (h' : Heaviest M r') : r=r' := by
  induction h generalizing r' with
  | stop hle =>
    cases h' with
    | stop => rfl
    | @descend _ a _ _ hmore => exact absurd hmore (Nat.not_lt.mpr (hle a))
  | @descend M a r hbest hmore hr ih =>
    cases h' with
    | stop hle => exact absurd hmore (Nat.not_lt.mpr (hle a))
    | @descend _ b _ hbest' _ hr' =>
      have hab := hbest.unique hbest'
      subst hab
      rw [ih hr']

end

end WordMultiset
