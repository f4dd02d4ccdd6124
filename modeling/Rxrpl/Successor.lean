import Mathlib.Data.List.MinMax

/-!
# The next key

The least key above a given one among those that are present. It is found by taking the least of the
keys in a list, by going on from keys that have been deleted, and by letting further keys compete.
-/

namespace Successor

open List

variable {κ : Type} [LinearOrder κ]

/-- The least present key above `k`, if there is one. -/
def Next (present : κ → Prop) (k : κ) : Option κ → Prop
  | none => ∀ k', k < k' → ¬ present k'
  | some m => k < m ∧ present m ∧ ∀ k', k < k' → k' < m → ¬ present k'

variable {present : κ → Prop} {k : κ}

variable {o : Option κ}

theorem Next.unique {o' : Option κ} (h : Next present k o) (h' : Next present k o') : o=o' := by
  cases o with
  | none =>
    cases o' with
    | none => rfl
    | some m' => exact absurd h'.2.1 (h m' h'.1)
  | some m =>
    cases o' with
    | none => exact absurd h.2.1 (h' m h.1)
    | some m' =>
      obtain hlt | heq | hgt := lt_trichotomy m m'
      · exact absurd h.2.1 (h'.2.2 m h.1 hlt)
      · rw [heq]
      · exact absurd h'.2.1 (h.2.2 m' h'.1 hgt)

/-- Keys up to `m` that are not present make no difference. -/
theorem Next.of_skip {m : κ} (hkm : k ≤ m) (hskip : ∀ k', k < k' → k' ≤ m → ¬ present k')
    (h : Next present m o) : Next present k o := by
  cases o with
  | none =>
    intro k' hk'
    by_cases hle : k' ≤ m
    · exact hskip k' hk' hle
    · exact h k' (not_le.mp hle)
  | some n =>
    refine ⟨hkm.trans_lt h.1,h.2.1,fun k' hk' hlt => ?_⟩
    by_cases hle : k' ≤ m
    · exact hskip k' hk' hle
    · exact h.2.2 k' (not_le.mp hle) hlt

/-- A further key competes with the least one so far. -/
def compete (k : κ) (candidate : Option κ) (e : κ) : Option κ :=
  if k < e ∧ candidate.all (fun x => decide (e < x)) then some e else candidate

theorem Next.compete (h : Next present k o) (e : κ) :
    Next (fun k' => present k' ∨ k'=e) k (compete k o e) := by
  rw [Successor.compete]
  split
  · rename_i hwin
    refine ⟨hwin.1,.inr rfl,fun k' hk' hlt => ?_⟩
    rintro (hp | rfl)
    · cases o with
      | none => exact h k' hk' hp
      | some m =>
        have hem : e < m := by simpa using hwin.2
        exact h.2.2 k' hk' (hlt.trans hem) hp
    · exact lt_irrefl _ hlt
  · rename_i hlose
    cases o with
    | none =>
      rintro k' hk' (hp | rfl)
      · exact h k' hk' hp
      · exact hlose ⟨hk',by simp⟩
    | some m =>
      refine ⟨h.1,.inl h.2.1,fun k' hk' hlt => ?_⟩
      rintro (hp | rfl)
      · exact h.2.2 k' hk' hlt hp
      · exact hlose ⟨hk',by simpa using hlt⟩

theorem Next.congr {present' : κ → Prop} (h : Next present k o)
    (hp : ∀ k', present k' ↔ present' k') : Next present' k o := by
  have heq : present=present' := funext fun k' => propext (hp k')
  exact heq ▸ h

theorem Next.foldl_compete (h : Next present k o) (keys : List κ) :
    Next (fun k' => present k' ∨ k'∈keys) k (keys.foldl (Successor.compete k) o) := by
  induction keys generalizing present o with
  | nil => exact h.congr fun k' => by simp
  | cons e keys ih =>
    refine (ih (h.compete e)).congr fun k' => ?_
    rw [mem_cons,or_assoc]

theorem next_find? {keys : List κ} (h : keys.Pairwise (· < ·)) {above : κ → Bool}
    (ha : ∀ k', above k' ↔ k < k') : Next (· ∈ keys) k (keys.find? above) := by
  cases hfind : keys.find? above with
  | none => exact fun k' hk' hmem => find?_eq_none.mp hfind k' hmem ((ha k').mpr hk')
  | some m =>
    obtain ⟨hlt,before,after,rfl,hbefore⟩ := find?_eq_some_iff_append.mp hfind
    refine ⟨(ha m).mp hlt,by simp,fun k' hk' hlt' hmem => ?_⟩
    obtain hmem | hmem := mem_append.mp hmem
    · simpa [(ha k').mpr hk'] using hbefore k' hmem
    · obtain rfl | hmem := mem_cons.mp hmem
      · exact lt_irrefl _ hlt'
      · exact lt_asymm hlt' ((pairwise_cons.mp (pairwise_append.mp h).2.1).1 k' hmem)

end Successor
