import Rxrpl.HashMap
import Mathlib.Algebra.BigOperators.Fin
import Mathlib.Algebra.Order.BigOperators.Group.Finset

/-!
# Sums over the entries of a map

The total weight of the entries of a partial function on a finite type of keys, how it changes when
one key is rewritten, and the same sum over the entries of a hash map.
-/

namespace KeyedSum

open Finset

variable {κ ν : Type}

section

variable [Fintype κ]

def total (w : κ → ν → ℕ) (read : κ → Option ν) : ℕ := ∑ k, (read k).elim 0 (w k)

variable {w : κ → ν → ℕ} {read read' : κ → Option ν}

theorem total_congr (h : ∀ k, (read' k).elim 0 (w k)=(read k).elim 0 (w k)) :
    total w read'=total w read :=
  sum_congr rfl fun k _ => h k

theorem le_total (k : κ) : (read k).elim 0 (w k) ≤ total w read :=
  single_le_sum (f := fun k => (read k).elim 0 (w k)) (fun _ _ => Nat.zero_le _) (mem_univ k)

variable [DecidableEq κ]

theorem add_le_total {k k' : κ} (hne : k≠k') :
    (read k).elim 0 (w k)+(read k').elim 0 (w k') ≤ total w read := by
  have hsub : ({k, k'} : Finset κ)⊆univ := subset_univ _
  have h := sum_le_sum_of_subset (f := fun k => (read k).elim 0 (w k)) hsub
  rwa [sum_pair hne] at h

theorem total_update (w : κ → ν → ℕ) (read : κ → Option ν) (k : κ) (x : Option ν) :
    total w (Function.update read k x)+(read k).elim 0 (w k)=total w read+x.elim 0 (w k) := by
  have hupdate : ∀ k', (Function.update read k x k').elim 0 (w k') =
      Function.update (fun k' => (read k').elim 0 (w k')) k (x.elim 0 (w k)) k' := by
    intro k'
    by_cases hk : k'=k
    · subst hk
      simp
    · simp [hk]
  have hsplit := add_sum_erase univ (fun k' => (read k').elim 0 (w k')) (mem_univ k)
  simp only [total,hupdate]
  rw [sum_update_of_mem (mem_univ k),sdiff_singleton_eq_erase]
  omega

end

end KeyedSum

namespace HashMap

variable {κ ν : Type}

def sumBy (m : HashMap κ ν) (w : κ → ν → ℕ) : ℕ := (m.entries.map fun e => w e.1 e.2).sum

theorem sumBy_eq_total [Fintype κ] [DecidableEq κ] (m : HashMap κ ν) (w : κ → ν → ℕ) :
    m.sumBy w=KeyedSum.total w m.lookup := by
  have hentry : ∀ e∈m.entries, w e.1 e.2=(m.lookup e.1).elim 0 (w e.1) := by
    intro e he
    rw [AList.mem_lookup_iff.mpr he]
    rfl
  have hkeys : (m.entries.map fun e => w e.1 e.2)=m.keys.map fun k =>
    (m.lookup k).elim 0 (w k) := by
    rw [AList.keys,List.keys,List.map_map]
    exact List.map_congr_left hentry
  rw [sumBy,hkeys,← List.sum_toFinset _ m.keys_nodup]
  refine Finset.sum_subset (Finset.subset_univ _) fun k _ hk => ?_
  have hnone : m.lookup k=none := by
    rw [AList.lookup_eq_none,AList.mem_keys]
    simpa using hk
  rw [hnone]
  rfl

end HashMap
