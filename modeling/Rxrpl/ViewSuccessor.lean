import Rxrpl.Successor
import Rxrpl.TxEngine

/-!
# Successors in a view

`ReadView::succ` is the least key above a given one that has an entry. A sandbox walks over the
successors below past the keys it has deleted, and lets the keys it has inserted compete; the result
is the successor in what the sandbox reads.
-/

namespace Rxrpl.Tx

open Successor List

def Present (read : Hash256 → Option Data) (k : Hash256) : Prop := read k≠none

def ReadView.Ordered (v : ReadView) : Prop := ∀ k, Next (Present v.read) k (v.succ k)

variable {below : ReadView}

/-- The deleted keys above a key, which the walk may still have to skip. -/
def deletedAbove (deletes : HashMap Hash256 Data) (k : Hash256) : List Hash256 :=
  deletes.keys.filter fun k' => decide (k < k')

variable {deletes : HashMap Hash256 Data} {k : Hash256}

theorem length_deletedAbove_lt {m : Hash256} (hkm : k < m) (hm : (deletes.lookup m).isSome) :
    (deletedAbove deletes m).length < (deletedAbove deletes k).length := by
  have hsub : (m::deletedAbove deletes m).Subperm (deletedAbove deletes k) := by
    refine Nodup.subperm ?_ fun k' hk' => ?_
    · refine nodup_cons.mpr ⟨?_,deletes.nodupKeys.filter _⟩
      simp [deletedAbove]
    obtain rfl | hk' := mem_cons.mp hk'
    · exact mem_filter.mpr ⟨AList.lookup_isSome.mp hm,by simpa using hkm⟩
    · obtain ⟨hmem,hlt⟩ := mem_filter.mp hk'
      exact mem_filter.mpr ⟨hmem,by simpa using hkm.trans (by simpa using hlt)⟩
  exact hsub.length_le

/-- The walk of `succ` finds the next key below that has not been deleted. -/
theorem next_skipDeleted (hbelow : below.Ordered) {fuel : ℕ}
    (hfuel : (deletedAbove deletes k).length ≤ fuel) :
    Next (fun k' => Present below.read k' ∧ (deletes.lookup k').isSome=false) k
      (skipDeleted below deletes fuel (below.succ k)) := by
  induction fuel generalizing k with
  | zero =>
    have hnext := hbelow k
    cases hsucc : below.succ k with
    | none =>
      rw [hsucc] at hnext
      rw [skipDeleted]
      exact fun k' hk' hp => hnext k' hk' hp.1
    | some m =>
      rw [hsucc] at hnext
      refine ⟨hnext.1,⟨hnext.2.1,?_⟩,fun k' hk' hlt hp => hnext.2.2 k' hk' hlt hp.1⟩
      by_contra hdel
      have := length_deletedAbove_lt hnext.1 (Bool.not_eq_false _ ▸ hdel)
      omega
  | succ fuel ih =>
    have hnext := hbelow k
    cases hsucc : below.succ k with
    | none =>
      rw [hsucc] at hnext
      rw [skipDeleted]
      exact fun k' hk' hp => hnext k' hk' hp.1
    | some m =>
      rw [hsucc] at hnext
      rw [skipDeleted]
      split
      · rename_i hdel
        have hlt := length_deletedAbove_lt hnext.1 hdel
        refine (ih (k := m) (by omega)).of_skip hnext.1.le fun k' hk' hle hp => ?_
        obtain hlt' | rfl := hle.lt_or_eq
        · exact hnext.2.2 k' hk' hlt' hp.1
        · rw [hdel] at hp
          exact Bool.noConfusion hp.2
      · rename_i hdel
        refine ⟨hnext.1,⟨hnext.2.1,by simpa using hdel⟩,fun k' hk' hlt hp =>
          hnext.2.2 k' hk' hlt hp.1⟩

theorem Sandbox.present_iff (s : Sandbox below) (k : Hash256) : Present s.read k ↔
    (Present below.read k ∧ (s.changes.deletes.lookup k).isSome=false) ∨
        (s.changes.inserts.lookup k).isSome := by
  have hrow := s.valid k
  rw [Present,Sandbox.read,SandboxChanges.read_eq]
  obtain ⟨o,hr,-⟩ | ⟨d,o,hr,hb⟩ | ⟨d,b,hr,hb⟩ | ⟨d,b,hr,hb⟩ := hrow.shapes
  all_goals
    have hins : s.changes.inserts.lookup k=(s.changes.row k).inserted := rfl
    have hdel : s.changes.deletes.lookup k=(s.changes.row k).deleted := rfl
    rw [hins,hdel,hr]
    simp_all [Row.read,Present]

theorem Sandbox.ordered_toReadView (s : Sandbox below) (hbelow : below.Ordered) :
    s.toReadView.Ordered := by
  intro k
  have hwalk : Next (fun k' => Present below.read k' ∧ (s.changes.deletes.lookup k').isSome=false) k
      (skipDeleted below s.changes.deletes s.changes.deletes.entries.length (below.succ k)) := by
    refine next_skipDeleted hbelow ?_
    calc (deletedAbove s.changes.deletes k).length ≤ s.changes.deletes.keys.length :=
      length_filter_le ..
      _=s.changes.deletes.entries.length := length_map _
  have hfold := hwalk.foldl_compete (s.changes.inserts.entries.map Sigma.fst)
  rw [foldl_map] at hfold
  have hsucc : s.changes.succ below k=s.changes.inserts.entries.foldl
    (fun candidate e => compete k candidate e.1)
      (skipDeleted below s.changes.deletes s.changes.deletes.entries.length (below.succ k)) := by
    unfold SandboxChanges.succ compete
    congr!
  have hnext : Next (Present s.read) k (s.changes.succ below k) := by
    rw [hsucc]
    refine hfold.congr fun k' => ?_
    rw [Sandbox.present_iff]
    refine or_congr_right ?_
    show k'∈s.changes.inserts.keys ↔ _
    rw [← AList.mem_keys,← AList.lookup_isSome]
  exact hnext

namespace ViewM

def succ (k : Hash256) : ViewM below (Option Hash256) := fun s => .ok (s.toReadView.succ k,s)

end ViewM

end Rxrpl.Tx
