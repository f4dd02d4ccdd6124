import Rxrpl.TxCommit
import Rxrpl.ViewSuccessor

/-!
# A sandbox is an overlay

Calls on a sandbox do to what it reads what they do to a plain map, and the changes it holds turn
the map below into the one that it reads.
-/

namespace Rxrpl.Tx

open Successor

inductive Call
  | insert (k : Hash256) (d : Data)
  | update (k : Hash256) (d : Data)
  | erase (k : Hash256)

namespace Call

def key : Call → Hash256
  | .insert k _ | .update k _ | .erase k => k

def onMap (m : Hash256 → Option Data) : Call → Except ApplyError (Hash256 → Option Data)
  | .insert k d => if (m k).isSome then .error .alreadyExists
    else .ok (Function.update m k (some d))
  | .update k d => if (m k).isSome then .ok (Function.update m k (some d)) else .error .notFound
  | .erase k => if (m k).isSome then .ok (Function.update m k none) else .error .notFound

/-- The row of the key after a call that succeeds. -/
def onRow (below : Option Data) (r : Row) : Call → Row
  | .insert _ d => r.insert d
  | .update _ d => r.update below d
  | .erase _ => r.erase below

/-- A map after calls, of which those that fail change nothing. -/
def runOnMap (m : Hash256 → Option Data) (calls : List Call) : Hash256 → Option Data :=
  calls.foldl (fun m call => (call.onMap m).toOption.getD m) m

end Call

inductive Op
  | call (call : Call)
  | destroyDrops (drops : ℕ)

variable {below : ReadView}

namespace SandboxChanges

/-- `exists` of a sandbox, over that of the view below. -/
def existsKey (belowExists : Hash256 → Bool) (c : SandboxChanges) (k : Hash256) : Bool :=
  if (c.deletes.lookup k).isSome then false
  else if (c.updates.lookup k).isSome || (c.inserts.lookup k).isSome then true
  else belowExists k

theorem existsKey_eq (c : SandboxChanges) (k : Hash256) :
    c.existsKey (fun k => (below.read k).isSome) k=(c.read below k).isSome := by
  unfold existsKey read
  split
  · rfl
  · cases c.updates.lookup k <;> cases c.inserts.lookup k <;> rfl

/-- The loops of `apply_to_ledger` on a map. -/
def applyTo (c : SandboxChanges) (m : HashMap Hash256 Data) : HashMap Hash256 Data :=
  let m := c.inserts.entries.foldl (fun m e => m.insert e.1 e.2) m
  let m := c.updates.entries.foldl (fun m e => m.insert e.1 e.2) m
  c.deletes.entries.foldl (fun m e => m.erase e.1) m

theorem lookup_applyTo (c : SandboxChanges) {m : HashMap Hash256 Data}
    (hm : ∀ k, m.lookup k=below.read k) (k : Hash256) : (c.applyTo m).lookup k=c.read below k := by
  simp only [applyTo,Ledger.lookup_foldl_erase,Ledger.lookup_foldl_insert,hm,read]
  split
  · rfl
  · cases c.updates.lookup k <;> cases c.inserts.lookup k <;> rfl

end SandboxChanges

namespace Sandbox

def call (s : Sandbox below) : Call → Except ApplyError (Sandbox below)
  | .insert k d => s.insert k d
  | .update k d => s.update k d
  | .erase k => s.erase k

/-- An operation whose result is not looked at; a call that fails leaves the sandbox as it is. -/
def perform (s : Sandbox below) : Op → Sandbox below
  | .call call => (s.call call).toOption.getD s
  | .destroyDrops drops => s.destroyDrops drops

def performAll (s : Sandbox below) (ops : List Op) : Sandbox below := ops.foldl perform s

/-- What one call does: it succeeds or fails as on a plain map, and a success changes the row of its
key. -/
theorem call_cases (s : Sandbox below) (call : Call) :
    (∃ s', s.call call=.ok s' ∧ call.onMap s.read=.ok s'.read ∧
      (∀ k≠call.key, s'.changes.row k=s.changes.row k) ∧
        s'.changes.destroyedDrops=s.changes.destroyedDrops ∧
      s'.changes.row call.key=call.onRow (below.read call.key) (s.changes.row call.key)) ∨
    ∃ e, s.call call=.error e ∧ call.onMap s.read=.error e := by
  cases call with
  | insert k d =>
    obtain ⟨hx,hy,-,-⟩ | ⟨e,hx,hy⟩ := s.lifts_insert k d
    · obtain ⟨hread,hrows⟩ := SandboxChanges.insert_spec hx
      have hnone : ¬ (s.read k).isSome := by simp [read,hread]
      exact .inl ⟨_,hy,(if_neg hnone).trans (congrArg _ (insert_spec hy).2.read.symm),hrows⟩
    · obtain ⟨hread,rfl⟩ : (s.read k).isSome ∧ e=.alreadyExists := by
        unfold SandboxChanges.insert at hx
        split at hx
        · rename_i hread
          exact ⟨hread,by cases hx; rfl⟩
        · split at hx <;> cases hx
      exact .inr ⟨_,hy,if_pos hread⟩
  | update k d =>
    obtain ⟨hx,hy,-,-⟩ | ⟨e,hx,hy⟩ := s.lifts_update k d
    · obtain ⟨hread,hrows⟩ := SandboxChanges.update_spec hx
      exact .inl ⟨_,hy,(if_pos hread).trans (congrArg _ (update_spec hy).2.read.symm),hrows⟩
    obtain ⟨hread,rfl⟩ : ¬ (s.read k).isSome ∧ e=.notFound := by
      unfold SandboxChanges.update at hx
      split at hx
      · rename_i hread
        exact ⟨Option.not_isSome_iff_eq_none.mpr (Option.isNone_iff_eq_none.mp hread),
          by cases hx; rfl⟩
      · split at hx <;> cases hx
    exact .inr ⟨_,hy,if_neg hread⟩
  | erase k =>
    obtain ⟨hx,hy,-,-⟩ | ⟨e,hx,hy⟩ := s.lifts_erase k
    · obtain ⟨hread,hrows⟩ := SandboxChanges.erase_spec hx
      exact .inl ⟨_,hy,(if_pos hread).trans (congrArg _ (erase_spec hy).2.read.symm),hrows⟩
    obtain ⟨hread,rfl⟩ : ¬ (s.read k).isSome ∧ e=.notFound := by
      unfold SandboxChanges.erase at hx
      split at hx
      · rename_i hread
        exact ⟨by simp [read,hread],by cases hx; rfl⟩
      · split at hx <;> cases hx
    exact .inr ⟨_,hy,if_neg hread⟩

theorem read_performAll (s : Sandbox below) (calls : List Call) :
    (s.performAll (calls.map .call)).read=Call.runOnMap s.read calls := by
  induction calls generalizing s with
  | nil => rfl
  | cons call calls ih =>
    rw [List.map_cons,performAll,List.foldl_cons,Call.runOnMap,List.foldl_cons]
    obtain ⟨s',hcall,hmap,-⟩ | ⟨e,hcall,hmap⟩ := s.call_cases call
    · rw [perform,hcall,hmap]
      exact ih s'
    · rw [perform,hcall,hmap]
      exact ih s

/-- A view with one entry. -/
def oneEntry (k₀ : Hash256) (d : Data) : ReadView where
  read k := if k=k₀ then some d else none
  succ k := if k < k₀ then some k₀ else none
  seq := 1
  fees := ⟨10,10,2⟩
  drops := 1000
  parentCloseTime := 0
  closeTime := 0
  parentHash := .zero

theorem ordered_oneEntry (k₀ : Hash256) (d : Data) : (oneEntry k₀ d).Ordered := by
  intro k
  have hpresent : ∀ k', Present (oneEntry k₀ d).read k' ↔ k'=k₀ := by
    intro k'
    simp [Present,oneEntry]
  show Next _ k (if k < k₀ then some k₀ else none)
  split
  · rename_i h
    exact ⟨h,(hpresent k₀).mpr rfl,fun k' _ hlt hp => absurd ((hpresent k').mp hp) hlt.ne⟩
  · rename_i h
    exact fun k' hk' hp => h ((hpresent k').mp hp ▸ hk')

end Sandbox

end Rxrpl.Tx
