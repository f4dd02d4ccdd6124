import Mathlib.Data.Finset.Sort

/-!
# Finite trees with keyed children

A node carries data and a finite map from keys to subtrees. The map is a finite set of keys
and a function on it, so two trees with the same entries are equal.
-/

/-- A tree with data in `δ` whose edges are labelled by keys in `κ`. -/
inductive KeyedTree (κ δ : Type) where
  | node (data : δ) (keys : Finset κ) (child : {k // k∈keys} → KeyedTree κ δ)

namespace KeyedTree

variable {κ δ : Type}

def data : KeyedTree κ δ → δ
  | node d _ _ => d

def keys : KeyedTree κ δ → Finset κ
  | node _ ks _ => ks

def leaf (d : δ) : KeyedTree κ δ := node d ∅ fun k => absurd k.2 (Finset.notMem_empty _)

def withData : KeyedTree κ δ → δ → KeyedTree κ δ
  | node _ ks child, d => node d ks child

@[simp] theorem data_withData (t : KeyedTree κ δ) (d : δ) : (t.withData d).data=d := by cases t; rfl

section

variable [DecidableEq κ]

def child? : KeyedTree κ δ → κ → Option (KeyedTree κ δ)
  | node _ ks child, k => if h : k∈ks then some (child ⟨k,h⟩) else none

/-- `insert` of the map of children. -/
def setChild : KeyedTree κ δ → κ → KeyedTree κ δ → KeyedTree κ δ
  | node d ks child, k, c => node d (insert k ks) fun x =>
      if h : x.1=k then c else child ⟨x.1,Finset.mem_of_mem_insert_of_ne x.2 h⟩

/-- `remove` of the map of children. -/
def eraseChild : KeyedTree κ δ → κ → KeyedTree κ δ
  | node d ks child, k => node d (ks.erase k) fun x => child ⟨x.1,Finset.mem_of_mem_erase x.2⟩

variable (t : KeyedTree κ δ)

@[simp] theorem child?_withData (d : δ) (k : κ) : (t.withData d).child? k=t.child? k := by
  cases t; rfl

@[simp] theorem data_setChild (k : κ) (c : KeyedTree κ δ) : (t.setChild k c).data=t.data := by
  cases t; rfl

@[simp] theorem data_eraseChild (k : κ) : (t.eraseChild k).data=t.data := by
  cases t; rfl

theorem child?_setChild (k k' : κ) (c : KeyedTree κ δ) :
    (t.setChild k c).child? k'=if k'=k then some c else t.child? k' := by
  cases t with
  | node d ks child =>
    by_cases h : k'=k
    · simp [setChild,child?,h]
    · simp [setChild,child?,h]

theorem child?_eraseChild (k k' : κ) : (t.eraseChild k).child? k'=if k'=k then none
    else t.child? k' := by
  cases t with
  | node d ks child =>
    by_cases h : k'=k
    · simp [eraseChild,child?,h]
    · simp [eraseChild,child?,h]

theorem mem_keys_iff {t : KeyedTree κ δ} {k : κ} : k∈t.keys ↔ ∃ c, t.child? k=some c := by
  cases t with
  | node d ks child =>
    by_cases h : k∈ks <;> simp [keys,child?,h]

theorem child?_eq_some {d : δ} {ks : Finset κ} {child : {k // k∈ks} → KeyedTree κ δ}
    (k : {k // k∈ks}) : (node d ks child).child? k.1=some (child k) := by
  simp [child?,k.2]

theorem ext_child {t t' : KeyedTree κ δ} (hd : t.data=t'.data) (hc : ∀ k, t.child? k=t'.child? k) :
    t=t' := by
  have hkeys : t.keys=t'.keys := by
    ext k
    rw [mem_keys_iff,mem_keys_iff,hc k]
  cases t with
  | node d ks child =>
    cases t' with
    | node d' ks' child' =>
      change d=d' at hd
      change ks=ks' at hkeys
      subst hd hkeys
      congr 1
      funext k
      have := hc k.1
      rw [child?_eq_some,child?_eq_some] at this
      exact Option.some.inj this

@[elab_as_elim]
theorem induction_child {P : KeyedTree κ δ → Prop}
    (step : ∀ t, (∀ k c, t.child? k=some c → P c) → P t) (t : KeyedTree κ δ) : P t := by
  induction t with
  | node d ks child ih =>
    apply step
    intro k c hk
    by_cases h : k∈ks
    · have : child ⟨k,h⟩=c := by simpa [child?,h] using hk
      exact this ▸ ih ⟨k,h⟩
    · simp [child?,h] at hk

end

def Everywhere (P : KeyedTree κ δ → Prop) : KeyedTree κ δ → Prop
  | node d ks child => P (node d ks child) ∧ ∀ k, (child k).Everywhere P

theorem everywhere_iff [DecidableEq κ] {P : KeyedTree κ δ → Prop} {t : KeyedTree κ δ} :
    t.Everywhere P ↔ P t ∧ ∀ k c, t.child? k=some c → c.Everywhere P := by
  cases t with
  | node d ks child =>
    simp only [Everywhere]
    refine and_congr_right fun _ => ⟨fun h k c hk => ?_,fun h k => h k.1 _ (child?_eq_some k)⟩
    by_cases hm : k∈ks
    · have : child ⟨k,hm⟩=c := by simpa [child?,hm] using hk
      exact this ▸ h ⟨k,hm⟩
    · simp [child?,hm] at hk

/-- The keys as a list, with the proofs that they are keys. -/
def listedKeys [LinearOrder κ] (ks : Finset κ) : List {k // k∈ks} :=
  (ks.sort (· ≤ ·)).attachWith (· ∈ ks) fun _ h => (Finset.mem_sort _).mp h

theorem mem_listedKeys [LinearOrder κ] {ks : Finset κ} (k : {k // k∈ks}) : k∈listedKeys ks := by
  simp [listedKeys,List.mem_attachWith,k.2]

end KeyedTree
