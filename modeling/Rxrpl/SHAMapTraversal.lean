import Rxrpl.SHAMapContents
import Rxrpl.Successor

/-!
# Ordered traversal

`iter`, `iter_ref` and `for_each` walk a map with three different machines. The borrowing iterator
keeps inner nodes only on its stack, so one of its turns is one or two turns of the owning one;
`succ` stops the owning iterator at the first key above the given one. All of them see the entries
in ascending order of their keys.
-/

namespace Rxrpl.SHAMap

open RadixTrie

variable {sha : Sha512Half} {store : Option NodeStore} {kind : LeafKind} {fuel : ℕ}

/-- One turn of the loop in `SHAMapRefIter::next`: the new stack and the leaf it returns. -/
def iterRefStep (store : Option NodeStore) (kind : LeafKind) :
    List (InnerNode (SHAMapNode sha) × ℕ) →
    List (InnerNode (SHAMapNode sha) × ℕ) × Option (Hash256 × Bytes)
  | [] => ([],none)
  | (n,branch)::rest =>
    match (List.finRange 16).find? (fun b => branch ≤ b.val && n.isBranch b) with
    | none => (rest,none)
    | some b => match n.childWithStore b store kind with
      | .ok (some (.leaf l)) => ((n,b.val+1)::rest,some (l.key,l.data))
      | .ok (some (.inner i)) => ((i,0)::(n,b.val+1)::rest,none)
      | _ => ((n,b.val+1)::rest,none)

/-- All items of the borrowing iterator, run for at most `fuel` turns of its loop. -/
def iterRefCollect (store : Option NodeStore) (kind : LeafKind) :
    ℕ → List (InnerNode (SHAMapNode sha) × ℕ) → Except SHAMapError (List (Hash256 × Bytes))
  | _, [] => .ok []
  | 0, _::_ => .error .panicked
  | fuel+1, frame::rest =>
    let next := iterRefStep store kind (frame::rest)
    (iterRefCollect store kind fuel next.1).map (next.2.toList ++ ·)

/-- The items of `SHAMap::iter_ref`, run for at most `fuel` turns of its loop. -/
def iterRef (m : SHAMap sha) (fuel : ℕ) : Except SHAMapError (List (Hash256 × Bytes)) :=
  iterRefCollect m.store m.kind fuel (match m.root with
    | .inner n => [(n,0)]
    | .leaf _ => [])

/-- `iter().map(|(k, _)| k).find(|k| k > key)`, for at most `fuel` turns of the iterator's loop. -/
def iterFind (store : Option NodeStore) (kind : LeafKind) (key : Hash256) :
    ℕ → List (SHAMapNode sha × ℕ) → Except SHAMapError (Option Hash256)
  | _, [] => .ok none
  | 0, _::_ => .error .panicked
  | fuel+1, frame::rest =>
    let next := iterStep store kind (frame::rest)
    match next.2 with
    | some e => if key < e.1 then .ok (some e.1) else iterFind store kind key fuel next.1
    | none => iterFind store kind key fuel next.1

def succ (m : SHAMap sha) (key : Hash256) (fuel : ℕ) : Except SHAMapError (Option Hash256) :=
  iterFind m.store m.kind key fuel [(m.root,0)]

def liftFrame (frame : InnerNode (SHAMapNode sha) × ℕ) : SHAMapNode sha × ℕ :=
    (.inner frame.1,frame.2)

variable {l : List (Hash256 × Bytes)}

theorem iterRefCollect_eq {stack : List (InnerNode (SHAMapNode sha) × ℕ)}
    (h : iterCollect store kind fuel (stack.map liftFrame)=.ok l) :
      iterRefCollect store kind fuel stack=.ok l := by
  induction fuel generalizing stack l with
  | zero =>
    cases stack with
    | nil => exact h
    | cons frame rest => cases h
  | succ fuel ih =>
    cases stack with
    | nil => exact h
    | cons frame rest =>
      obtain ⟨n,branch⟩ := frame
      obtain ⟨l,hl,rfl⟩ := iterCollect_step h
      rw [iterRefCollect,iterRefStep]
      simp only [liftFrame,iterStep] at hl ⊢
      cases hb : (List.finRange 16).find? (fun b => branch ≤ b.val && n.isBranch b) with
      | none =>
        simp only [hb] at hl ⊢
        rw [ih hl]
        rfl
      | some b =>
        simp only [hb] at hl ⊢
        have hskip : iterCollect store kind fuel (((n,b.val+1)::rest).map liftFrame)=.ok l →
            iterRefCollect store kind fuel ((n,b.val+1)::rest)=.ok l := fun hrest => ih hrest
        rcases hchild : n.childWithStore b store kind with e | _ | i | y
        · simp only [hchild] at hl ⊢
          rw [hskip hl]
          rfl
        · simp only [hchild] at hl ⊢
          rw [hskip hl]
          rfl
        · simp only [hchild] at hl ⊢
          have hrest : iterCollect store kind fuel (((i,0)::(n,b.val+1)::rest).map liftFrame) =
            .ok l := hl
          rw [ih hrest]
          rfl
        · -- the owning iterator pushes the leaf and pops it in its next turn
          simp only [hchild] at hl ⊢
          cases fuel with
          | zero => cases hl
          | succ fuel =>
            obtain ⟨l,hl',rfl⟩ := iterCollect_step hl
            have hrest : iterCollect store kind fuel (((n,b.val+1)::rest).map liftFrame)=.ok l :=
              hl'
            rw [ih (iterCollect_succ hrest)]
            rfl

theorem iterFind_eq {stack : List (SHAMapNode sha × ℕ)} (key : Hash256)
    (h : iterCollect store kind fuel stack=.ok l) :
    iterFind store kind key fuel stack=.ok ((l.map (·.1)).find? fun k => decide (key < k)) := by
  induction fuel generalizing stack l with
  | zero =>
    cases stack with
    | nil => cases h; rfl
    | cons frame rest => cases h
  | succ fuel ih =>
    cases stack with
    | nil => cases h; rfl
    | cons frame rest =>
      obtain ⟨l,hl,rfl⟩ := iterCollect_step h
      have hrest := ih hl
      simp only [iterFind]
      cases hitem : (iterStep store kind (frame::rest)).2 with
      | none => simpa using hrest
      | some e => by_cases he : key < e.1 <;> simp [he,hrest]

/-- The finished runs of `SHAMap::iter_ref`. -/
def RefIterates (m : SHAMap sha) (l : List (Hash256 × Bytes)) : Prop :=
    ∃ fuel, ∀ fuel' ≥ fuel, m.iterRef fuel'=.ok l

/-- The finished runs of `SHAMap::succ`. -/
def HasSucc (m : SHAMap sha) (key : Hash256) (o : Option Hash256) : Prop :=
  ∃ fuel, ∀ fuel' ≥ fuel, m.succ key fuel'=.ok o

/-- On a map built by any calls, all loaded, the three traversals finish with one list: the entries
of the map in ascending order of their keys. `succ` gives the least present key above any key. -/
theorem traversals_ordered (sha : Sha512Half) (kind : LeafKind) (store : Option NodeStore)
    (calls : List Call) : let m : SHAMap sha := (new kind store).run calls
    ∃ l, m.Iterates l ∧ m.RefIterates l ∧ m.forEach=.ok l ∧ l.Pairwise (fun x y => x.1 < y.1) ∧
      (∀ key data, (key,data)∈l ↔ m.get key=.ok (some data)) ∧
      ∀ key, ∃ o, m.HasSucc key o ∧
        Successor.Next (fun k => ∃ data, m.get k=.ok (some data)) key o := by
  intro m
  obtain ⟨x,c,hx,hrep⟩ := (represents_new kind store).run_eq (by simp [new]) calls
  have hm : m=_ := hx
  rw [← hm] at hrep
  obtain ⟨n,hroot,-⟩ := hrep.root
  obtain ⟨fuel,hiter⟩ := hrep.iterates_iff.mpr rfl
  have hsorted := KeyTrie.pairwise_toList hrep.canonical
  have hmem : ∀ key data, (key,data)∈(RadixTrie.node c).toList ↔ m.get key=.ok (some data) := by
    intro key data
    rw [KeyTrie.mem_toList_iff hrep.canonical,hrep.get_eq]
    simp
  refine ⟨(RadixTrie.node c).toList,⟨fuel,hiter⟩,⟨fuel,fun fuel' hle => ?_⟩,hrep.forEach_eq,hsorted,
    hmem,
    fun key => ⟨_,⟨fuel,fun fuel' hle => iterFind_eq key (hiter fuel' hle)⟩,?_⟩⟩
  · have h := hiter fuel' hle
    rw [iter,hroot] at h
    rw [iterRef,hroot]
    exact iterRefCollect_eq h
  · refine (Successor.next_find? (List.pairwise_map.mpr hsorted) (by simp)).congr fun k => ?_
    simp [hmem]

end Rxrpl.SHAMap
