import Rxrpl.SHAMapOperations

/-!
# What a SHAMap stands for

The abstract value of a SHAMap is a canonical radix trie over the nibbles of its keys. A
node in memory represents a trie when its branch mask, its child hashes and its cached
hash are those of the trie; the predicate `away` says where a child that is not in
memory is available, nowhere or in a store with its whole subtree.

Each operation is shown to act on tries as the operation of the same purpose.
-/

namespace Rxrpl

open RadixTrie

abbrev KeyTrie := RadixTrie 16 Hash256 Bytes

def KeyTrie.hash (sha : Sha512Half) (kind : LeafKind) : KeyTrie → Hash256
  | .empty => .zero
  | .leaf k v => sha (kind.content k v)
  | .node c => sha (innerContent fun b => hash sha kind (c b))

/-- The root hash of a map; the map without entries hashes to zero. -/
def KeyTrie.rootHash (sha : Sha512Half) (kind : LeafKind) (c : Fin 16 → KeyTrie) : Hash256 :=
  if support c=[] then .zero else hash sha kind (.node c)

/-- The root is a node whatever it holds; canonicity starts at its children. -/
abbrev CanonicalRoot (c : Fin 16 → KeyTrie) : Prop := ∀ b, Canonical selectBranch [b] (c b)

variable {sha : Sha512Half}

/-- The cached hash of an inner node is dirty or right. -/
def InnerNode.CacheOk (n : InnerNode (SHAMapNode sha)) : Prop :=
    n.hash=.zero ∨ n.hash=n.computeHash sha

section

variable (kind : LeafKind) (away : KeyTrie → Prop)

/-- A branch (mask bit, hash and cell) represents a child. -/
def RepSlot : KeyTrie → Bool → Hash256 → Option (SHAMapNode sha) → Prop
  | .empty, present, h, cell => present=false ∧ h=.zero ∧ cell=none
  | .leaf k v, present, h, cell => present=true ∧ h=KeyTrie.hash sha kind (.leaf k v) ∧
      (cell=some (.leaf (.new kind k v)) ∨ cell=none ∧ away (.leaf k v))
  | .node c, present, h, cell => present=true ∧ h=KeyTrie.hash sha kind (.node c) ∧
      ((∃ n, cell=some (.inner n) ∧ n.CacheOk ∧
          ∀ b, RepSlot (c b) (n.isBranch b) (n.hashes b) (n.children b)) ∨
        cell=none ∧ away (.node c))

def RepInner (c : Fin 16 → KeyTrie) (n : InnerNode (SHAMapNode sha)) : Prop :=
  n.CacheOk ∧ ∀ b, RepSlot kind away (c b) (n.isBranch b) (n.hashes b) (n.children b)

def RepNode : KeyTrie → SHAMapNode sha → Prop
  | .empty, _ => False
  | .leaf k v, x => x=.leaf (.new kind k v)
  | .node c, x => ∃ n, x=.inner n ∧ RepInner kind away c n

end

variable {kind : LeafKind} {away : KeyTrie → Prop}

variable {cell : Option (SHAMapNode sha)} {h : Hash256} {present : Bool} {t : KeyTrie}

theorem repSlot_empty : RepSlot kind away .empty present h cell ↔ present=false ∧ h=.zero ∧
    cell=none := Iff.rfl

/-- A present child: its bit, its hash, and its node in memory or elsewhere. -/
theorem repSlot_iff (ht : t≠.empty) : RepSlot kind away t present h cell ↔
      present=true ∧ h=t.hash sha kind ∧
        ((∃ x, cell=some x ∧ RepNode kind away t x) ∨ cell=none ∧ away t) := by
  cases t with
  | empty => exact absurd rfl ht
  | leaf k v => simp [RepSlot,RepNode]
  | node c => simp [RepSlot,RepNode,RepInner]

theorem RepSlot.present_eq (hr : RepSlot kind away t present h cell) : present=!t.isEmpty := by
  cases t <;> simpa [RadixTrie.isEmpty] using hr.1

theorem RepSlot.hash_eq (hr : RepSlot kind away t present h cell) : h=t.hash sha kind := by
  cases t <;> exact hr.2.1

namespace RepInner

variable {c : Fin 16 → KeyTrie} {n : InnerNode (SHAMapNode sha)}

theorem hashes_eq (hr : RepInner kind away c n) : n.hashes=fun b => (c b).hash sha kind := by
  funext b
  exact (hr.2 b).hash_eq

theorem isBranch_eq (hr : RepInner kind away c n) (b : Fin 16) : n.isBranch b=!(c b).isEmpty :=
    (hr.2 b).present_eq

theorem branches_eq (hr : RepInner kind away c n) : n.branches=support c := by
  have h : n.isBranch=fun b => !(c b).isEmpty := funext hr.isBranch_eq
  rw [InnerNode.branches,h,support]

theorem computeHash_eq (hr : RepInner kind away c n) :
    n.computeHash sha=KeyTrie.hash sha kind (.node c) := by
  rw [InnerNode.computeHash,hr.hashes_eq,KeyTrie.hash]

theorem getHash_eq (hr : RepInner kind away c n) (hc : support c≠[]) :
    n.getHash sha=KeyTrie.hash sha kind (.node c) := by
  have hb : n.branchCount≠0 := by
    rw [InnerNode.branchCount,hr.branches_eq]
    simpa using hc
  rw [InnerNode.getHash,← hr.computeHash_eq]
  rcases hr.1 with hz | hz
  · simp [hz,hb,Hash256.isZero_iff.mpr]
  · simp [hz]

end RepInner

theorem support_ne_nil_of_branching {c : Fin 16 → KeyTrie} (hc : Branching c) : support c≠[] := by
  intro hs
  have hall : ∀ b, c b=.empty := by
    intro b
    by_contra hb
    simpa [hs] using mem_support.mpr hb
  rcases hc with ⟨b,c',hb⟩ | ⟨b,b',-,hb,-⟩
  · simp [hall b] at hb
  · exact hb (hall b)

theorem RepNode.hash_eq {p : List (Fin 16)} {x : SHAMapNode sha} (hr : RepNode kind away t x)
    (ht : Canonical selectBranch p t) : x.hash=t.hash sha kind := by
  cases t with
  | empty => exact absurd hr id
  | leaf k v =>
    cases hr
    rfl
  | node c =>
    obtain ⟨n,rfl,hn⟩ := hr
    exact hn.getHash_eq (support_ne_nil_of_branching ht.2)

/-! ## Moving children in and out -/

/-- What is away can be fetched as a node that represents it. -/
def Loadable (sha : Sha512Half) (kind : LeafKind) (away : KeyTrie → Prop)
    (store : Option NodeStore) : Prop :=
  ∀ t, t≠.empty → away t → ∃ x : SHAMapNode sha, fetchNode store kind (t.hash sha kind)=.ok x ∧
    RepNode kind away t x

theorem loadable_false (store : Option NodeStore) : Loadable sha kind (fun _ => False) store :=
    fun _ _ h => h.elim

namespace RepInner

variable {c : Fin 16 → KeyTrie} {n : InnerNode (SHAMapNode sha)}

theorem new : RepInner kind away (fun _ => .empty) (InnerNode.new : InnerNode (SHAMapNode sha)) :=
  ⟨Or.inl rfl,fun _ => ⟨rfl,rfl,rfl⟩⟩

variable {b : Fin 16} {store : Option NodeStore} {t : KeyTrie} {x : SHAMapNode sha}

theorem setChild_of_ne
    (hr : ∀ b', b'≠b → RepSlot kind away (c b') (n.isBranch b') (n.hashes b') (n.children b'))
    (ht : t≠.empty) (hx : RepNode kind away t x) (hh : x.hash=t.hash sha kind) :
    RepInner kind away (Function.update c b t) (n.setChild b x) := by
  refine ⟨Or.inl rfl,fun b' => ?_⟩
  by_cases hb : b'=b
  · subst hb
    rw [Function.update_self,repSlot_iff ht]
    exact ⟨by simp [InnerNode.setChild],by
      simp [InnerNode.setChild,hh],Or.inl ⟨x,by simp [InnerNode.setChild],hx⟩⟩
  · simpa [InnerNode.setChild,hb] using hr b' hb

theorem setChild (hr : RepInner kind away c n) (ht : t≠.empty) (hx : RepNode kind away t x)
    (hh : x.hash=t.hash sha kind) : RepInner kind away (Function.update c b t) (n.setChild b x) :=
  setChild_of_ne (fun b' _ => hr.2 b') ht hx hh

theorem takeChild_fst (hr : RepInner kind away c n) (hb : c b≠.empty) :
    RepInner kind away (Function.update c b .empty) (n.takeChild b).1 := by
  have hbr : n.isBranch b=true := by simp [hr.isBranch_eq,hb]
  rw [InnerNode.takeChild,if_pos hbr]
  refine ⟨Or.inl rfl,fun b' => ?_⟩
  by_cases h : b'=b
  · subst h
    simp [RepSlot]
  · simpa [h] using hr.2 b'

/-- After `ensure_loaded` the child is in memory, and nothing the node stands for has
changed. -/
theorem exists_loaded (hL : Loadable sha kind away store) (hr : RepInner kind away c n)
    (hb : c b≠.empty) :
    ∃ n₁ x, n.ensureLoaded b store kind=.ok n₁ ∧ n₁.children b=some x ∧ RepNode kind away (c b) x ∧
      RepInner kind away c n₁ := by
  obtain ⟨hbr,hh,⟨x,hx,hrep⟩ | ⟨hnone,haway⟩⟩ := (repSlot_iff hb).mp (hr.2 b)
  · exact ⟨n,x,by simp [InnerNode.ensureLoaded,hx],hx,hrep,hr⟩
  obtain ⟨x,hfetch,hrep⟩ := hL _ hb haway
  have hcell : (n.fillCell b x).children b=some x := by simp [InnerNode.fillCell,hnone]
  refine ⟨n.fillCell b x,x,?_,hcell,hrep,hr.1,fun b' => ?_⟩
  · simp [InnerNode.ensureLoaded,hbr,hnone,hh,hfetch,Except.map]
  by_cases h : b'=b
  · subst h
    exact (repSlot_iff hb).mpr ⟨hbr,hh,Or.inl ⟨x,hcell,hrep⟩⟩
  · simpa [InnerNode.fillCell,h] using hr.2 b'

/-- The child that a mutating call works on: it is loaded if necessary and taken out,
and what remains represents the node without it. -/
theorem exists_taken (hL : Loadable sha kind away store) (hr : RepInner kind away c n)
    (hb : c b≠.empty) :
    ∃ n₁ n₂ x, n.ensureLoaded b store kind=.ok n₁ ∧ n₁.takeChild b=(n₂,some x) ∧
      RepNode kind away (c b) x ∧ RepInner kind away (Function.update c b .empty) n₂ := by
  obtain ⟨n₁,x,hload,hx,hrep,hr₁⟩ := hr.exists_loaded hL hb
  have hbr : n₁.isBranch b=true := by simp [hr₁.isBranch_eq,hb]
  refine ⟨n₁,(n₁.takeChild b).1,x,hload,?_,hrep,hr₁.takeChild_fst hb⟩
  simp [InnerNode.takeChild,hbr,hx]

theorem childWithStore_eq (hL : Loadable sha kind away store) (hr : RepInner kind away c n)
    (hb : c b≠.empty) :
    ∃ x, n.childWithStore b store kind=.ok (some x) ∧ RepNode kind away (c b) x := by
  have hbr : n.isBranch b=true := by simp [hr.isBranch_eq,hb]
  obtain ⟨-,hh,⟨x,hx,hrep⟩ | ⟨hnone,haway⟩⟩ := (repSlot_iff hb).mp (hr.2 b)
  · exact ⟨x,by simp [InnerNode.childWithStore,hbr,hx],hrep⟩
  · obtain ⟨x,hfetch,hrep⟩ := hL _ hb haway
    exact ⟨x,by simp [InnerNode.childWithStore,hbr,hnone,hh,hfetch,Except.map],hrep⟩

theorem childWithStore_empty (hr : RepInner kind away c n) (hb : c b=.empty) :
    n.childWithStore b store kind=.ok none := by
  have hbr : n.isBranch b=false := by simp [hr.isBranch_eq,hb]
  simp [InnerNode.childWithStore,hbr]

end RepInner

end Rxrpl
