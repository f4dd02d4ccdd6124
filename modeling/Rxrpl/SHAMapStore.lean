import Rxrpl.SHAMapContents

/-!
# Tries in a node store

A store is content addressed: a record is filed under the hash of the node it describes.
Two assumptions on the hash function are used, and only on the strings at hand: it has
no collision among them, and none of them hashes to zero, the hash that stands for an
absent child.
-/

namespace Rxrpl

open RadixTrie List

/-! ## Records -/

theorem take_drop_flatMap {α : Type} {f : α → Bytes} {w : ℕ} (hf : ∀ a, (f a).length=w) (l : List α)
    {i : ℕ} (hi : i < l.length) : ((l.flatMap f).drop (i*w)).take w=f l[i] := by
  induction l generalizing i with
  | nil => simp at hi
  | cons a l ih =>
    cases i with
    | zero => simp [hf a]
    | succ i =>
      have hdrop : (i+1)*w=(f a).length+i*w := by rw [hf a,Nat.succ_mul,Nat.add_comm]
      rw [flatMap_cons,hdrop,← drop_drop,drop_left]
      simpa using ih (by simpa using hi)

theorem length_childBytes (hashes : Fin 16 → Hash256) : (childBytes hashes).length=16*32 := by
  simp [childBytes,length_flatMap]

theorem bodyHash_childBytes (hashes : Fin 16 → Hash256) (b : Fin 16) :
    bodyHash (childBytes hashes) b (length_childBytes hashes)=hashes b := by
  apply Hash256.ext
  have h := take_drop_flatMap (fun b => (hashes b).length_asBytes) (finRange 16) (i := b.val)
    (by simp)
  simpa [bodyHash,childBytes] using h

/-- An inner node as it comes from its record: hashes only, no child in memory. -/
def InnerNode.shell {ν : Type} (hashes : Fin 16 → Hash256) (hash : Hash256) : InnerNode ν :=
  ⟨hashes,fun _ => none,fun b => !(hashes b).isZero,hash⟩

private theorem foldl_setChildHash {ν : Type} (g : Fin 16 → Hash256) (l : List (Fin 16))
    (n : InnerNode ν) :
    let n' := l.foldl (fun n b => if (g b).isZero then n else n.setChildHash b (g b)) n
    (∀ b, n'.hashes b=if b∈l ∧ (g b).isZero=false then g b else n.hashes b) ∧
      (∀ b, n'.isBranch b=if b∈l ∧ (g b).isZero=false then true else n.isBranch b) ∧
      n'.children=n.children ∧ n'.hash=n.hash := by
  induction l generalizing n with
  | nil => simp
  | cons a l ih =>
    simp only [foldl_cons]
    cases ha : (g a).isZero with
    | true =>
      simp only [if_true]
      obtain ⟨hh,hb,hc,hs⟩ := ih n
      refine ⟨fun b => ?_,fun b => ?_,hc,hs⟩
      · rw [hh b]
        by_cases hba : b=a
        · simp [hba,ha]
        · simp [hba]
      · rw [hb b]
        by_cases hba : b=a
        · simp [hba,ha]
        · simp [hba]
    | false =>
      simp only [Bool.false_eq_true,if_false]
      obtain ⟨hh,hb,hc,hs⟩ := ih (n.setChildHash a (g a))
      refine ⟨fun b => ?_,fun b => ?_,hc,hs⟩
      · rw [hh b]
        by_cases hba : b=a
        · simp [hba,ha,InnerNode.setChildHash]
        · simp [hba,InnerNode.setChildHash]
      · rw [hb b]
        by_cases hba : b=a
        · simp [hba,ha,InnerNode.setChildHash]
        · simp [hba,InnerNode.setChildHash]

theorem children_loadChildHashes {ν : Type} (body : Bytes) (h : body.length=16*32) :
    (loadChildHashes body h : InnerNode ν).children=fun _ => none :=
  (foldl_setChildHash (fun b => bodyHash body b h) (finRange 16) .new).2.2.1

theorem loadChildHashes_childBytes {ν : Type} (hashes : Fin 16 → Hash256) :
    (loadChildHashes (childBytes hashes) (length_childBytes hashes) : InnerNode ν) =
      .shell hashes .zero := by
  obtain ⟨hh,hb,hc,hs⟩ := foldl_setChildHash (ν := ν) hashes (finRange 16) .new
  have hload : (loadChildHashes (childBytes hashes) (length_childBytes hashes) : InnerNode ν) =
      (finRange 16).foldl (fun n b => if (hashes b).isZero then n else n.setChildHash b (hashes b))
        .new := by
    simp only [loadChildHashes,bodyHash_childBytes]
  rw [hload]
  generalize hn : (finRange 16).foldl
    (fun (n : InnerNode ν) b => if (hashes b).isZero then n else n.setChildHash b (hashes b)) .new=n
      at hh hb hc hs
  obtain ⟨nh,nc,nb,ns⟩ := n
  simp only [InnerNode.new] at hh hb hc hs
  have hnh : nh=hashes := by
    funext b
    rw [hh b]
    cases hz : (hashes b).isZero with
    | true => simp [Hash256.isZero_iff.mp hz]
    | false => simp
  have hnb : nb=fun b => !(hashes b).isZero := by
    funext b
    rw [hb b]
    cases hz : (hashes b).isZero <;> simp
  rw [hnh,hnb,hc,hs,InnerNode.shell]

variable {sha : Sha512Half} {kind : LeafKind}

theorem deserializeNode_inner (hashes : Fin 16 → Hash256) (hash : Hash256) :
    (deserializeNode kind (serializeInner hashes) hash : Except SHAMapError (SHAMapNode sha)) =
      .ok (.inner (.shell hashes hash)) := by
  rw [serializeInner,deserializeNode]
  rw [dif_pos ⟨rfl,length_childBytes hashes⟩,loadChildHashes_childBytes]
  rfl

theorem deserializeNode_leaf (key : Hash256) (data : Bytes) (hash : Hash256) :
    (deserializeNode kind (serializeLeaf key data) hash : Except SHAMapError (SHAMapNode sha)) =
      .ok (.leaf (.new kind key data)) := by
  rw [serializeLeaf,deserializeNode]
  rw [dif_neg (by simp [storeTagLeaf,storeTagInner]),dif_pos ⟨rfl,by simp⟩]
  congr 3
  · exact Hash256.ext (by simp)
  · simp

namespace KeyTrie

def content (sha : Sha512Half) (kind : LeafKind) : KeyTrie → Bytes
  | .empty => []
  | .leaf k v => kind.content k v
  | .node c => innerContent fun b => hash sha kind (c b)

def record (sha : Sha512Half) (kind : LeafKind) : KeyTrie → Bytes
  | .empty => []
  | .leaf k v => serializeLeaf k v
  | .node c => serializeInner fun b => hash sha kind (c b)

def contents (sha : Sha512Half) (kind : LeafKind) : KeyTrie → Set Bytes
  | .empty => ∅
  | .leaf k v => {kind.content k v}
  | .node c =>
    {str | str=innerContent (fun b => hash sha kind (c b)) ∨ ∃ b, str∈contents sha kind (c b)}

end KeyTrie

mutual
/-- The strings that the nodes of a tree in memory hash. An inner node without children
is not hashed. -/
def SHAMapNode.nodeContents : SHAMapNode sha → List Bytes
  | .leaf l => [l.kind.content l.key l.data]
  | .inner ⟨hashes,children,isBranch,_⟩ =>
    (if (List.finRange 16).any isBranch then [innerContent hashes] else []) ++
      (List.finRange 16).flatMap fun b => cellContents (children b)
def SHAMapNode.cellContents : Option (SHAMapNode sha) → List Bytes
  | none => []
  | some x => x.nodeContents
end

variable {away : KeyTrie → Prop} {c : Fin 16 → KeyTrie} {n : InnerNode (SHAMapNode sha)}
  {r r' str : Bytes} {t : KeyTrie}

theorem RepInner.any_isBranch (hr : RepInner kind away c n) (hc : support c≠[]) :
    (finRange 16).any n.isBranch=true := by
  obtain ⟨b,hb⟩ := exists_mem_of_ne_nil _ hc
  rw [← hr.branches_eq,InnerNode.branches,mem_filter] at hb
  exact any_eq_true.mpr ⟨b,hb⟩

theorem RepInner.mem_nodeContents (hr : RepInner kind (fun _ => False) c n) (hc : support c≠[])
    (hcells : ∀ b (x : SHAMapNode sha), RepNode kind (fun _ => False) (c b) x →
      (str∈x.nodeContents ↔ str∈(c b).contents sha kind)) :
    str∈(SHAMapNode.inner n).nodeContents ↔ str∈KeyTrie.contents sha kind (.node c) := by
  have hcell : ∀ b, str∈SHAMapNode.cellContents (n.children b) ↔ str∈(c b).contents sha kind := by
    intro b
    by_cases hb : c b=.empty
    · have hslot := hr.2 b
      rw [hb] at hslot
      rw [hslot.2.2,hb]
      simp [SHAMapNode.cellContents,KeyTrie.contents]
    · obtain ⟨-,-,⟨y,hy,hry⟩ | ⟨-,haway⟩⟩ := (repSlot_iff hb).mp (hr.2 b)
      · rw [hy,SHAMapNode.cellContents]
        exact hcells b y hry
      · exact haway.elim
  have hany := hr.any_isBranch hc
  have hhashes := hr.hashes_eq
  obtain ⟨hashes,children,isBranch,hash⟩ := n
  simp only at hcell hhashes hany
  rw [SHAMapNode.nodeContents,if_pos hany]
  simp [KeyTrie.contents,hcell,hhashes]

theorem RepNode.mem_nodeContents {p : List (Fin 16)} {x : SHAMapNode sha}
    (hr : RepNode kind (fun _ => False) t x) (ht : Canonical selectBranch p t) :
    str∈x.nodeContents ↔ str∈t.contents sha kind := by
  induction t generalizing x p with
  | empty => exact hr.elim
  | leaf k v =>
    cases hr
    simp [SHAMapNode.nodeContents,KeyTrie.contents]
  | node c ih =>
    obtain ⟨n,rfl,hn⟩ := hr
    exact hn.mem_nodeContents (support_ne_nil_of_branching ht.2) fun b x hx => ih b hx (ht.1 b)

namespace KeyTrie

/-- All nodes of a trie are stored, none under the hash zero. -/
def InStore (sha : Sha512Half) (kind : LeafKind) (s : NodeStore) : KeyTrie → Prop
  | .empty => True
  | .leaf k v => hash sha kind (.leaf k v)≠.zero ∧
      s (hash sha kind (.leaf k v))=some (record sha kind (.leaf k v))
  | .node c => hash sha kind (.node c)≠.zero ∧
      s (hash sha kind (.node c))=some (record sha kind (.node c)) ∧ ∀ b, InStore sha kind s (c b)

variable {s : NodeStore} {t : KeyTrie}

theorem hash_eq_content (ht : t≠.empty) : t.hash sha kind=sha (t.content sha kind) := by
  cases t with
  | empty => exact absurd rfl ht
  | leaf k v => rfl
  | node c => rfl

theorem content_mem_contents (ht : t≠.empty) : t.content sha kind∈t.contents sha kind := by
  cases t with
  | empty => exact absurd rfl ht
  | leaf k v => rfl
  | node c => exact Or.inl rfl

theorem InStore.hash_ne_zero (h : t.InStore sha kind s) (ht : t≠.empty) :
    t.hash sha kind≠.zero := by
  cases t with
  | empty => exact absurd rfl ht
  | leaf k v => exact h.1
  | node c => exact h.1

theorem InStore.fetch_eq (h : t.InStore sha kind s) (ht : t≠.empty) :
    s (t.hash sha kind)=some (t.record sha kind) := by
  cases t with
  | empty => exact absurd rfl ht
  | leaf k v => exact h.2
  | node c => exact h.2.1

end KeyTrie

theorem isZero_hash_eq (h : t≠.empty → t.hash sha kind≠.zero) :
    (t.hash sha kind).isZero=t.isEmpty := by
  by_cases ht : t=.empty
  · subst ht
    rfl
  have hne : (t.hash sha kind).isZero=false := by
    rw [Bool.eq_false_iff]
    exact fun hz => h ht (Hash256.isZero_iff.mp hz)
  rw [hne,RadixTrie.isEmpty_eq_false_iff.mpr ht]

/-- A node as it comes from its record represents the trie, when its children are available. -/
theorem repInner_shell_of (hne : ∀ b, c b≠.empty → (c b).hash sha kind≠.zero)
    (ha : ∀ b, c b≠.empty → away (c b)) :
      RepInner kind away c (InnerNode.shell (fun b => (c b).hash sha kind)
      (KeyTrie.hash sha kind (.node c)) : InnerNode (SHAMapNode sha)) := by
  refine ⟨Or.inr rfl,fun b => ?_⟩
  have hz := isZero_hash_eq (hne b)
  by_cases hb : c b=.empty
  · have hzero : (c b).hash sha kind=.zero := by rw [hb,KeyTrie.hash]
    rw [hb,repSlot_empty]
    rw [hb,RadixTrie.isEmpty,← hb] at hz
    exact ⟨by simp [InnerNode.shell,hz],hzero,rfl⟩
  · rw [repSlot_iff hb]
    rw [RadixTrie.isEmpty_eq_false_iff.mpr hb] at hz
    exact ⟨by simp [InnerNode.shell,hz],rfl,Or.inr ⟨rfl,ha b hb⟩⟩

theorem repInner_shell {s : NodeStore} (h : ∀ b, (c b).InStore sha kind s) :
    RepInner kind (KeyTrie.InStore sha kind s) c (InnerNode.shell (fun b => (c b).hash sha kind)
      (KeyTrie.hash sha kind (.node c)) : InnerNode (SHAMapNode sha)) :=
  repInner_shell_of (fun b hb => (h b).hash_ne_zero hb) fun b _ => h b

theorem loadable_inStore (sha : Sha512Half) (kind : LeafKind) (s : NodeStore) :
    Loadable sha kind (KeyTrie.InStore sha kind s) (some s) := by
  intro t ht hs
  rw [fetchNode]
  simp only [hs.fetch_eq ht]
  cases t with
  | empty => exact absurd rfl ht
  | leaf k v => exact ⟨_,deserializeNode_leaf k v _,rfl⟩
  | node c => exact ⟨_,deserializeNode_inner _ _,_,rfl,repInner_shell hs.2.2⟩

/-! ## Authentic stores -/

/-- The shape of a node's payload, the string it hashes without the prefix. -/
def HashPrefix.ValidPayload (payload : Bytes) : HashPrefix → Prop
  | .innerNode => payload.length=16*32
  | .leafNode | .txNode => 32 ≤ payload.length
  | .transactionId => payload≠[]

/-- The record of a node with the given payload. The payload of a leaf ends in its key;
a transaction without metadata is its own key. -/
def HashPrefix.storeRecord (sha : Sha512Half) (payload : Bytes) : HashPrefix → Bytes
  | .innerNode => storeTagInner::payload
  | .leafNode | .txNode =>
    storeTagLeaf::(payload.drop (payload.length-32)++payload.take (payload.length-32))
  | .transactionId =>
    storeTagLeaf::((sha (HashPrefix.transactionId.toBytes++payload)).asBytes++payload)

/-- The record `r` describes the node that hashes `str`. -/
def Describes (sha : Sha512Half) (str r : Bytes) : Prop :=
  ∃ (p : HashPrefix) (payload : Bytes), p.ValidPayload payload ∧ str=p.toBytes++payload ∧
    r=p.storeRecord sha payload

/-- The strings hashed by a run collide with each other never and hash to zero never. -/
structure CollisionFree (sha : Sha512Half) (S : Set Bytes) : Prop where
  injOn : Set.InjOn sha S
  ne_zero : ∀ str∈S, sha str≠.zero

theorem CollisionFree.of_list {l : List Bytes} (h : ∀ a∈l, ∀ b∈l, sha a=sha b → a=b)
    (hz : ∀ a∈l, sha a≠.zero) : CollisionFree sha {str | str∈l} := ⟨fun a ha b hb => h a ha b hb,hz⟩

/-- Every record is filed under the hash of what it describes. -/
def Authentic (sha : Sha512Half) (S : Set Bytes) (s : NodeStore) : Prop :=
  ∀ h r, s h=some r → ∃ str∈S, sha str=h ∧ Describes sha str r

theorem Describes.unique (h : Describes sha str r) (h' : Describes sha str r') : r=r' := by
  obtain ⟨p,payload,-,rfl,rfl⟩ := h
  obtain ⟨p',payload',-,hstr,rfl⟩ := h'
  obtain ⟨rfl,rfl⟩ := HashPrefix.append_inj hstr
  rfl

theorem describes_accountState (key : Hash256) (data : Bytes) :
    Describes sha (LeafKind.accountState.content key data) (serializeLeaf key data) := by
  refine ⟨.leafNode,data++key.asBytes,?_,rfl,?_⟩
  · simp [HashPrefix.ValidPayload]
  · simp [HashPrefix.storeRecord,serializeLeaf]

theorem KeyTrie.describes (ht : t≠.empty) :
    Describes sha (t.content sha .accountState) (t.record sha .accountState) := by
  cases t with
  | empty => exact absurd rfl ht
  | leaf k v => exact describes_accountState k v
  | node c => exact ⟨.innerNode,childBytes _,length_childBytes _,rfl,rfl⟩

variable {S : Set Bytes} {s : NodeStore}

theorem Authentic.fetch_eq (hs : Authentic sha S s) (hS : CollisionFree sha S) (hstr : str∈S)
    (hr : Describes sha str r) (hfetch : s (sha str)=some r') : r'=r := by
  obtain ⟨str',hstr',heq,hr'⟩ := hs _ _ hfetch
  obtain rfl : str'=str := hS.injOn hstr' hstr heq
  exact hr'.unique hr

theorem Authentic.update (hs : Authentic sha S s) (hstr : str∈S) (hr : Describes sha str r) :
    Authentic sha S (Function.update s (sha str) (some r)) := by
  intro h r' hfetch
  by_cases hh : h=sha str
  · subst hh
    rw [Function.update_self] at hfetch
    exact ⟨str,hstr,rfl,Option.some.inj hfetch ▸ hr⟩
  · rw [Function.update_of_ne hh] at hfetch
    exact hs h r' hfetch

/-- The store `s'` keeps all records of `s`. -/
def NodeStore.Extends (s' s : NodeStore) : Prop := ∀ h r, s h=some r → s' h=some r

theorem Authentic.extends_update (hs : Authentic sha S s) (hS : CollisionFree sha S) (hstr : str∈S)
    (hr : Describes sha str r) : NodeStore.Extends (Function.update s (sha str) (some r)) s := by
  intro h r' hfetch
  by_cases hh : h=sha str
  · subst hh
    rw [Function.update_self,hs.fetch_eq hS hstr hr hfetch]
  · rwa [Function.update_of_ne hh]

theorem KeyTrie.InStore.mono {s' : NodeStore} (h : t.InStore sha kind s) (he : s'.Extends s) :
    t.InStore sha kind s' := by
  induction t with
  | empty => trivial
  | leaf k v => exact ⟨h.1,he _ _ h.2⟩
  | node c ih => exact ⟨h.1,he _ _ h.2.1,fun b => ih b (h.2.2 b)⟩

end Rxrpl
