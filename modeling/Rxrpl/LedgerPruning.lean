import Rxrpl.SHAMapStore
import Rxrpl.ConsensusTypes

/-!
# Pruning of old ledgers

`LedgerPruner::prune` and its call in the close path. The nodes of all ledgers lie in one store
under their hashes. The pruner lists the nodes of the ledgers up to the cutoff and deletes those
that it does not find in a single ledger, the first one after the retention window.

A pruned ledger stays in the history, so the walk over it may find nodes that are no longer there.
-/

namespace Rxrpl

open RadixTrie List

variable {sha : Sha512Half}

/-! ## The walk over a map -/

namespace SHAMap

/-- The body of `walk_node_hashes` for one branch, over the recursive call on the child. -/
def walkChild (descend : SHAMapNode sha → Except SHAMapError (List Hash256)) (childHash : Hash256) :
    Except SHAMapError (Option (SHAMapNode sha)) → Except SHAMapError (List Hash256)
  | .ok (some child) => descend child
  -- an unresolvable branch
  | _ => .ok (if childHash.isZero then [] else [childHash])

/-- `walk_node_hashes`. The source bounds it by nothing; here more than `fuel` levels are an error,
never a shortened answer. -/
def walkNodeHashes (store : Option NodeStore) (kind : LeafKind) :
    ℕ → SHAMapNode sha → Except SHAMapError (List Hash256)
  | 0, _ => .error .panicked
  | _+1, .leaf l => .ok [l.hash]
  | fuel+1, .inner n => do
    let hash := n.getHash sha
    let parts ← n.branches.mapM fun b =>
      walkChild (walkNodeHashes store kind fuel) (n.hashes b) (n.childWithStore b store kind)
    return (if hash.isZero then [] else [hash])++parts.flatten

def collectAllNodeHashes (m : SHAMap sha) : Except SHAMapError (List Hash256) :=
  walkNodeHashes m.store m.kind 256 m.root

end SHAMap

namespace KeyTrie

def nodeHashes (sha : Sha512Half) (kind : LeafKind) : KeyTrie → Set Hash256
  | .empty => ∅
  | .leaf k v => {hash sha kind (.leaf k v)}
  | .node c => {h | h=hash sha kind (.node c) ∨ ∃ b, h∈nodeHashes sha kind (c b)}

def mapHashes (sha : Sha512Half) (kind : LeafKind) (c : Fin 16 → KeyTrie) : Set Hash256 :=
  {h | support c≠[] ∧ h∈nodeHashes sha kind (.node c)}

/-- Under the hash of a node the store has the record of the node or nothing. -/
def Consistent (sha : Sha512Half) (kind : LeafKind) (s : NodeStore) : KeyTrie → Prop
  | .empty => True
  | .leaf k v => hash sha kind (.leaf k v)≠.zero ∧
      ∀ r, s (hash sha kind (.leaf k v))=some r → r=record sha kind (.leaf k v)
  | .node c => hash sha kind (.node c)≠.zero ∧
      (∀ r, s (hash sha kind (.node c))=some r → r=record sha kind (.node c)) ∧
      ∀ b, Consistent sha kind s (c b)

variable {kind : LeafKind} {s : NodeStore} {t : KeyTrie}

theorem Consistent.hash_ne_zero (h : t.Consistent sha kind s) (ht : t≠.empty) :
    t.hash sha kind≠.zero := by
  cases t with
  | empty => exact absurd rfl ht
  | leaf k v => exact h.1
  | node c => exact h.1

theorem hash_mem_nodeHashes (ht : t≠.empty) : t.hash sha kind∈t.nodeHashes sha kind := by
  cases t with
  | empty => exact absurd rfl ht
  | leaf k v => rfl
  | node c => exact Or.inl rfl

theorem Consistent.fetch (h : t.Consistent sha kind s) (ht : t≠.empty) : (s (t.hash sha kind)=none ∧
      (fetchNode (some s) kind (t.hash sha kind) : Except SHAMapError (SHAMapNode sha)) =
        .error (.nodeNotFound (t.hash sha kind))) ∨
      ∃ x : SHAMapNode sha, fetchNode (some s) kind (t.hash sha kind)=.ok x ∧
        RepNode kind (Consistent sha kind s) t x := by
  cases hs : s (t.hash sha kind) with
  | none => exact .inl ⟨rfl,by simp only [fetchNode,hs]⟩
  | some r =>
    refine .inr ?_
    cases t with
    | empty => exact absurd rfl ht
    | leaf k v =>
      obtain rfl := h.2 r hs
      exact ⟨_,by simp only [fetchNode,hs]; exact deserializeNode_leaf k v _,rfl⟩
    | node c =>
      obtain rfl := h.2.1 r hs
      exact ⟨_,by simp only [fetchNode,hs]; exact deserializeNode_inner _ _,_,rfl,
        repInner_shell_of (fun b hb => (h.2.2 b).hash_ne_zero hb) fun b _ => h.2.2 b⟩

end KeyTrie

section

variable {kind : LeafKind} {s : NodeStore}

theorem exists_mapM_ok {ε α β : Type} {f : α → Except ε β} {P : α → β → Prop} {l : List α}
    (h : ∀ a∈l, ∃ y, f a=.ok y ∧ P a y) :
    ∃ ys, l.mapM f=.ok ys ∧ (∀ y∈ys, ∃ a∈l, P a y) ∧ ∀ a∈l, ∃ y∈ys, P a y := by
  induction l with
  | nil => exact ⟨[],rfl,by simp,by simp⟩
  | cons a l ih =>
    obtain ⟨y,hy,hP⟩ := h a (by simp)
    obtain ⟨ys,hys,hleft,hright⟩ := ih fun a ha => h a (by simp [ha])
    refine ⟨y::ys,by rw [mapM_cons,hy,hys]; rfl,?_,?_⟩
    · intro y' hy'
      obtain rfl | hy' := mem_cons.mp hy'
      · exact ⟨a,by simp,hP⟩
      · obtain ⟨a',ha',hP'⟩ := hleft y' hy'
        exact ⟨a',by simp [ha'],hP'⟩
    · intro a' ha'
      obtain rfl | ha' := mem_cons.mp ha'
      · exact ⟨y,by simp,hP⟩
      · obtain ⟨y',hy',hP'⟩ := hright a' ha'
        exact ⟨y',by simp [hy'],hP'⟩

/-- A walk lists nodes of the trie, and all of them when the store has them all. -/
structure Lists (sha : Sha512Half) (kind : LeafKind) (s : NodeStore) (t : KeyTrie)
    (l : List Hash256) : Prop where
  sound : ∀ h∈l, h∈t.nodeHashes sha kind
  complete : (∀ h∈t.nodeHashes sha kind, s h≠none) → ∀ h∈t.nodeHashes sha kind, h∈l

variable {c : Fin 16 → KeyTrie} {fuel : ℕ} {n : InnerNode (SHAMapNode sha)}

theorem walkChild_lists (hr : RepInner kind (KeyTrie.Consistent sha kind s) c n) {b : Fin 16}
    (hb : c b≠.empty) {descend : SHAMapNode sha → Except SHAMapError (List Hash256)}
    (hdescend : ∀ x, RepNode kind (KeyTrie.Consistent sha kind s) (c b) x →
      ∃ l, descend x=.ok l ∧ Lists sha kind s (c b) l) :
    ∃ l, SHAMap.walkChild descend (n.hashes b) (n.childWithStore b (some s) kind)=.ok l ∧
      Lists sha kind s (c b) l := by
  obtain ⟨hbr,hh,⟨x,hx,hrep⟩ | ⟨hnone,hcons⟩⟩ := (repSlot_iff hb).mp (hr.2 b)
  · obtain ⟨l,hl,hlists⟩ := hdescend x hrep
    refine ⟨l,?_,hlists⟩
    simp only [InnerNode.childWithStore,hbr,hx,if_true,SHAMap.walkChild,hl]
  · obtain ⟨hmissing,hfetch⟩ | ⟨x,hfetch,hrep⟩ := hcons.fetch hb
    · have hne : (n.hashes b).isZero=false := by
        rw [Bool.eq_false_iff,hh]
        exact fun hz => hcons.hash_ne_zero hb (Hash256.isZero_iff.mp hz)
      refine ⟨[n.hashes b],?_,?_,?_⟩
      · rw [← hh] at hfetch
        simp [InnerNode.childWithStore,hbr,hnone,hfetch,Except.map,SHAMap.walkChild,hne]
      · intro h hmem
        rw [mem_singleton.mp hmem,hh]
        exact KeyTrie.hash_mem_nodeHashes hb
      · intro hall
        exact absurd hmissing (hall _ (KeyTrie.hash_mem_nodeHashes hb))
    · obtain ⟨l,hl,hlists⟩ := hdescend x hrep
      refine ⟨l,?_,hlists⟩
      rw [← hh] at hfetch
      simp only [InnerNode.childWithStore,hbr,hnone,hfetch,if_true,Except.map,SHAMap.walkChild,hl]

theorem walkInner_lists (hr : RepInner kind (KeyTrie.Consistent sha kind s) c n) (hc : support c≠[])
    (hzero : KeyTrie.hash sha kind (.node c)≠.zero)
    (hdescend : ∀ b, c b≠.empty → ∀ x : SHAMapNode sha,
      RepNode kind (KeyTrie.Consistent sha kind s) (c b) x →
      ∃ l, SHAMap.walkNodeHashes (some s) kind fuel x=.ok l ∧ Lists sha kind s (c b) l) :
    ∃ l, SHAMap.walkNodeHashes (some s) kind (fuel+1) (.inner n)=.ok l ∧
      Lists sha kind s (.node c) l := by
  have hbranches : ∀ b∈n.branches, ∃ l, SHAMap.walkChild (SHAMap.walkNodeHashes (some s) kind fuel)
    (n.hashes b)
      (n.childWithStore b (some s) kind)=.ok l ∧ Lists sha kind s (c b) l := by
    intro b hb
    rw [hr.branches_eq,mem_support] at hb
    exact walkChild_lists hr hb (hdescend b hb)
  obtain ⟨parts,hparts,hsound,hcomplete⟩ := exists_mapM_ok hbranches
  have hhash : (n.getHash sha).isZero=false := by
    rw [Bool.eq_false_iff,hr.getHash_eq hc]
    exact fun hz => hzero (Hash256.isZero_iff.mp hz)
  refine ⟨n.getHash sha::parts.flatten,?_,?_,?_⟩
  · simp only [SHAMap.walkNodeHashes,hparts,hhash]
    rfl
  · intro h hmem
    obtain rfl | hmem := mem_cons.mp hmem
    · exact Or.inl (hr.getHash_eq hc)
    · obtain ⟨part,hpart,hmem⟩ := mem_flatten.mp hmem
      obtain ⟨b,-,hlists⟩ := hsound part hpart
      exact Or.inr ⟨b,hlists.sound h hmem⟩
  · intro hstored h hmem
    obtain rfl | ⟨b,hmem⟩ := hmem
    · rw [hr.getHash_eq hc]
      exact mem_cons_self
    have hb : c b≠.empty := by
      intro hempty
      rw [hempty] at hmem
      exact hmem
    have hbranch : b∈n.branches := by rw [hr.branches_eq,mem_support]; exact hb
    obtain ⟨part,hpart,hlists⟩ := hcomplete b hbranch
    refine mem_cons_of_mem _ (mem_flatten.mpr ⟨part,hpart,?_⟩)
    exact hlists.complete (fun h hmem => hstored h (Or.inr ⟨b,hmem⟩)) h hmem

theorem walkNode_lists {t : KeyTrie} {p : List (Fin 16)} {x : SHAMapNode sha}
    (ht : Canonical selectBranch p t) (hp : 65 ≤ p.length+fuel) (hlt : p.length ≤ 64)
    (hcons : t.Consistent sha kind s) (hr : RepNode kind (KeyTrie.Consistent sha kind s) t x) :
    ∃ l, SHAMap.walkNodeHashes (some s) kind fuel x=.ok l ∧ Lists sha kind s t l := by
  induction t generalizing p fuel x with
  | empty => exact hr.elim
  | leaf k v =>
    obtain rfl := hr
    obtain ⟨fuel,rfl⟩ : ∃ f, fuel=f+1 := ⟨fuel-1,by omega⟩
    exact ⟨[KeyTrie.hash sha kind (.leaf k v)],rfl,by simp [KeyTrie.nodeHashes],by
      simp [KeyTrie.nodeHashes]⟩
  | node c ih =>
    obtain ⟨n,rfl,hn⟩ := hr
    have hlength := ht.length_lt selectBranch_separates
    obtain ⟨fuel,rfl⟩ : ∃ f, fuel=f+1 := ⟨fuel-1,by omega⟩
    refine walkInner_lists hn (support_ne_nil_of_branching ht.2) hcons.1 fun b _ x hx => ?_
    exact ih b (ht.1 b) (by simp; omega) (by simp; omega) (hcons.2.2 b) hx

end

/-! ## The pruner -/

/-- The fields of a closed ledger that the pruner reads. -/
structure ClosedLedger (sha : Sha512Half) where
  sequence : ℕ
  stateMap : SHAMap sha
  txMap : SHAMap sha

def ClosedLedger.collectNodeHashes (l : ClosedLedger sha) : Except SHAMapError (List Hash256) := do
  let state ← l.stateMap.collectAllNodeHashes
  let tx ← l.txMap.collectAllNodeHashes
  return state++tx

def NodeStore.deleteBatch (s : NodeStore) (hashes : List Hash256) : NodeStore :=
  hashes.foldl (fun s h => Function.update s h none) s

def deleteBatchSize : ℕ := 4096

def pruningInterval : ℕ := 256

/-- `slice::chunks`. A list of length `fuel` has no more chunks. -/
def chunks {α : Type} (size : ℕ) : ℕ → List α → List (List α)
  | 0, _ => []
  | _+1, [] => []
  | fuel+1, x::l => (x::l).take size::chunks size fuel ((x::l).drop size)

structure PrunerState where
  earliestSeq : ℕ
  canDeleteSeq : ℕ
  advisoryDelete : Bool
  retentionWindow : ℕ
  deriving DecidableEq

/-- What a call leaves behind, and the number of nodes it reports. -/
structure Pruned where
  state : PrunerState
  store : NodeStore
  total : ℕ

namespace PrunerState

def new (retentionWindow : ℕ) (advisoryDelete : Bool) : PrunerState :=
  ⟨0,if advisoryDelete then 0 else u32Max,advisoryDelete,retentionWindow⟩

variable (p : PrunerState)

def isEnabled : Bool := decide (0 < p.retentionWindow)

def shouldPrune (validatedSeq : ℕ) : Bool :=
  if !p.isEnabled then false else validatedSeq % pruningInterval == 0

def cutoffSeq (currentSeq : ℕ) : ℕ := currentSeq-p.retentionWindow

/-- The effective cutoff, which the advisory cursor may lower. -/
def effectiveCutoff (currentSeq : ℕ) : ℕ :=
  if p.advisoryDelete && p.canDeleteSeq != u32Max then min (p.cutoffSeq currentSeq) p.canDeleteSeq
  else p.cutoffSeq currentSeq

/-- One turn of the loop over the old ledgers: the hashes that are not live, and the new earliest
sequence. -/
def scan (cutoff : ℕ) (live : List Hash256) (acc : List Hash256 × ℕ) (l : ClosedLedger sha) :
    Except SHAMapError (List Hash256 × ℕ) :=
  if cutoff < l.sequence then .ok acc
  else do
    let hashes ← l.collectNodeHashes
    return (acc.1++hashes.filter fun h => !live.contains h,
      if acc.2 ≤ l.sequence || acc.2 == 0 then wrap32 (l.sequence+1) else acc.2)

def liveHashes : Option (ClosedLedger sha) → Except SHAMapError (List Hash256)
  | none => .ok []
  | some retained => retained.collectNodeHashes

def prune (currentSeq : ℕ) (oldLedgers : List (ClosedLedger sha))
    (retained : Option (ClosedLedger sha)) (store : NodeStore) : Except SHAMapError Pruned :=
  if !p.isEnabled || oldLedgers.isEmpty then .ok ⟨p,store,0⟩
  else if p.advisoryDelete && p.canDeleteSeq == 0 then .ok ⟨p,store,0⟩
  else do
    let live ← liveHashes retained
    let (found,newEarliest) ← oldLedgers.foldlM (scan (p.effectiveCutoff currentSeq) live)
      ([],p.earliestSeq)
    let prunable := ((sortHashes found).destutter (· ≠ ·)).filter fun h => !live.contains h
    return if prunable.length=0 then ⟨p,store,0⟩
      else
        { state :=
          { p with earliestSeq := if p.earliestSeq < newEarliest then newEarliest
            else p.earliestSeq }
          store := (chunks deleteBatchSize prunable.length prunable).foldl NodeStore.deleteBatch
            store
          total := prunable.length }

/-- The end of the close path: the ledgers of the history up to the cutoff are pruned, and the first
one after it is retained. -/
def closePathPrune (closedSeq : ℕ) (history : List (ClosedLedger sha))
    (store : NodeStore) : Except SHAMapError Pruned :=
  if p.shouldPrune closedSeq then
    let cutoff := p.cutoffSeq closedSeq
    p.prune closedSeq (history.filter fun l => decide (l.sequence ≤ cutoff))
      (history.find? fun l => decide (cutoff < l.sequence)) store
  else .ok ⟨p,store,0⟩

end PrunerState

/-! ## Deletion -/

theorem flatten_chunks {α : Type} {size : ℕ} (hsize : 0 < size) {fuel : ℕ} {l : List α}
    (hl : l.length ≤ fuel) : (chunks size fuel l).flatten=l := by
  induction fuel generalizing l with
  | zero => simp [chunks,eq_nil_of_length_eq_zero (Nat.le_zero.mp hl)]
  | succ fuel ih =>
    cases l with
    | nil => rfl
    | cons x l =>
      have hdrop : ((x::l).drop size).length ≤ fuel := by
        simp only [length_drop,length_cons] at hl ⊢
        omega
      rw [chunks,flatten_cons,ih hdrop,take_append_drop]

theorem NodeStore.deleteBatch_apply (s : NodeStore) (hashes : List Hash256) (h : Hash256) :
    s.deleteBatch hashes h=if h∈hashes then none else s h := by
  induction hashes generalizing s with
  | nil => rfl
  | cons a hashes ih =>
    rw [deleteBatch,foldl_cons,← deleteBatch,ih]
    by_cases hmem : h∈hashes
    · simp [hmem]
    · by_cases ha : h=a <;> simp [hmem,ha]

theorem NodeStore.foldl_deleteBatch (s : NodeStore) (batches : List (List Hash256)) :
    batches.foldl NodeStore.deleteBatch s=s.deleteBatch batches.flatten := by
  induction batches generalizing s with
  | nil => rfl
  | cons batch batches ih =>
    rw [foldl_cons,ih,flatten_cons]
    simp only [deleteBatch,foldl_append]

/-! ## Ledgers over one store -/

/-- A map over the store stands for the tries below its root. Nodes may be missing in the store, but
under the hash of a node there is no other record, and the map without entries has the hash zero. -/
structure SHAMap.StandsFor (s : NodeStore) (kind : LeafKind) (c : Fin 16 → KeyTrie)
    (m : SHAMap sha) : Prop where
  kind_eq : m.kind=kind
  store_eq : m.store=some s
  root : RepNode kind (KeyTrie.Consistent sha kind s) (.node c) m.root
  canonical : CanonicalRoot c
  consistent : support c≠[] → KeyTrie.Consistent sha kind s (.node c)
  hash_empty : support c=[] → m.root.hash=.zero

variable {s : NodeStore}

/-- The walk over a map ends, lists nodes of the map, and all of them when the store has them all.
-/
theorem SHAMap.StandsFor.collect {kind : LeafKind} {c : Fin 16 → KeyTrie} {m : SHAMap sha}
    (hm : m.StandsFor s kind c) :
    ∃ l, m.collectAllNodeHashes=.ok l ∧ (∀ h∈l, h∈KeyTrie.mapHashes sha kind c) ∧
      ((∀ h∈KeyTrie.mapHashes sha kind c, s h≠none) → ∀ h∈KeyTrie.mapHashes sha kind c, h∈l) := by
  obtain ⟨n,hroot,hn⟩ := hm.root
  rw [collectAllNodeHashes,hm.kind_eq,hm.store_eq,hroot]
  by_cases hc : support c=[]
  · have hbranches : n.branches=[] := by rw [hn.branches_eq,hc]
    have hzero : (n.getHash sha).isZero=true := by
      have := hm.hash_empty hc
      rw [hroot] at this
      exact Hash256.isZero_iff.mpr this
    refine ⟨[],?_,by simp,by simp [KeyTrie.mapHashes,hc]⟩
    simp only [walkNodeHashes,hbranches,hzero]
    rfl
  · have hcons := hm.consistent hc
    have hwalk : ∃ l, walkNodeHashes (some s) kind (255+1) (.inner n)=.ok l ∧
      Lists sha kind s (.node c) l :=
      walkInner_lists hn hc hcons.1 fun b _ x hx =>
        walkNode_lists (hm.canonical b) (by simp) (by simp) (hcons.2.2 b) hx
    obtain ⟨l,hl,hlists⟩ := hwalk
    refine ⟨l,hl,fun h hmem => ⟨hc,hlists.sound h hmem⟩,?_⟩
    intro hstored h hmem
    exact hlists.complete (fun h' hmem' => hstored h' ⟨hc,hmem'⟩) h hmem.2

/-- A ledger of the history, with the contents of its maps. -/
structure HistoryLedger (sha : Sha512Half) (s : NodeStore) extends ClosedLedger sha where
  stateTrie : Fin 16 → KeyTrie
  txTrie : Fin 16 → KeyTrie
  state_map : stateMap.StandsFor s .accountState stateTrie
  tx_map : txMap.StandsFor s .transactionWithMeta txTrie

namespace HistoryLedger

def nodes (l : HistoryLedger sha s) : Set Hash256 :=
  KeyTrie.mapHashes sha .accountState l.stateTrie ∪ KeyTrie.mapHashes sha .transactionWithMeta
    l.txTrie

def listed (l : HistoryLedger sha s) : Set Hash256 :=
  {h | ∃ hashes, l.toClosedLedger.collectNodeHashes=.ok hashes ∧ h∈hashes}

theorem collect (l : HistoryLedger sha s) :
    ∃ hashes, l.toClosedLedger.collectNodeHashes=.ok hashes ∧ (∀ h∈hashes, h∈l.nodes) ∧
      ((∀ h∈l.nodes, s h≠none) → ∀ h∈l.nodes, h∈hashes) := by
  obtain ⟨state,hstate,hsound,hcomplete⟩ := l.state_map.collect
  obtain ⟨tx,htx,hsound',hcomplete'⟩ := l.tx_map.collect
  refine ⟨state++tx,?_,?_,?_⟩
  · simp only [ClosedLedger.collectNodeHashes,hstate,htx]
    rfl
  · intro h hmem
    exact (mem_append.mp hmem).imp (hsound h) (hsound' h)
  intro hstored h hmem
  refine mem_append.mpr
    (hmem.imp (hcomplete (fun h hmem => ?_) h) (hcomplete' (fun h hmem => ?_) h))
  · exact hstored h (.inl hmem)
  · exact hstored h (.inr hmem)

variable {l : HistoryLedger sha s}

theorem mem_listed {hashes : List Hash256} (hl : l.toClosedLedger.collectNodeHashes=.ok hashes)
    {h : Hash256} : h∈l.listed ↔ h∈hashes := by
  constructor
  · rintro ⟨hashes',hl',hmem⟩
    rw [hl] at hl'
    cases hl'
    exact hmem
  · intro hmem
    exact ⟨hashes,hl,hmem⟩

end HistoryLedger

/-! ## What is deleted -/

namespace PrunerState

variable (p : PrunerState) (closedSeq : ℕ) (history : List (HistoryLedger sha s))

def boundary : Option (HistoryLedger sha s) := history.find? fun l =>
    decide (p.cutoffSeq closedSeq < l.sequence)

def live : Set Hash256 := {h | ∃ l, p.boundary closedSeq history=some l ∧ h∈l.listed}

/-- Pruning takes place after this ledger. -/
def Prunes : Prop := p.shouldPrune closedSeq=true ∧ ¬ (p.advisoryDelete=true ∧ p.canDeleteSeq=0)

/-- A node that is deleted: it is listed for a ledger up to the effective cutoff and is not live. -/
def Deletes (h : Hash256) : Prop :=
  p.Prunes closedSeq ∧ (∃ l∈history, l.sequence ≤ p.effectiveCutoff closedSeq ∧ h∈l.listed) ∧
    h∉p.live closedSeq history

theorem effectiveCutoff_le : p.effectiveCutoff closedSeq ≤ p.cutoffSeq closedSeq := by
  simp only [effectiveCutoff]
  split_ifs
  · exact min_le_left ..
  · exact le_rfl

theorem scan_fold (cutoff : ℕ) (live : List Hash256) (ledgers : List (HistoryLedger sha s))
    (acc : List Hash256 × ℕ) :
    ∃ acc', (ledgers.map HistoryLedger.toClosedLedger).foldlM (scan cutoff live) acc=.ok acc' ∧
      ∀ h, h∈acc'.1 ↔ h∈acc.1 ∨ ((∃ l∈ledgers, l.sequence ≤ cutoff ∧ h∈l.listed) ∧ h∉live) := by
  induction ledgers generalizing acc with
  | nil => exact ⟨acc,rfl,by simp⟩
  | cons l ledgers ih =>
    obtain ⟨hashes,hl,-,-⟩ := l.collect
    rw [map_cons,foldlM_cons]
    by_cases hseq : cutoff < l.sequence
    · obtain ⟨acc',hacc',hmem⟩ := ih acc
      refine ⟨acc',?_,fun h => ?_⟩
      · simp only [scan,hseq,if_true]
        exact hacc'
      · rw [hmem h]
        simp [Nat.not_le.mpr hseq]
    · obtain ⟨acc',hacc',hmem⟩ := ih (acc.1++hashes.filter fun h => !live.contains h,
        if acc.2 ≤ l.sequence || acc.2 == 0 then wrap32 (l.sequence+1) else acc.2)
      refine ⟨acc',?_,fun h => ?_⟩
      · simp only [scan,hseq,if_false,hl]
        exact hacc'
      rw [hmem h]
      simp only [mem_append,mem_filter,mem_cons,exists_eq_or_imp,HistoryLedger.mem_listed hl,
        Nat.not_lt.mp hseq,true_and,Bool.not_eq_true',contains_eq_mem,decide_eq_false_iff_not]
      tauto

theorem liveHashes_boundary :
    ∃ live, liveHashes ((p.boundary closedSeq history).map HistoryLedger.toClosedLedger)=.ok live ∧
      ∀ h, h∈live ↔ h∈p.live closedSeq history := by
  cases hb : p.boundary closedSeq history with
  | none => exact ⟨[],rfl,fun h => by simp [PrunerState.live,hb]⟩
  | some l =>
    obtain ⟨hashes,hl,-,-⟩ := l.collect
    refine ⟨hashes,hl,fun h => ?_⟩
    simp [PrunerState.live,hb,HistoryLedger.mem_listed hl]

theorem mem_prunable {found live : List Hash256} {h : Hash256} :
    h∈((sortHashes found).destutter (· ≠ ·)).filter (fun h => !live.contains h) ↔ h∈found ∧
      h∉live := by
  simp [mem_filter,mem_sorted]

theorem Prunes.enabled {p : PrunerState} {closedSeq : ℕ} (h : p.Prunes closedSeq) :
    p.isEnabled=true ∧ (p.advisoryDelete && p.canDeleteSeq == 0)=false := by
  obtain ⟨hshould,hadvisory⟩ := h
  constructor
  · by_contra hdisabled
    simp [shouldPrune,hdisabled] at hshould
  · rw [Bool.eq_false_iff]
    simpa using hadvisory

theorem prune_store (hprune : p.Prunes closedSeq) :
    ∃ r,
      p.prune closedSeq ((history.filter fun l => decide (l.sequence ≤ p.cutoffSeq closedSeq)).map
        HistoryLedger.toClosedLedger)
          ((p.boundary closedSeq history).map HistoryLedger.toClosedLedger) s=.ok r ∧
      ∀ h, (p.Deletes closedSeq history h → r.store h=none) ∧
        (¬ p.Deletes closedSeq history h → r.store h=s h) := by
  obtain ⟨henabled,hcursor⟩ := hprune.enabled
  have hsub : ∀ l : HistoryLedger sha s, l∈history → l.sequence ≤ p.effectiveCutoff closedSeq →
      l∈history.filter fun l => decide (l.sequence ≤ p.cutoffSeq closedSeq) := by
    intro l hl hseq
    simpa [hl] using hseq.trans (p.effectiveCutoff_le closedSeq)
  by_cases hold : history.filter (fun l => decide (l.sequence ≤ p.cutoffSeq closedSeq))=[]
  · refine ⟨⟨p,s,0⟩,by simp [prune,hold],fun h => ⟨?_,fun _ => rfl⟩⟩
    rintro ⟨-,⟨l,hl,hseq,-⟩,-⟩
    have hmem := hsub l hl hseq
    simp [hold] at hmem
  · obtain ⟨live,hlive,hlive'⟩ := liveHashes_boundary p closedSeq history
    obtain ⟨⟨found,earliest⟩,hfound,hmem⟩ := scan_fold (p.effectiveCutoff closedSeq) live
      (history.filter fun l => decide (l.sequence ≤ p.cutoffSeq closedSeq)) ([],p.earliestSeq)
    have hdeletes : ∀ h, h∈((sortHashes found).destutter (· ≠ ·)).filter
      (fun h => !live.contains h) ↔
        p.Deletes closedSeq history h := by
      intro h
      rw [mem_prunable,hmem h,hlive' h]
      constructor
      · rintro ⟨hnil | ⟨⟨l,hl,hseq,hlisted⟩,-⟩,hnot⟩
        · simp at hnil
        · exact ⟨hprune,⟨l,(mem_filter.mp hl).1,hseq,hlisted⟩,hnot⟩
      · rintro ⟨-,⟨l,hl,hseq,hlisted⟩,hnot⟩
        exact ⟨.inr ⟨⟨l,hsub l hl hseq,hseq,hlisted⟩,hnot⟩,hnot⟩
    have hempty : ((history.filter fun l => decide (l.sequence ≤ p.cutoffSeq closedSeq)).map
        HistoryLedger.toClosedLedger).isEmpty=false := by simpa using hold
    generalize hprunable : ((sortHashes found).destutter (· ≠ ·)).filter
      (fun h => !live.contains h)=prunable at hdeletes
    refine ⟨if prunable.length=0 then ⟨p,s,0⟩ else
      { state :=
        { p with earliestSeq := if p.earliestSeq < earliest then earliest else p.earliestSeq }
        store := (chunks deleteBatchSize prunable.length prunable).foldl NodeStore.deleteBatch s
        total := prunable.length },?_,fun h => ?_⟩
    · simp only [prune,henabled,hempty,hcursor,hlive,bind,Except.bind,hfound,← hprunable]
      rfl
    rw [← hdeletes h]
    by_cases hzero : prunable.length=0
    · rw [if_pos hzero,length_eq_zero_iff.mp hzero]
      exact ⟨fun hnil => absurd hnil not_mem_nil,fun _ => rfl⟩
    rw [if_neg hzero]
    simp only [NodeStore.foldl_deleteBatch,
      flatten_chunks (show 0 < deleteBatchSize by decide) le_rfl,
      NodeStore.deleteBatch_apply]
    exact ⟨fun hin => if_pos hin,fun hout => if_neg hout⟩

/-- Pruning in the close path ends, and deletes what is listed and not live. -/
theorem closePathPrune_store :
    ∃ r, p.closePathPrune closedSeq (history.map HistoryLedger.toClosedLedger) s=.ok r ∧
      ∀ h, (p.Deletes closedSeq history h → r.store h=none) ∧
        (¬ p.Deletes closedSeq history h → r.store h=s h) := by
  by_cases hshould : p.shouldPrune closedSeq=true
  · have hcall : p.closePathPrune closedSeq (history.map HistoryLedger.toClosedLedger) s =
        p.prune closedSeq ((history.filter fun l => decide (l.sequence ≤ p.cutoffSeq closedSeq)).map
          HistoryLedger.toClosedLedger)
            ((p.boundary closedSeq history).map HistoryLedger.toClosedLedger) s := by
      simp only [closePathPrune,hshould,if_true,filter_map,find?_map,boundary]
      rfl
    by_cases hadvisory : p.advisoryDelete=true ∧ p.canDeleteSeq=0
    · refine ⟨⟨p,s,0⟩,?_,fun h => ⟨fun hdel => (hdel.1.2 hadvisory).elim,fun _ => rfl⟩⟩
      rw [hcall]
      simp [prune,hadvisory]
    · rw [hcall]
      exact prune_store p closedSeq history ⟨hshould,hadvisory⟩
  · refine ⟨⟨p,s,0⟩,by simp [closePathPrune,hshould],fun h => ⟨?_,fun _ => rfl⟩⟩
    exact fun hdel => (hshould hdel.1.1).elim

/-! ## What survives -/

/-- Every stored node of a ledger after the effective cutoff is still in the store. -/
def KeepsNodes : Prop :=
  ∃ r, p.closePathPrune closedSeq (history.map HistoryLedger.toClosedLedger) s=.ok r ∧
    ∀ l∈history, p.effectiveCutoff closedSeq < l.sequence → ∀ h∈l.nodes, s h≠none → r.store h=s h

/-- Every stored node that is listed for a ledger up to the effective cutoff and belongs to one
after it stands in the boundary ledger as well. -/
def SharesThroughBoundary : Prop :=
  ∀ old∈history, old.sequence ≤ p.effectiveCutoff closedSeq →
    ∀ l∈history, p.effectiveCutoff closedSeq < l.sequence →
      ∀ h∈old.listed, h∈l.nodes → s h≠none → h∈p.live closedSeq history

/-- Pruning keeps the nodes of all ledgers after the effective cutoff exactly when it does not take
place or the boundary ledger has all the nodes that pruned and kept ledgers share. -/
theorem keeps_nodes_iff :
    p.KeepsNodes closedSeq history ↔
      (p.Prunes closedSeq → p.SharesThroughBoundary closedSeq history) := by
  obtain ⟨r,hr,hstore⟩ := closePathPrune_store p closedSeq history
  constructor
  · rintro ⟨r',hr',hkeeps⟩ hprune old hold hseq l hl hlate h hlisted hnode hsome
    rw [hr] at hr'
    cases hr'
    by_contra hlive
    have hgone := (hstore h).1 ⟨hprune,⟨old,hold,hseq,hlisted⟩,hlive⟩
    exact hsome ((hkeeps l hl hlate h hnode hsome).symm.trans hgone)
  · intro hshares
    refine ⟨r,hr,fun l hl hlate h hnode hsome => (hstore h).2 ?_⟩
    rintro ⟨hprune,⟨old,hold,hseq,hlisted⟩,hlive⟩
    exact hlive (hshares hprune old hold hseq l hl hlate h hlisted hnode hsome)

/-- Pruning ends, and a complete boundary ledger loses no node. -/
theorem boundary_survives : ∃ r,
    p.closePathPrune closedSeq (history.map HistoryLedger.toClosedLedger) s=.ok r ∧
    ∀ l, p.boundary closedSeq history=some l → (∀ h∈l.nodes, s h≠none) →
      ∀ h∈l.nodes, r.store h=s h := by
  obtain ⟨r,hr,hstore⟩ := closePathPrune_store p closedSeq history
  refine ⟨r,hr,fun l hl hstored h hnode => (hstore h).2 ?_⟩
  rintro ⟨-,-,hlive⟩
  obtain ⟨hashes,hlist,-,hcomplete⟩ := l.collect
  exact hlive ⟨l,hl,hashes,hlist,hcomplete hstored h hnode⟩

end PrunerState

/-! ## A node that comes back -/

def entrySha : Sha512Half :=
  .ofTable [(LeafKind.accountState.content .zero [1],.ofNat 1),
    (LeafKind.accountState.content .zero [2],.ofNat 2),
    (innerContent (Function.update (fun _ => .zero) 0 (.ofNat 1)),.ofNat 3),
    (innerContent (Function.update (fun _ => .zero) 0 (.ofNat 2)),.ofNat 4)]

def entryStore : NodeStore := NodeStore.storeBatch (fun _ => none)
  [(.ofNat 1,serializeLeaf .zero [1]),(.ofNat 2,serializeLeaf .zero [2]),
    (.ofNat 3,serializeInner (Function.update (fun _ => .zero) 0 (.ofNat 1))),
    (.ofNat 4,serializeInner (Function.update (fun _ => .zero) 0 (.ofNat 2)))]

def entryTrie (v : Bytes) : Fin 16 → KeyTrie := Function.update (fun _ => .empty) 0 (.leaf .zero v)

def entryMap (v : Bytes) : SHAMap entrySha :=
  ⟨.inner (InnerNode.new.setChild 0 (.leaf (.new .accountState .zero v))),.immutable,
    .accountState,some entryStore⟩

theorem support_entryTrie (v : Bytes) : support (entryTrie v)=[0] := by
  simp [support,entryTrie,Function.update_apply,finRange]

theorem entryTrie_consistent {v : Bytes} (hv : v=[1] ∨ v=[2]) :
    KeyTrie.Consistent entrySha .accountState entryStore (.node (entryTrie v)) := by
  have hroot : KeyTrie.hash entrySha .accountState (.node (entryTrie v))≠.zero ∧
      entryStore (KeyTrie.hash entrySha .accountState (.node (entryTrie v))) =
        some (KeyTrie.record entrySha .accountState (.node (entryTrie v))) := by
    obtain rfl | rfl := hv <;> decide +kernel
  have hleaf : KeyTrie.hash entrySha .accountState (.leaf .zero v)≠.zero ∧
      entryStore (KeyTrie.hash entrySha .accountState (.leaf .zero v)) =
        some (KeyTrie.record entrySha .accountState (.leaf .zero v)) := by
    obtain rfl | rfl := hv <;> decide
  refine ⟨hroot.1,fun r hr => Option.some.inj (hr.symm.trans hroot.2),fun b => ?_⟩
  by_cases hb : b=0
  · subst hb
    exact ⟨hleaf.1,fun r hr => Option.some.inj (hr.symm.trans hleaf.2)⟩
  · simp [entryTrie,hb,KeyTrie.Consistent]

def entryLedger (sequence : ℕ) (v : Bytes) (hv : v=[1] ∨ v=[2]) :
    HistoryLedger entrySha entryStore where
  sequence := sequence
  stateMap := entryMap v
  txMap := .new .transactionWithMeta (some entryStore)
  stateTrie := entryTrie v
  txTrie := fun _ => .empty
  state_map :=
    { kind_eq := rfl
      store_eq := rfl
      root := ⟨_,rfl,RepInner.new.setChild (by simp) rfl rfl⟩
      canonical := fun b => by
        by_cases hb : b=0
        · subst hb
          rfl
        · simp [entryTrie,hb,Canonical]
      consistent := fun _ => entryTrie_consistent hv
      hash_empty := fun h => by simp [support_entryTrie] at h }
  tx_map :=
    { kind_eq := rfl
      store_eq := rfl
      root := ⟨_,rfl,RepInner.new⟩
      canonical := fun _ => trivial
      consistent := fun h => absurd rfl h
      hash_empty := fun _ => rfl }

theorem leaf_mem_nodes (sequence : ℕ) {v : Bytes} (hv : v=[1] ∨ v=[2]) :
    KeyTrie.hash entrySha .accountState (.leaf .zero v)∈(entryLedger sequence v hv).nodes := by
  refine .inl ⟨?_,.inr ⟨0,rfl⟩⟩
  show support (entryTrie v)≠[]
  simp [support_entryTrie]

/-- Ledgers 254 to 256, with an entry that is changed in ledger 255 and changed back in ledger 256.
-/
def entryHistory : List (HistoryLedger entrySha entryStore) :=
  [entryLedger 254 [1] (.inl rfl),entryLedger 255 [2] (.inr rfl),entryLedger 256 [1] (.inl rfl)]

/-- With a window of two ledgers the leaf of the entry is pruned with ledger 254, and ledger 256 has
lost it. -/
theorem returned_entry_pruned : ¬ (PrunerState.new 2 false).KeepsNodes 256 entryHistory := by
  rintro ⟨r,hr,hkeeps⟩
  have hkept := hkeeps (entryLedger 256 [1] (.inl rfl)) (by simp [entryHistory]) (by decide) _
    (leaf_mem_nodes 256 _)
    (by decide)
  have hgone : ((PrunerState.new 2 false).closePathPrune 256
      (entryHistory.map HistoryLedger.toClosedLedger) entryStore).toOption.map
        (fun r => r.store (KeyTrie.hash entrySha .accountState (.leaf .zero [1])))=some none := by
    decide +kernel
  rw [hr] at hgone
  have hnone : r.store (KeyTrie.hash entrySha .accountState (.leaf .zero [1]))=none :=
    Option.some.inj hgone
  rw [hkept] at hnone
  revert hnone
  decide

/-- Ledger 255 is the boundary and keeps its leaf. -/
theorem changed_entry_kept : ∃ r, (PrunerState.new 2 false).closePathPrune 256
    (entryHistory.map HistoryLedger.toClosedLedger) entryStore=.ok r ∧
      r.store (KeyTrie.hash entrySha .accountState (.leaf .zero [2]))=some
        (serializeLeaf .zero [2]) := by
  obtain ⟨r,hr,hkept⟩ := PrunerState.boundary_survives (.new 2 false) 256 entryHistory
  refine ⟨r,hr,(hkept (entryLedger 255 [2] (.inr rfl)) rfl ?_ _ (leaf_mem_nodes 255 _)).trans
    (by decide)⟩
  rintro h (⟨-,hroot | ⟨b,hb⟩⟩ | ⟨hempty,-⟩)
  · rw [hroot]
    decide +kernel
  · by_cases h0 : b=0
    · subst h0
      rw [show h=_ from hb]
      decide
    · simp [entryTrie,entryLedger,h0] at hb
      cases hb
  · exact absurd rfl hempty

end Rxrpl
