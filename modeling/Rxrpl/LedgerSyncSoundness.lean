import Rxrpl.LedgerSyncWalk
import Rxrpl.SHAMapHistory

/-!
# Catch-up is sound and complete

A sync for the root hash of a genuine map, fed by arbitrary peers: every call keeps the
store authentic, the memo right and the loaded root up to date. A sync that completes
hands over exactly the entries of the map, and a sync that has been fed every node
completes.
-/

namespace Rxrpl

open RadixTrie List UInt8
open Option hiding all_eq_true mem_map

variable {sha : Sha512Half} {S : Set Bytes} {c : Fin 16 → KeyTrie}

/-- The map that a sync is after: it is not empty, and the strings that its nodes hash
are among those on which the hash function behaves. -/
structure Target (sha : Sha512Half) (S : Set Bytes) (c : Fin 16 → KeyTrie) : Prop where
  collisionFree : CollisionFree sha S
  canonical : CanonicalRoot c
  nonempty : support c≠[]
  contents_subset : KeyTrie.contents sha .accountState (.node c)⊆S

abbrev targetHash (sha : Sha512Half) (c : Fin 16 → KeyTrie) : Hash256 :=
    KeyTrie.hash sha .accountState (.node c)

abbrev Stored (sha : Sha512Half) (s : NodeStore) (c : Fin 16 → KeyTrie) : Prop :=
  KeyTrie.InStore sha .accountState s (.node c)

/-- The root of the target as it comes from the store. -/
abbrev targetRoot (sha : Sha512Half) (c : Fin 16 → KeyTrie) : InnerNode (SHAMapNode sha) :=
  .shell (fun b => (c b).hash sha .accountState) (targetHash sha c)

namespace Target

variable {s : NodeStore} (ht : Target sha S c) (hs : Authentic sha S s)
include ht

theorem contents_child (b : Fin 16) : (c b).contents sha .accountState⊆S :=
  KeyTrie.contents_child ht.contents_subset

theorem branches_targetRoot : (targetRoot sha c).branches=support c := by
  have h : ∀ b, ((c b).hash sha .accountState).isZero=(c b).isEmpty := by
    intro b
    by_cases hb : c b=.empty
    · rw [hb]
      rfl
    · rw [RadixTrie.isEmpty_eq_false_iff.mpr hb,Bool.eq_false_iff]
      exact fun hz => ht.collisionFree.hash_ne_zero hb (ht.contents_child b)
        (Hash256.isZero_iff.mp hz)
  simp only [InnerNode.branches,InnerNode.shell,h,support]

include hs

theorem syncingRoot_eq : SHAMap.syncingRoot sha (targetHash sha c) s =
    .inner (if s (targetHash sha c)=none then .new else targetRoot sha c) := by
  cases hr : s (targetHash sha c) with
  | none => simp [SHAMap.syncingRoot,hr]
  | some r =>
    obtain rfl := hs.record_eq ht.collisionFree (by simp) ht.contents_subset hr
    simp [SHAMap.syncingRoot,hr,KeyTrie.record,deserializeNode_inner]

theorem stored_of_fetch (h : ∀ str∈KeyTrie.contents sha .accountState (.node c), s (sha str)≠none) :
    Stored sha s c := by
  have key : ∀ t : KeyTrie, t.contents sha .accountState⊆KeyTrie.contents sha .accountState
    (.node c) →
      t.InStore sha .accountState s := by
    intro t
    induction t with
    | empty => exact fun _ => trivial
    | leaf k v =>
      intro hsub
      obtain ⟨r,hr⟩ := ne_none_iff_exists'.mp (h _ (hsub rfl))
      have hsub' := hsub.trans ht.contents_subset
      obtain rfl := hs.record_eq ht.collisionFree (t := .leaf k v) (by simp) hsub' hr
      exact ⟨ht.collisionFree.hash_ne_zero (by simp) hsub',hr⟩
    | node c' ih =>
      intro hsub
      obtain ⟨r,hr⟩ := ne_none_iff_exists'.mp (h _ (hsub (Or.inl rfl)))
      have hsub' := hsub.trans ht.contents_subset
      obtain rfl := hs.record_eq ht.collisionFree (t := .node c') (by simp) hsub' hr
      exact ⟨ht.collisionFree.hash_ne_zero (by simp) hsub',hr,fun b => ih b fun _ hstr =>
        hsub (Or.inr ⟨b,hstr⟩)⟩
  exact key _ subset_rfl

end Target

/-! ## One walk -/

namespace IncrementalSync

variable {s : NodeStore} {e : IncrementalSync sha} {k : ℕ} {complete : Finset Hash256}

theorem isEmpty_of_root (h : e.root=.inner .new) : (e.map s).isEmpty=true := by
  simp [SHAMap.isEmpty,map,h,InnerNode.branchCount,InnerNode.branches,InnerNode.new]

theorem memoOk_missingNodes (hs : Authentic sha S s) (hS : CollisionFree sha S)
    (hm : MemoOk sha s complete)
    (hroot : e.root=SHAMap.syncingRoot sha e.hash s) (target : Hash256) :
    MemoOk sha s ((e.map s).missingNodes target k complete).2 := by
  by_cases hk : k=0
  · simpa [SHAMap.missingNodes,hk] using hm
  cases hempty : (e.map s).isEmpty with
  | true => simpa [SHAMap.missingNodes,hk,hempty] using hm
  | false =>
    -- the root is not the placeholder, so it comes from a record
    obtain ⟨r,hr,hd⟩ : ∃ r, s e.hash=some r ∧
      deserializeNode .accountState r e.hash=.ok e.root := by
      rw [SHAMap.syncingRoot] at hroot
      split at hroot
      · simp [isEmpty_of_root hroot] at hempty
      rename_i r hr
      split at hroot
      · rename_i x hd
        exact ⟨r,hr,hroot ▸ hd⟩
      · simp [isEmpty_of_root hroot] at hempty
    cases hx : e.root with
    | leaf l => simpa [SHAMap.missingNodes,SHAMap.isEmpty,hk,map,hx] using hm
    | inner n =>
      rw [hx] at hd
      have hz : e.hash≠.zero := by
        obtain ⟨str,hstr,hsha,-⟩ := hs _ _ hr
        exact hsha ▸ hS.ne_zero str hstr
      have hhash : n.getHash sha=e.hash := by
        rw [InnerNode.getHash,hash_of_deserializeNode hd,if_neg]
        simp [Hash256.isZero_iff,hz]
      obtain ⟨hmemo,hall⟩ := collectMissing_sound (k := k) 64 0 .zero n ⟨[],complete⟩
        (children_of_deserializeNode hd) hm
      rw [SHAMap.missingNodes_inner (m := e.map s) hx hempty hk]
      dsimp only
      split
      · rename_i hwhole
        exact hmemo.memoize (hhash ▸ .inner hr hd (hall hwhole))
      · exact hmemo

/-- A walk for the target finds nothing missing exactly when the target is stored. -/
theorem missingNodes_eq_nil_iff (ht : Target sha S c) (hs : Authentic sha S s)
    (hm : MemoOk sha s complete) (hroot : e.root=SHAMap.syncingRoot sha (targetHash sha c) s)
    (hk : 1 ≤ k) : ((e.map s).missingNodes (targetHash sha c) k complete).1=[] ↔
      Stored sha s c := by
  rw [ht.syncingRoot_eq hs] at hroot
  have hk0 : k≠0 := by omega
  cases hr : s (targetHash sha c) with
  | none =>
    rw [if_pos hr] at hroot
    constructor
    · simp [SHAMap.missingNodes,hk0,isEmpty_of_root hroot]
    · intro hst
      rw [hst.2.1] at hr
      cases hr
  | some r =>
    rw [if_neg (by simp [hr])] at hroot
    have hempty : (e.map s).isEmpty=false := by
      simp [SHAMap.isEmpty,map,hroot,InnerNode.branchCount,ht.branches_targetRoot,ht.nonempty]
    have hout : ((e.map s).missingNodes (targetHash sha c) k complete).1 =
        (SHAMap.collectMissing (some s) .accountState k 64 0 .zero (targetRoot sha c)
          ⟨[],complete⟩).1.out := by
      rw [SHAMap.missingNodes_inner hroot hempty hk0]
      rfl
    rw [hout]
    constructor
    · intro h
      have hwhole :=
        (collectMissing_exact hs ht.collisionFree hk (p := []) (by simpa using ht.canonical)
        ht.contents_child (by simp) rfl _ _ _ h).2
      obtain ⟨-,hall⟩ := collectMissing_sound (k := k) 64 0 .zero (targetRoot sha c)
        ⟨[],complete⟩ rfl hm
      obtain rfl := hs.record_eq ht.collisionFree (by simp) ht.contents_subset hr
      refine ⟨ht.collisionFree.hash_ne_zero (by simp) ht.contents_subset,hr,fun b => ?_⟩
      by_cases hb : c b=.empty
      · rw [hb]
        trivial
      refine (hall hwhole b ?_).inStore hs ht.collisionFree hb (ht.contents_child b)
      have hmem : b∈(targetRoot sha c).branches := by
        rw [ht.branches_targetRoot]
        exact mem_support.mpr hb
      simpa [InnerNode.branches] using hmem
    · intro hst
      exact collectMissing_nil hst.2.2 0 .zero _ _ rfl

theorem forEach_eq (ht : Target sha S c) (hst : Stored sha s c)
    (hroot : e.root=.inner (targetRoot sha c)) :
      (e.map s).forEach=.ok (RadixTrie.node c).toList := by
  have hrep : SHAMap.Represents (KeyTrie.InStore sha .accountState s) c (e.map s) :=
    ⟨⟨_,hroot,repInner_shell hst.2.2⟩,ht.canonical,loadable_inStore sha .accountState s⟩
  exact hrep.forEach_eq

end IncrementalSync

/-! ## Adding nodes -/

/-- The strings that `decode_wire_node` hashes for a list of wire nodes. -/
def wireStrings (nodes : List (Bytes × Bytes)) : Set Bytes :=
  {str | ∃ node∈nodes, ∃ q, wirePayload node.2=some q ∧ str=q.1.toBytes++q.2}

theorem describes_of_wirePayload {nodeData : Bytes} {q : HashPrefix × Bytes}
    (h : wirePayload nodeData=some q) :
    Describes sha (q.1.toBytes++q.2) (q.1.storeRecord sha q.2) := by
  refine ⟨q.1,q.2,?_,rfl,rfl⟩
  simp only [wirePayload] at h
  split at h
  · cases h
  split at h
  case h_2 =>
    split_ifs at h
    obtain ⟨full,-,rfl⟩ := map_eq_some_iff.mp h
    exact length_childBytes full
  case h_6 => cases h
  all_goals split_ifs at h with hlen
  all_goals cases h
  · exact hlen
  · exact Nat.le_of_not_lt hlen
  · exact Nat.le_of_not_lt hlen
  · exact hlen

/-- The wire forms of the node that hashes a string: a leaf, an inner node in full, and an
inner node as a list of branches that leaves out none with a child. -/
inductive WireForm : Bytes → Bytes → Prop
  | leaf (key : Hash256) (data : Bytes) :
      WireForm (LeafKind.accountState.content key data) (data++key.asBytes++[1])
  | inner (hashes : Fin 16 → Hash256) : WireForm (innerContent hashes) (childBytes hashes++[2])
  | compressedInner (hashes : Fin 16 → Hash256) (bs : List (Fin 16)) :
      bs≠[] → (∀ b, hashes b≠.zero → b∈bs) →
      WireForm (innerContent hashes)
        (bs.flatMap (fun b => (hashes b).asBytes++[UInt8.ofNat b.val])++[3])

/-- The chunks of a compressed inner node fill in its child hashes. -/
theorem expandCompressed_eq (hashes : Fin 16 → Hash256) (bs : List (Fin 16))
    (hbs : ∀ b, hashes b≠.zero → b∈bs) :
    expandCompressed (bs.flatMap fun b => (hashes b).asBytes++[ofNat b.val])=some hashes := by
  have hlen : ∀ b : Fin 16, ((hashes b).asBytes++[ofNat b.val]).length=33 := by simp
  have hchunks : (range ((bs.flatMap fun b => (hashes b).asBytes++[ofNat b.val]).length/33)).map
      (fun i => ((bs.flatMap fun b => (hashes b).asBytes++[ofNat b.val]).drop (i*33)).take 33) =
        bs.map fun b => (hashes b).asBytes++[ofNat b.val] := by
    refine ext_getElem (by simp [length_flatMap]) fun i h₁ h₂ => ?_
    simp only [length_map] at h₂
    rw [getElem_map,getElem_map,getElem_range]
    exact take_drop_flatMap hlen bs h₂
  have hfold : ∀ (l : List (Fin 16)) (f : Fin 16 → Hash256),
      (l.map fun b => (hashes b).asBytes++[ofNat b.val]).foldlM (fun full chunk =>
        if h : (chunk.getD 32 0).toNat < 16 then
          (Hash256.fromSlice (chunk.take 32)).map (Function.update full ⟨(chunk.getD 32 0).toNat,h⟩)
        else none) f=some fun b => if b∈l then hashes b else f b := by
    intro l
    induction l with
    | nil => intro f; simp
    | cons a l ih =>
      intro f
      have hbyte : ((((hashes a).asBytes++[ofNat a.val]).getD 32 0 : UInt8)).toNat=a.val := by
        have ha := a.isLt
        rw [getD_eq_getElem _ _ (by simp),getElem_append_right (by simp)]
        simp
        omega
      have htake : ((hashes a).asBytes++[ofNat a.val]).take 32=(hashes a).asBytes := by
        rw [take_append_of_le_length (by simp),take_of_length_le (by simp)]
      rw [map_cons,foldlM_cons,dif_pos (by rw [hbyte]; exact a.isLt),htake,
        Hash256.fromSlice_asBytes]
      simp only [hbyte,map_some,bind_eq_bind,bind_some,ih]
      congr 1
      funext b
      by_cases hb : b=a
      · subst hb
        simp
      · simp [hb]
  rw [expandCompressed,hchunks,hfold]
  congr 1
  funext b
  by_cases hz : hashes b=.zero
  · simp [hz]
  · simp [hbs b hz]

theorem WireForm.exists_wirePayload {str w : Bytes} (h : WireForm str w) :
    ∃ q, wirePayload w=some q ∧ str=q.1.toBytes++q.2 := by
  cases h with
  | leaf key data => exact ⟨(.leafNode,data++key.asBytes),by simp [wirePayload],rfl⟩
  | inner hashes =>
    exact ⟨(.innerNode,childBytes hashes),by simp [wirePayload,length_childBytes],rfl⟩
  | compressedInner hashes bs hne hbs =>
    refine ⟨(.innerNode,childBytes hashes),?_,rfl⟩
    obtain ⟨b,bs',rfl⟩ := exists_cons_of_ne_nil hne
    have hexp := expandCompressed_eq hashes (b::bs') hbs
    generalize hp : (b::bs').flatMap (fun b => (hashes b).asBytes++[ofNat b.val])=payload at hexp ⊢
    have hlen : payload.length=33*(bs'.length+1) := by
      rw [← hp]
      simp [length_flatMap,Nat.mul_comm]
      omega
    have hnil : payload≠[] := by
      rintro rfl
      simp at hlen
    have hmod : payload.length % 33=0 := by omega
    have hshort : ¬(payload++[3]).length < 2 := by simp; omega
    rw [wirePayload,if_neg hshort]
    simp [hnil,hmod,hexp]

namespace LedgerSyncer

theorem addNode_spec (hS : CollisionFree sha S) {acc : NodeStore × ℕ} (hs : Authentic sha S acc.1)
    (nodeData : Bytes) (hn : ∀ q, wirePayload nodeData=some q → q.1.toBytes++q.2∈S) :
    let r := addNode sha acc nodeData
    Authentic sha S r.1 ∧ r.1.Extends acc.1 ∧ acc.2 ≤ r.2 ∧ (r.2=acc.2 → r.1=acc.1) ∧
      ∀ q, wirePayload nodeData=some q → r.1 (sha (q.1.toBytes++q.2))≠none := by
  cases hw : wirePayload nodeData with
  | none => simpa [addNode,decodeWireNode,hw,NodeStore.Extends] using hs
  | some q =>
    have hq := hn q hw
    have hd : Describes sha _ _ := describes_of_wirePayload hw
    cases hfetch : acc.1 (sha (q.1.toBytes++q.2)) with
    | some r =>
      have hadd : addNode sha acc nodeData=acc := by
        simp [addNode,decodeWireNode,hw,NodeStore.addRawNode,hfetch]
      rw [hadd]
      refine ⟨hs,fun _ _ h => h,le_rfl,fun _ => rfl,fun q' hq' => ?_⟩
      cases hq'
      simp [hfetch]
    | none =>
      have hadd : addNode sha acc nodeData =
          (Function.update acc.1 (sha (q.1.toBytes++q.2)) (some (q.1.storeRecord sha q.2)),
            acc.2+1) := by
        simp [addNode,decodeWireNode,hw,NodeStore.addRawNode,hfetch,NodeStore.storeBatch]
      rw [hadd]
      refine ⟨hs.update hq hd,hs.extends_update hS hq hd,by simp,by simp,fun q' hq' => ?_⟩
      cases hq'
      simp

/-- Feeding nodes keeps the store authentic and its records, adds nothing when it counts
nothing, and leaves every decodable node in the store. -/
theorem addNodes_spec (hS : CollisionFree sha S) {s : NodeStore} (hs : Authentic sha S s)
    {nodes : List (Bytes × Bytes)} (hn : wireStrings nodes⊆S) : let r := addNodes sha s nodes
    Authentic sha S r.1 ∧ r.1.Extends s ∧ (r.2=0 → r.1=s) ∧
      ∀ str∈wireStrings nodes, r.1 (sha str)≠none := by
  have key : ∀ acc : NodeStore × ℕ, Authentic sha S acc.1 →
      let r := nodes.foldl (fun acc node => addNode sha acc node.2) acc
      Authentic sha S r.1 ∧ r.1.Extends acc.1 ∧ acc.2 ≤ r.2 ∧ (r.2=acc.2 → r.1=acc.1) ∧
        ∀ str∈wireStrings nodes, r.1 (sha str)≠none := by
    induction nodes with
    | nil => exact fun acc hacc => ⟨hacc,fun _ _ h => h,le_rfl,fun _ => rfl,by simp [wireStrings]⟩
    | cons node nodes ih =>
      intro acc hacc
      obtain ⟨ha,he,hle,hsame,hstored⟩ := addNode_spec hS hacc node.2
        fun q hq => hn ⟨node,by simp,q,hq,rfl⟩
      have hn' : wireStrings nodes⊆S := by
        rintro str ⟨node',hmem,q,hq,rfl⟩
        exact hn ⟨node',by simp [hmem],q,hq,rfl⟩
      obtain ⟨ha',he',hle',hsame',hstored'⟩ := ih hn' _ ha
      refine ⟨ha',fun h r hr => he' _ _ (he _ _ hr),hle.trans hle',fun heq => ?_,?_⟩
      · simp only [foldl_cons] at heq ⊢
        have h₁ : (addNode sha acc node.2).2=acc.2 := by omega
        rw [hsame' (by omega),hsame h₁]
      · rintro str ⟨node',hmem,q,hq,rfl⟩
        rcases mem_cons.mp hmem with rfl | hmem
        · obtain ⟨r,hr⟩ := ne_none_iff_exists'.mp (hstored q hq)
          simp [he' _ _ hr]
        · exact hstored' _ ⟨node',hmem,q,hq,rfl⟩
  obtain ⟨ha,he,-,hsame,hstored⟩ := key (s,0) hs
  exact ⟨ha,he,hsame,hstored⟩

end LedgerSyncer

/-! ## The invariant -/

def targetLeaves (c : Fin 16 → KeyTrie) : List (Bytes × Bytes) :=
  (RadixTrie.node c).toList.map fun (key,data) => (key.asBytes,data)

/-- An active sync: its root is as the store has it, and a sync for the target that had
rounds without a new node is still waiting for one. -/
structure EntryOk (sha : Sha512Half) (c : Fin 16 → KeyTrie) (s : NodeStore)
    (e : IncrementalSync sha) : Prop where
  root : e.root=SHAMap.syncingRoot sha e.hash s
  pending : e.hash=targetHash sha c → 0 < e.zeroRounds → ¬Stored sha s c

namespace LedgerSyncer

/-- The invariant of the syncer. At most one sync is active at a time, so only that sync
changes the store. -/
structure Inv (S : Set Bytes) (c : Fin 16 → KeyTrie) (s : LedgerSyncer sha) : Prop where
  authentic : Authentic sha S s.store
  memo : MemoOk sha s.store s.complete
  single : s.incremental.length ≤ 1
  entries : ∀ q∈s.incremental, EntryOk sha c s.store q.2

variable {s : LedgerSyncer sha} {seq : ℕ} {e : IncrementalSync sha}

theorem Inv.incremental_eq (h : Inv S c s) (he : s.find seq=some e) : s.incremental=[(seq,e)] := by
  have hlen := h.single
  unfold find at he
  match hl : s.incremental with
  | [] => simp [hl] at he
  | [(seq',e')] =>
    rw [hl,lookup_cons] at he
    split at he
    · rename_i heq
      simp only [beq_iff_eq] at heq
      cases he
      rw [heq]
    · simp at he
  | _::_::_ => simp [hl] at hlen

theorem Inv.entryOk (h : Inv S c s) (he : s.find seq=some e) : EntryOk sha c s.store e :=
  h.entries (seq,e) (by simp [h.incremental_eq he])

theorem reloadRoot_root {store store' : NodeStore} (hext : store'.Extends store)
    (hroot : e.root=SHAMap.syncingRoot sha e.hash store) :
    (e.reloadRoot store').root=SHAMap.syncingRoot sha e.hash store' := by
  unfold IncrementalSync.reloadRoot
  cases hr : store' e.hash with
  | none =>
    have hold : store e.hash=none := by
      cases hold : store e.hash with
      | none => rfl
      | some r => simp [hext _ _ hold] at hr
    simp [hroot,SHAMap.syncingRoot,hr,hold]
  | some r =>
    cases hd : (deserializeNode .accountState r e.hash : Except SHAMapError (SHAMapNode sha)) with
    | ok x => simp [SHAMap.syncingRoot,hr,hd]
    | error err =>
      cases hold : store e.hash with
      | none => simp [hroot,SHAMap.syncingRoot,hr,hd,hold]
      | some r' =>
        obtain rfl : r'=r := by simpa [hext _ _ hold] using hr
        simp [hroot,SHAMap.syncingRoot,hr,hd,hold]

@[simp] theorem reloadRoot_hash (store : NodeStore) : (e.reloadRoot store).hash=e.hash := by
  unfold IncrementalSync.reloadRoot
  split
  · rfl
  · split <;> rfl

section

variable (ht : Target sha S c)
include ht

theorem not_stored_of_isEmpty (hs : Authentic sha S s.store) (hh : e.hash=targetHash sha c)
    (hroot : e.root=SHAMap.syncingRoot sha e.hash s.store) (hempty : (e.map s.store).isEmpty=true) :
    ¬Stored sha s.store c := by
  intro hst
  rw [hh,ht.syncingRoot_eq hs,if_neg (by simp [hst.2.1])] at hroot
  simp [SHAMap.isEmpty,IncrementalSync.map,hroot,InnerNode.branchCount,ht.branches_targetRoot,
    ht.nonempty]
    at hempty

theorem extractLeaves_eq (hs : Authentic sha S s.store) (hh : e.hash=targetHash sha c)
    (hroot : e.root=SHAMap.syncingRoot sha e.hash s.store) (hst : Stored sha s.store c) :
    extractLeaves e s.store=.ok (targetLeaves c) := by
  rw [hh,ht.syncingRoot_eq hs,if_neg (by simp [hst.2.1])] at hroot
  rw [extractLeaves,IncrementalSync.forEach_eq ht hst hroot]
  rfl

variable {e₀ : IncrementalSync sha}

/-- The end of `feed_nodes` and of `try_complete_sync` decides by what is stored. -/
theorem finishSync_spec (hs : Authentic sha S s.store) (hm : MemoOk sha s.store s.complete)
    (hinc : s.incremental=[(seq,e₀)]) (hroot : e.root=SHAMap.syncingRoot sha e.hash s.store) :
    let r := s.finishSync seq e
    Inv S c r.1 ∧ r.1.store=s.store ∧
      (e.hash=targetHash sha c → Stored sha s.store c → r.2=.ok (some (targetLeaves c))) ∧
      (e.hash=targetHash sha c → ¬Stored sha s.store c → r.2=.ok none) := by
  have hinc' : (s.insert seq e).incremental=[(seq,e)] := by simp [insert,hinc]
  simp only [finishSync]
  cases hempty : (e.map (s.insert seq e).store).isEmpty with
  | true =>
    have hnot : e.hash=targetHash sha c → ¬Stored sha s.store c := fun hh =>
      not_stored_of_isEmpty ht hs hh hroot hempty
    refine ⟨⟨hs,hm,by simp [hinc'],?_⟩,rfl,fun hh hst => absurd hst (hnot hh),fun _ _ => rfl⟩
    simp only [if_true,hinc',mem_singleton,forall_eq]
    exact ⟨hroot,fun hh _ => hnot hh⟩
  | false =>
    have hmemo := IncrementalSync.memoOk_missingNodes (k := 1) hs ht.collisionFree hm hroot e.hash
    simp only [Bool.false_eq_true,if_false]
    cases hmiss : ((e.map (s.insert seq e).store).missingNodes e.hash 1 (s.insert seq e).complete).1
      with
    | nil =>
      refine ⟨⟨hs,hmemo,by simp [remove,hinc'],by simp [remove,hinc']⟩,rfl,fun hh hst => ?_,
        fun hh hnot => absurd ?_ hnot⟩
      · have hleaves := extractLeaves_eq ht hs hh hroot hst
        simp only [isEmpty_nil,if_true]
        rw [show (s.insert seq e).store=s.store from rfl,hleaves]
        rfl
      · rw [hh] at hmiss hroot
        exact (IncrementalSync.missingNodes_eq_nil_iff ht hs hm hroot le_rfl).mp hmiss
    | cons q qs =>
      have hnot : e.hash=targetHash sha c → ¬Stored sha s.store c := by
        intro hh hst
        rw [hh] at hmiss hroot
        have hnil := (IncrementalSync.missingNodes_eq_nil_iff ht hs hm hroot le_rfl).mpr hst
        exact absurd (hmiss.symm.trans hnil) (by simp)
      refine ⟨⟨hs,hmemo,by simp [hinc'],?_⟩,rfl,fun hh hst => absurd hst (hnot hh),fun _ _ => rfl⟩
      simp only [isEmpty_cons,Bool.false_eq_true,if_false,hinc',mem_singleton,forall_eq]
      exact ⟨hroot,fun hh _ => hnot hh⟩

/-- What `feed_nodes` does for the target over the store it leaves behind: it completes
with the right leaves or not at all, and it completes if the target is stored. -/
def FeedOk (c : Fin 16 → KeyTrie) (s' : LedgerSyncer sha) (hash : Hash256)
    (result : Except SHAMapError FeedResult) : Prop :=
  hash=targetHash sha c → (∀ leaves, result=.ok (.complete leaves) → leaves=targetLeaves c) ∧
    (Stored sha s'.store c → result=.ok (.complete (targetLeaves c)))

theorem finishFeed_spec (hs : Authentic sha S s.store) (hm : MemoOk sha s.store s.complete)
    (hinc : s.incremental=[(seq,e₀)]) (hroot : e.root=SHAMap.syncingRoot sha e.hash s.store) :
    let r := s.finishFeed seq e
    Inv S c r.1 ∧ r.1.store=s.store ∧ FeedOk c r.1 e.hash r.2 := by
  obtain ⟨hinv,hstore,hyes,hno⟩ := finishSync_spec ht hs hm hinc hroot
  refine ⟨hinv,hstore,fun hh => ?_⟩
  by_cases hst : Stored sha s.store c
  · have hr : (s.finishFeed seq e).2=.ok (.complete (targetLeaves c)) := by
      simp only [finishFeed,hyes hh hst]
      rfl
    refine ⟨fun leaves h => ?_,fun _ => hr⟩
    rw [hr] at h
    cases h
    rfl
  · have hr : (s.finishFeed seq e).2=.ok .continue := by
      simp only [finishFeed,hno hh hst]
      rfl
    refine ⟨fun leaves h => ?_,fun h => absurd (hstore ▸ h) hst⟩
    rw [hr] at h
    cases h

theorem feedNothing_spec (h : Inv S c s) (he : s.find seq=some e) {threshold : ℕ}
    (hth : 1 ≤ threshold) : let r := s.feedNothing seq e threshold
    Inv S c r.1 ∧ r.1.store=s.store ∧ FeedOk c r.1 e.hash r.2 := by
  have hinc := h.incremental_eq he
  have hok := h.entryOk he
  -- a stored target would have been complete before, so this is the first such round
  have hfirst : e.hash=targetHash sha c → Stored sha s.store c → e.zeroRounds=0 := by
    intro hh hst
    by_contra hz
    exact hok.pending hh (by omega) hst
  simp only [feedNothing]
  split
  · rename_i hstuck
    refine ⟨⟨h.authentic,h.memo,by simp [remove,hinc],by simp [remove,hinc]⟩,rfl,
      fun hh => ⟨fun leaves hl => (by cases hl),fun hst => ?_⟩⟩
    have := hfirst hh hst
    omega
  split
  · rename_i hfallback
    have hmemo := IncrementalSync.memoOk_missingNodes (k := maxDeltaNodesPerRequest) h.authentic
      ht.collisionFree
      h.memo hok.root e.hash
    split
    · exact finishFeed_spec ht h.authentic hmemo hinc hok.root
    rename_i hmiss
    have hnot : e.hash=targetHash sha c → ¬Stored sha s.store c := by
      intro hh hst
      have := hfirst hh hst
      simp only [this,hashFallbackThreshold] at hfallback
      omega
    refine ⟨⟨h.authentic,hmemo,by simp [insert,hinc],?_⟩,rfl,
      fun hh => ⟨fun leaves hl => (by cases hl),fun hst => absurd hst (hnot hh)⟩⟩
    simp only [insert,hinc,mem_cons]
    rintro q (rfl | hq)
    · exact ⟨hok.root,fun hh _ => hnot hh⟩
    · simp at hq
  · exact finishFeed_spec ht h.authentic h.memo hinc hok.root

theorem feedNodes_spec (h : Inv S c s) {nodes : List (Bytes × Bytes)} (hn : wireStrings nodes⊆S)
    (he : s.find seq=some e) : let r := s.feedNodes seq nodes
    Inv S c r.1 ∧ r.1.store=(addNodes sha s.store nodes).1 ∧ FeedOk c r.1 e.hash r.2 := by
  obtain ⟨hauth,hext,hsame,-⟩ := addNodes_spec ht.collisionFree h.authentic hn
  have hinc := h.incremental_eq he
  simp only [feedNodes,he]
  split
  · have hmemo : MemoOk sha (addNodes sha s.store nodes).1 s.complete := fun q hq =>
      (h.memo q hq).mono hext
    refine And.imp_right (And.imp_right fun hfeed hh => hfeed (by rwa [reloadRoot_hash]))
      (finishFeed_spec ht hauth hmemo hinc ?_)
    rw [reloadRoot_hash]
    exact reloadRoot_root hext (h.entryOk he).root
  · rename_i hadded
    have hstore : (addNodes sha s.store nodes).1=s.store := hsame (by omega)
    have hth : 1 ≤ if s.syncedSeqs=∅ then catchupStuckRemoveZeroRounds
      else stuckRemoveZeroRounds := by
      split <;> decide
    rw [hstore]
    exact feedNothing_spec ht h he hth

theorem tryCompleteSync_spec (h : Inv S c s) (he : s.find seq=some e) :
    let r := s.tryCompleteSync seq
    Inv S c r.1 ∧ r.1.store=s.store ∧
      (e.hash=targetHash sha c → (∀ leaves, r.2=.ok (some leaves) → leaves=targetLeaves c) ∧
        (Stored sha s.store c → r.2=.ok (some (targetLeaves c)))) := by
  have hroot : (e.reloadRoot s.store).root=SHAMap.syncingRoot sha e.hash s.store :=
    reloadRoot_root (fun _ _ h => h) (h.entryOk he).root
  obtain ⟨hinv,hstore,hyes,hno⟩ := finishSync_spec ht h.authentic h.memo (h.incremental_eq he)
    (e := e.reloadRoot s.store) (by simpa using hroot)
  rw [reloadRoot_hash] at hyes hno
  simp only [tryCompleteSync,he]
  refine ⟨hinv,hstore,fun hh => ⟨fun leaves hl => ?_,hyes hh⟩⟩
  by_cases hst : Stored sha s.store c
  · rw [hyes hh hst] at hl
    cases hl
    rfl
  · rw [hno hh hst] at hl
    cases hl

theorem continueSync_inv (h : Inv S c s) (seq : ℕ) (hash : Hash256)
    (hfree : s.incremental=[] ∨ ∃ e, s.find seq=some e) :
    Inv S c (s.continueSync seq hash).1 ∧ (s.continueSync seq hash).1.store=s.store := by
  -- the sync that goes on, which is a new one if there was none
  obtain ⟨e,he,hok,hothers⟩ : ∃ e : IncrementalSync sha,
      (s.find seq).getD ⟨hash,SHAMap.syncingRoot sha hash s.store,0,0,0⟩=e ∧
        EntryOk sha c s.store e ∧
        s.incremental.filter (·.1 != seq)=[] := by
    rcases hfree with hnil | ⟨e,he⟩
    · exact ⟨_,by simp [find,hnil]; rfl,⟨rfl,fun _ hz => absurd hz (by simp)⟩,by simp [hnil]⟩
    · exact ⟨e,by simp [he],h.entryOk he,by simp [h.incremental_eq he]⟩
  simp only [continueSync,he]
  split
  · exact ⟨⟨h.authentic,h.memo,by simp [remove,hothers],by simp [remove,hothers]⟩,rfl⟩
  have hmemo := IncrementalSync.memoOk_missingNodes (k := maxDeltaNodesPerRequest) h.authentic
    ht.collisionFree
    h.memo hok.root hash
  refine ⟨⟨h.authentic,hmemo,by simp [insert,hothers],?_⟩,rfl⟩
  simp only [insert,hothers,mem_singleton,forall_eq]
  exact ⟨hok.root,hok.pending⟩

theorem startIncrementalSync_inv (h : Inv S c s) (seq : ℕ) (hash : Hash256) :
    Inv S c (s.startIncrementalSync seq hash).1 ∧
      (s.startIncrementalSync seq hash).1.store=s.store := by
  unfold startIncrementalSync
  split
  · rename_i he
    exact continueSync_inv ht h seq hash (Or.inr (isSome_iff_exists.mp he))
  split
  · rename_i hmax
    exact continueSync_inv ht h seq hash (Or.inl (by simpa using hmax))
  split
  · exact ⟨h,rfl⟩
  · have hcleared : Inv S c { s with incremental := [] } := ⟨h.authentic,h.memo,by simp,by simp⟩
    exact continueSync_inv ht hcleared seq hash (Or.inl rfl)

theorem getMissingNodeIds_inv (h : Inv S c s) (seq : ℕ) :
    Inv S c (s.getMissingNodeIds seq).1 ∧ (s.getMissingNodeIds seq).1.store=s.store := by
  unfold getMissingNodeIds
  split
  · exact ⟨h,rfl⟩
  · rename_i e he
    exact ⟨⟨h.authentic,IncrementalSync.memoOk_missingNodes h.authentic ht.collisionFree h.memo
      (h.entryOk he).root e.hash,h.single,h.entries⟩,rfl⟩

def Event.strings : Event → Set Bytes
  | .feed _ nodes => wireStrings nodes
  | _ => ∅

theorem step_inv (h : Inv S c s) {ev : Event} (hev : ev.strings⊆S) :
    Inv S c (s.step ev) ∧ (s.step ev).store.Extends s.store := by
  have hkept : ∀ {s' : LedgerSyncer sha}, Inv S c s' ∧ s'.store=s.store → Inv S c s' ∧
    s'.store.Extends s.store :=
    fun hs' => ⟨hs'.1,fun _ _ hr => hs'.2 ▸ hr⟩
  cases ev with
  | start seq hash => exact hkept (startIncrementalSync_inv ht h seq hash)
  | feed seq nodes =>
    cases he : s.find seq with
    | none =>
      have hstep : s.step (.feed seq nodes)=s := by simp [step,feedNodes,he]
      rw [hstep]
      exact ⟨h,fun _ _ hr => hr⟩
    | some e =>
      obtain ⟨hinv,hstore,-⟩ := feedNodes_spec ht h hev he
      obtain ⟨-,hext,-,-⟩ := addNodes_spec ht.collisionFree h.authentic hev
      exact ⟨hinv,fun q r hr => by rw [step,hstore]; exact hext q r hr⟩
  | tryComplete seq =>
    cases he : s.find seq with
    | none =>
      have hstep : s.step (.tryComplete seq)=s := by simp [step,tryCompleteSync,he]
      rw [hstep]
      exact ⟨h,fun _ _ hr => hr⟩
    | some e =>
      obtain ⟨hinv,hstore,-⟩ := tryCompleteSync_spec ht h he
      exact hkept ⟨hinv,hstore⟩
  | getMissing seq => exact hkept (getMissingNodeIds_inv ht h seq)
  | markSynced seq => exact ⟨⟨h.authentic,h.memo,h.single,h.entries⟩,fun _ _ hr => hr⟩
  | clear =>
    exact ⟨⟨h.authentic,by simp [MemoOk,step,clear],by simp [step,clear],by simp [step,clear]⟩,
      fun _ _ hr => hr⟩

end

/-! ## Runs -/

/-- The wire nodes that the active syncs of a run have been fed. -/
def fed (s : LedgerSyncer sha) : List Event → List Bytes
  | [] => []
  | .feed seq nodes::events =>
    (if (s.find seq).isSome then nodes.map Prod.snd else [])++(s.step (.feed seq nodes)).fed events
  | ev::events => (s.step ev).fed events

variable {events : List Event}

theorem run_inv (ht : Target sha S c) (h : Inv S c s) (hev : ∀ ev∈events, ev.strings⊆S) :
    Inv S c (s.run events) ∧ (s.run events).store.Extends s.store := by
  induction events generalizing s with
  | nil => exact ⟨h,fun _ _ hr => hr⟩
  | cons ev events ih =>
    obtain ⟨hinv,hext⟩ := step_inv ht h (hev ev (by simp))
    obtain ⟨hinv',hext'⟩ := ih hinv fun ev' hmem => hev ev' (by simp [hmem])
    exact ⟨hinv',fun q r hr => hext' q r (hext q r hr)⟩

theorem fetch_of_fed (ht : Target sha S c) (h : Inv S c s) (hev : ∀ ev∈events, ev.strings⊆S)
    {w : Bytes} (hw : w∈s.fed events) {q : HashPrefix × Bytes} (hq : wirePayload w=some q) :
    (s.run events).store (sha (q.1.toBytes++q.2))≠none := by
  induction events generalizing s with
  | nil => simp [fed] at hw
  | cons ev events ih =>
    have hstep := step_inv ht h (hev ev (by simp))
    have hev' : ∀ ev'∈events, ev'.strings⊆S := fun ev' hmem => hev ev' (by simp [hmem])
    cases ev with
    | feed seq nodes =>
      rw [fed,mem_append] at hw
      rcases hw with hw | hw
      · split at hw
        · rename_i he
          obtain ⟨e,he⟩ := isSome_iff_exists.mp he
          obtain ⟨node,hmem,rfl⟩ := mem_map.mp hw
          obtain ⟨-,hstore,-⟩ := feedNodes_spec ht h (hev (.feed seq nodes) (by simp)) he
          obtain ⟨-,-,-,hstored⟩ :=
            addNodes_spec ht.collisionFree h.authentic (hev (.feed seq nodes) (by simp))
          obtain ⟨r,hr⟩ := ne_none_iff_exists'.mp (hstored _ ⟨node,hmem,q,hq,rfl⟩)
          obtain ⟨-,hext⟩ := run_inv ht hstep.1 hev'
          change ((s.step (.feed seq nodes)).run events).store _≠none
          rw [hext _ r (by rw [step,hstore]; exact hr)]
          simp
        · simp at hw
      · exact ih hstep.1 hev' hw
    | start | tryComplete | getMissing | markSynced | clear => exact ih hstep.1 hev' hw

end LedgerSyncer

def SHAMap.ofPuts (sha : Sha512Half) (puts : List (Hash256 × Bytes)) : SHAMap sha :=
  (SHAMap.new .accountState none).run (puts.map fun e => .put e.1 e.2)

/-- The list of all entries of a map in ascending order of their keys. -/
def SHAMap.IsContents (m : SHAMap sha) (leaves : List (Bytes × Bytes)) : Prop :=
  ∃ l : List (Hash256 × Bytes), leaves=l.map (fun e => (e.1.asBytes,e.2)) ∧
    l.Pairwise (fun x y => x.1 < y.1) ∧ ∀ key data, (key,data)∈l ↔ m.get key=.ok (some data)

theorem SHAMap.exists_target (hS : CollisionFree sha S) {puts : List (Hash256 × Bytes)}
    (hne : puts≠[]) (hM : ∀ str∈(ofPuts sha puts).root.nodeContents, str∈S)
    (owned : List (Fin 16) → Bool) :
    ∃ c, Target sha S c ∧ ((ofPuts sha puts).rootHash owned).2=targetHash sha c ∧
      (ofPuts sha puts).IsContents (targetLeaves c) ∧
      ∀ str∈KeyTrie.contents sha .accountState (.node c),
        str∈(ofPuts sha puts).root.nodeContents := by
  have hcalls : ∀ key data, Call.insert key data∉puts.map fun e => Call.put e.1 e.2 := by simp
  have hnew : Represents (fun _ => False) (fun _ => .empty) (new .accountState none : SHAMap sha) :=
    represents_new .accountState none
  obtain ⟨x,c,hx,hrep,hfind⟩ := hnew.run_eq_spec (by simp [new]) hcalls
  change ofPuts sha puts=_ at hx
  have hkind : (ofPuts sha puts).kind=.accountState := by rw [hx]; rfl
  rw [← hx] at hrep
  have hroot := hrep.root
  rw [hkind] at hroot
  -- the key that was put last is there
  have hsupp : support c≠[] := by
    intro hs
    have hnone := (KeyTrie.support_eq_nil_iff hrep.canonical).mp hs
    obtain ⟨init,last,rfl⟩ : ∃ init last, puts=init++[last] :=
      ⟨_,_,(dropLast_append_getLast hne).symm⟩
    have hlast := hnone last.1
    simp [hfind,specRun,Call.spec] at hlast
  have hcontents : ∀ str, str∈(ofPuts sha puts).root.nodeContents ↔
      str∈KeyTrie.contents sha .accountState (.node c) := by
    intro str
    obtain ⟨n,hn,hrn⟩ := hroot
    rw [hn]
    exact hrn.mem_nodeContents hsupp fun b x hx => hx.mem_nodeContents (hrep.canonical b)
  refine ⟨c,⟨hS,hrep.canonical,hsupp,fun str hstr => hM str ((hcontents str).mpr hstr)⟩,?_,?_,
    fun str hstr => (hcontents str).mpr hstr⟩
  · rw [hrep.rootHash_eq,hkind,KeyTrie.rootHash,if_neg hsupp]
  · refine ⟨(RadixTrie.node c).toList,rfl,KeyTrie.pairwise_toList hrep.canonical,fun key data => ?_⟩
    rw [KeyTrie.mem_toList_iff hrep.canonical,hrep.get_eq]
    simp

namespace LedgerSyncer

/-- **Catch-up is sound and complete.** Let a sync for the root hash of a map built by
puts be active after any run of the syncer over an authentic store, with arbitrary
nodes fed on the way. Then `feed_nodes` and `try_complete_sync` complete it with exactly
the entries of the map or not at all; the call of `feed_nodes` with which every node of
the map has been fed completes it, and so does `try_complete_sync` after that. -/
theorem catch_up_sound_complete (sha : Sha512Half) (S : Set Bytes) (hS : CollisionFree sha S)
    (puts : List (Hash256 × Bytes)) (hne : puts≠[])
    (hM : ∀ str∈(SHAMap.ofPuts sha puts).root.nodeContents, str∈S) (store : NodeStore)
    (hstore : Authentic sha S store) (events : List Event) (hev : ∀ ev∈events, ev.strings⊆S)
    (owned : List (Fin 16) → Bool) (seq : ℕ)
    (hactive : (((new store : LedgerSyncer sha).run events).find seq).map IncrementalSync.hash =
      some ((SHAMap.ofPuts sha puts).rootHash owned).2)
    (nodes : List (Bytes × Bytes)) (hnodes : wireStrings nodes⊆S) :
    let s := (new store : LedgerSyncer sha).run events
    let m := SHAMap.ofPuts sha puts
    (∀ leaves, (s.feedNodes seq nodes).2=.ok (.complete leaves) → m.IsContents leaves) ∧
      (∀ leaves, (s.tryCompleteSync seq).2=.ok (some leaves) → m.IsContents leaves) ∧
      ((∀ str∈m.root.nodeContents,
        ∃ w∈(new store : LedgerSyncer sha).fed events++nodes.map Prod.snd,
          WireForm str w) →
        ∃ leaves, (s.feedNodes seq nodes).2=.ok (.complete leaves)) ∧
      ((∀ str∈m.root.nodeContents, ∃ w∈(new store : LedgerSyncer sha).fed events, WireForm str w) →
        ∃ leaves, (s.tryCompleteSync seq).2=.ok (some leaves)) := by
  intro s m
  obtain ⟨c,ht,hhash,hcontents,hstrings⟩ := SHAMap.exists_target hS hne hM owned
  obtain ⟨e,he,hash_eq⟩ := map_eq_some_iff.mp hactive
  rw [hhash] at hash_eq
  have hinv₀ : Inv S c (new store : LedgerSyncer sha) :=
    ⟨hstore,by simp [MemoOk,new],by simp [new],by simp [new]⟩
  obtain ⟨hinv,-⟩ := run_inv ht hinv₀ hev
  obtain ⟨hinv',hstore',hfeed⟩ := feedNodes_spec ht hinv hnodes he
  obtain ⟨-,hext,-,hadded⟩ := addNodes_spec ht.collisionFree hinv.authentic hnodes
  obtain ⟨-,-,htry⟩ := tryCompleteSync_spec ht hinv he
  refine ⟨fun leaves h => ?_,fun leaves h => ?_,fun hall => ?_,fun hall => ?_⟩
  · rw [(hfeed hash_eq).1 leaves h]
    exact hcontents
  · rw [(htry hash_eq).1 leaves h]
    exact hcontents
  · refine ⟨_,(hfeed hash_eq).2 (ht.stored_of_fetch hinv'.authentic fun str hstr => ?_)⟩
    obtain ⟨w,hw,hform⟩ := hall str (hstrings str hstr)
    obtain ⟨q,hq,rfl⟩ := hform.exists_wirePayload
    rw [hstore']
    rcases mem_append.mp hw with hw | hw
    · obtain ⟨r,hr⟩ := ne_none_iff_exists'.mp (fetch_of_fed ht hinv₀ hev hw hq)
      rw [hext _ r hr]
      simp
    · obtain ⟨node,hmem,rfl⟩ := mem_map.mp hw
      exact hadded _ ⟨node,hmem,q,hq,rfl⟩
  · refine ⟨_,(htry hash_eq).2 (ht.stored_of_fetch hinv.authentic fun str hstr => ?_)⟩
    obtain ⟨w,hw,hform⟩ := hall str (hstrings str hstr)
    obtain ⟨q,hq,rfl⟩ := hform.exists_wirePayload
    exact fetch_of_fed ht hinv₀ hev hw hq

def sampleFork : Fin 16 → Hash256 :=
  Function.update (Function.update (fun _ => .zero) 1
    (SHAMap.sampleSha (LeafKind.accountState.content SHAMap.keyA [0x0A]))) 2
    (SHAMap.sampleSha (LeafKind.accountState.content SHAMap.keyB [0x0B]))

def sampleRoot : Fin 16 → Hash256 :=
  Function.update (fun _ => .zero) 1 (SHAMap.sampleSha (innerContent sampleFork))

def sampleRootWire : Bytes :=
  ([1] : List (Fin 16)).flatMap (fun b => (sampleRoot b).asBytes++[UInt8.ofNat b.val])++[3]

def samplePuts : List (Hash256 × Bytes) := [(SHAMap.keyA,[0x0A]),(SHAMap.keyB,[0x0B])]

def sampleEvents : List Event :=
  [.start 7 (SHAMap.sampleSha (innerContent sampleRoot)),
    .feed 7 [([],sampleRootWire),([],[0xFF,0x09])],
    .getMissing 7]

def sampleNodes : List (Bytes × Bytes) :=
  [([],[0x0B]++SHAMap.keyB.asBytes++[1]),([],sampleRootWire),([],childBytes sampleFork++[2]),
    ([],[0x0A]++SHAMap.keyA.asBytes++[1])]

private theorem wireStrings_subset {nodes : List (Bytes × Bytes)} {l : List Bytes}
    (h : nodes.all (fun node => (wirePayload node.2).all fun q =>
      l.contains (q.1.toBytes++q.2))=true) :
    wireStrings nodes⊆{str | str∈l} := by
  rintro str ⟨node,hmem,q,hq,rfl⟩
  have hnode := all_eq_true.mp h node hmem
  simpa [hq] using hnode

/-- The run of the sample map's nodes completes with its two entries. -/
theorem catch_up_two_entries :
    ∃ leaves,
      (((new fun _ => none : LedgerSyncer SHAMap.sampleSha).run sampleEvents).feedNodes 7
      sampleNodes).2 =
        .ok (.complete leaves) ∧ (SHAMap.ofPuts SHAMap.sampleSha samplePuts).IsContents leaves := by
  have hcontents : (SHAMap.ofPuts SHAMap.sampleSha samplePuts).root.nodeContents =
      [innerContent sampleRoot,innerContent sampleFork,
        LeafKind.accountState.content SHAMap.keyA [0x0A],
        LeafKind.accountState.content SHAMap.keyB [0x0B]] := by decide +kernel
  have hS : CollisionFree SHAMap.sampleSha
      {str | str∈(SHAMap.ofPuts SHAMap.sampleSha samplePuts).root.nodeContents} := by
    rw [hcontents]
    exact CollisionFree.of_list (by decide +kernel) (by decide +kernel)
  have hev : ∀ ev∈sampleEvents, ev.strings ⊆
      {str | str∈(SHAMap.ofPuts SHAMap.sampleSha samplePuts).root.nodeContents} := by
    rw [hcontents]
    intro ev hmem
    simp only [sampleEvents,mem_cons,not_mem_nil,or_false] at hmem
    rcases hmem with rfl | rfl | rfl
    · exact Set.empty_subset _
    · exact wireStrings_subset (by decide +kernel)
    · exact Set.empty_subset _
  have hnodes : wireStrings sampleNodes ⊆
      {str | str∈(SHAMap.ofPuts SHAMap.sampleSha samplePuts).root.nodeContents} := by
    rw [hcontents]
    exact wireStrings_subset (by decide +kernel)
  have hactive : (((new fun _ => none : LedgerSyncer SHAMap.sampleSha).run sampleEvents).find 7).map
      IncrementalSync.hash=some
        ((SHAMap.ofPuts SHAMap.sampleSha samplePuts).rootHash fun _ => true).2 := by
    decide +kernel
  obtain ⟨hsound,-,hcomplete,-⟩ :=
    catch_up_sound_complete SHAMap.sampleSha _ hS samplePuts (by simp [samplePuts])
    (fun _ h => h) (fun _ => none) (fun _ _ h => by cases h) sampleEvents hev (fun _ => true) 7
      hactive
    sampleNodes hnodes
  have hall : ∀ str∈(SHAMap.ofPuts SHAMap.sampleSha samplePuts).root.nodeContents,
      ∃ w∈(new fun _ => none : LedgerSyncer SHAMap.sampleSha).fed sampleEvents++sampleNodes.map
        Prod.snd,
        WireForm str w := by
    rw [hcontents]
    simp only [forall_mem_cons,not_mem_nil,false_implies,implies_true,and_true]
    refine ⟨⟨sampleRootWire,by simp [sampleNodes],?_⟩,
      ⟨childBytes sampleFork++[2],by simp [sampleNodes],.inner _⟩,
      ⟨[0x0A]++SHAMap.keyA.asBytes++[1],by simp [sampleNodes],.leaf _ _⟩,
      ⟨[0x0B]++SHAMap.keyB.asBytes++[1],by simp [sampleNodes],.leaf _ _⟩⟩
    refine .compressedInner sampleRoot [1] (by simp) fun b hb => ?_
    by_contra hne
    rw [mem_singleton] at hne
    exact hb (Function.update_of_ne hne _ _)
  obtain ⟨leaves,hleaves⟩ := hcomplete hall
  exact ⟨leaves,hleaves,hsound leaves hleaves⟩

end LedgerSyncer

end Rxrpl
