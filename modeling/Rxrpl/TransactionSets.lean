import Rxrpl.ConsensusTypes
import Rxrpl.SHAMapHistory
import Rxrpl.SHAMapStore

/-!
# The root of a transaction set

`transaction_set_root` buckets transaction ids by their nibbles. The id of a transaction is the hash
of its leaf, so the buckets hash as the canonical trie of the set, which is the tree that a SHAMap
builds. Where hashes do not collide, the root of a set or a map determines its contents.
-/

namespace Rxrpl

open RadixTrie
open List hiding lookup

variable {sha : Sha512Half} {kind : LeafKind} {S : Set Bytes}

/-! ## Hashes determine tries -/

theorem childBytes_injective : Function.Injective childBytes := by
  intro h h' heq
  funext b
  rw [← bodyHash_childBytes h b,← bodyHash_childBytes h' b]
  simp only [heq]

theorem LeafKind.content_ne_innerContent (kind : LeafKind) (k : Hash256) (v : Bytes)
    (hashes : Fin 16 → Hash256) : kind.content k v≠innerContent hashes := by
  intro h
  cases kind <;> cases (HashPrefix.append_inj h).1

variable {l l' : List Hash256} {t : KeyTrie}

/-- Tries with the same hash are the same if the strings of their nodes do not collide and the
string of a leaf determines the leaf. -/
theorem KeyTrie.eq_of_hash_eq {t' : KeyTrie} (hS : CollisionFree sha S) (ht : t.contents sha kind⊆S)
    (ht' : t'.contents sha kind⊆S)
    (hleaf : ∀ x∈t.toList, ∀ y∈t'.toList, kind.content x.1 x.2=kind.content y.1 y.2 → x=y)
    (h : t.hash sha kind=t'.hash sha kind) : t=t' := by
  induction t generalizing t' with
  | empty =>
    by_contra hne
    rw [hash_eq_content (Ne.symm hne)] at h
    exact hS.ne_zero _ (ht' (content_mem_contents (Ne.symm hne))) h.symm
  | leaf k v =>
    cases t' with
    | empty => exact absurd h (hS.ne_zero _ (ht rfl))
    | leaf k' v' =>
      have hxy := hleaf (k,v) (by simp [toList]) (k',v') (by simp [toList])
        (hS.injOn (ht rfl) (ht' rfl) h)
      cases hxy
      rfl
    | node c' =>
      exact (kind.content_ne_innerContent _ _ _ (hS.injOn (ht rfl) (ht' (.inl rfl)) h)).elim
  | node c ih =>
    cases t' with
    | empty => exact absurd h (hS.ne_zero _ (ht (.inl rfl)))
    | leaf k' v' =>
      exact (kind.content_ne_innerContent _ _ _ (hS.injOn (ht (.inl rfl)) (ht' rfl) h).symm).elim
    | node c' =>
      have hhashes :=
        childBytes_injective (append_cancel_left (hS.injOn (ht (.inl rfl)) (ht' (.inl rfl)) h))
      congr 1
      funext b
      refine ih b (fun s hs => ht (.inr ⟨b,hs⟩)) (fun s hs => ht' (.inr ⟨b,hs⟩))
        (fun x hx y hy => ?_) (congrFun hhashes b)
      exact hleaf x (mem_flatMap.mpr ⟨b,mem_finRange b,hx⟩) y
        (mem_flatMap.mpr ⟨b,mem_finRange b,hy⟩)

/-! ## Sorted ids -/

theorem nodup_sorted (l : List Hash256) : ((sortHashes l).destutter (· ≠ ·)).Nodup := by
  rw [sorted_eq_dedup]
  exact nodup_dedup _

theorem sorted_congr (h : ∀ id, id∈l ↔ id∈l') :
    (sortHashes l).destutter (· ≠ ·)=(sortHashes l').destutter (· ≠ ·) := by
  have hperm : ((sortHashes l).destutter (· ≠ ·)).Perm ((sortHashes l').destutter (· ≠ ·)) := by
    refine (perm_ext_iff_of_nodup (nodup_sorted l) (nodup_sorted l')).mpr fun id => ?_
    rw [mem_sorted,mem_sorted,h]
  rw [sorted_eq_dedup,sorted_eq_dedup] at hperm ⊢
  exact hperm.eq_of_pairwise (fun _ _ _ _ => le_antisymm)
    ((pairwise_sortHashes l).sublist (dedup_sublist _))
    ((pairwise_sortHashes l').sublist (dedup_sublist _))

/-! ## The tree of a set -/

/-- `child_hash` of `transaction_set_root`. -/
def bucketHash (sha : Sha512Half) (fuel : ℕ) : List Hash256 → ℕ → Hash256
  | [], _ => .zero
  | [id], _ => id
  | bucket, depth => idsInnerHash sha fuel bucket depth

theorem idsInnerHash_succ (fuel : ℕ) (ids : List Hash256) (depth : ℕ) :
    idsInnerHash sha (fuel+1) ids depth =
    sha (innerContent fun b =>
      bucketHash sha fuel (ids.filter fun id => selectBranch id depth == b) (depth+1)) := by
  rw [idsInnerHash]
  congr 2
  funext b
  obtain _ | ⟨a,_ | ⟨a',l⟩⟩ := ids.filter fun id => selectBranch id depth == b <;> rfl

variable {blob : Hash256 → Bytes} {c : Fin 16 → KeyTrie} {l : List Hash256} {p : List (Fin 16)}

def blobMap (blob : Hash256 → Bytes) (l : List Hash256) (id : Hash256) : Option Bytes :=
    if id∈l then some (blob id) else none

theorem lookup_bucket (hc : ∀ b, Canonical selectBranch (p++[b]) (c b))
    (hl : ∀ k, lookup selectBranch k p.length (.node c)=blobMap blob l k) (b : Fin 16)
      (k : Hash256) :
    lookup selectBranch k (p++[b]).length (c b)=blobMap blob
      (l.filter fun id => selectBranch id p.length == b) k := by
  rw [length_append,length_singleton]
  by_cases hb : selectBranch k p.length=b
  · have := hl k
    rw [lookup_node,hb] at this
    simp [this,blobMap,hb]
  · have hnone : lookup selectBranch k (p++[b]).length (c b)=none := by
      by_contra hne
      obtain ⟨v,hv⟩ := Option.ne_none_iff_exists'.mp hne
      have hp := (hc b).path_eq hv
      rw [length_append,length_singleton] at hp
      exact hb (path_succ_eq_iff.mp hp).2
    rw [length_append,length_singleton] at hnone
    simp [hnone,blobMap,hb]

theorem hash_eq_bucketHash (ht : Canonical selectBranch p t) (hnodup : l.Nodup)
    (hl : ∀ k, lookup selectBranch k p.length t=blobMap blob l k)
    (hid : ∀ id∈l, id=sha (LeafKind.transactionNoMeta.content id (blob id))) {fuel : ℕ}
    (hfuel : fuel+p.length=65) : t.hash sha .transactionNoMeta=bucketHash sha fuel l p.length := by
  induction t generalizing p l fuel with
  | empty =>
    have hnil : l=[] := by
      refine eq_nil_iff_forall_not_mem.mpr fun k hk => ?_
      simpa [lookup,blobMap,hk] using hl k
    rw [hnil]
    rfl
  | leaf k v =>
    have hmem : ∀ k', k'∈l ↔ k=k' := by
      intro k'
      have := hl k'
      by_cases hk : k=k' <;> by_cases hk' : k'∈l <;> simp [lookup,blobMap,hk,hk'] at this ⊢
    have hv : v=blob k := by simpa [lookup,blobMap,(hmem k).mpr rfl] using hl k
    have hone : l=[k] := by
      obtain _ | ⟨a,_ | ⟨b,l⟩⟩ := l
      · simpa using (hmem k).mpr rfl
      · rw [(hmem a).mp (by simp)]
      · have ha := (hmem a).mp (by simp)
        have hb := (hmem b).mp (by simp)
        simp [← ha,← hb] at hnodup
    subst hone hv
    exact (hid k (by simp)).symm
  | node c ih =>
    obtain ⟨k,v,k',v',hne,hk,hk'⟩ := ht.exists_keys.2 c rfl
    have hlen := ht.length_lt selectBranch_separates
    obtain ⟨fuel,rfl⟩ : ∃ n, fuel=n+1 := ⟨fuel-1,by omega⟩
    have hbucket : bucketHash sha (fuel+1) l p.length=idsInnerHash sha (fuel+1) l p.length := by
      obtain _ | ⟨a,_ | ⟨b,l⟩⟩ := l
      · simp [hl k,blobMap] at hk
      · simp only [hl,blobMap,mem_singleton,Option.ite_none_right_eq_some] at hk hk'
        exact absurd (hk.1.trans hk'.1.symm) hne
      · rfl
    rw [hbucket,idsInnerHash_succ,KeyTrie.hash]
    congr 2
    funext b
    have := ih b (ht.1 b) (hnodup.filter _) (lookup_bucket ht.1 hl b)
      (fun id h => hid id (mem_filter.mp h).1) (show fuel+(p++[b]).length=65 by simp; omega)
    rwa [length_append,length_singleton] at this

/-- `SHAMap::transaction` after `put(id, blob)` for the ids in this order. -/
def txTree (sha : Sha512Half) (blob : Hash256 → Bytes) (order : List Hash256) : SHAMap sha :=
  (SHAMap.new .transactionNoMeta none).run (order.map fun id => .put id (blob id))

theorem specRun_puts (f : Hash256 → Option Bytes) (k : Hash256) :
    SHAMap.specRun f (l.map fun id => SHAMap.Call.put id (blob id)) k =
      (blobMap blob l k).or (f k) := by
  induction l generalizing f with
  | nil => rfl
  | cons id l ih =>
    refine (ih _).trans ?_
    by_cases hk : k=id
    · subst hk
      by_cases hl : k∈l <;> simp [SHAMap.Call.spec,blobMap,hl]
    · simp [SHAMap.Call.spec,blobMap,hk]

theorem represents_txTree (sha : Sha512Half) (blob : Hash256 → Bytes) (order : List Hash256) :
    (txTree sha blob order).kind=.transactionNoMeta ∧
      ∃ c, SHAMap.Represents (fun _ => False) c (txTree sha blob order) ∧
        KeyTrie.find c=blobMap blob order := by
  have hputs : ∀ key data, SHAMap.Call.insert key data∉order.map fun id =>
    SHAMap.Call.put id (blob id) := by simp
  obtain ⟨x,c,hx,hrep,hfind⟩ :=
    (SHAMap.represents_new .transactionNoMeta none).run_eq_spec (by simp [SHAMap.new]) hputs
  rw [txTree,hx]
  refine ⟨rfl,c,hrep,hfind.trans ?_⟩
  funext k
  exact (specRun_puts _ k).trans Option.or_none

theorem rootHash_eq_transactionSetRoot (hc : CanonicalRoot c)
    (hfind : KeyTrie.find c=blobMap blob l)
    (hid : ∀ id∈l, id=sha (LeafKind.transactionNoMeta.content id (blob id))) :
    KeyTrie.rootHash sha .transactionNoMeta c=transactionSetRoot sha l := by
  have hlookup : ∀ k, lookup selectBranch k ([] : List (Fin 16)).length (.node c) =
      blobMap blob ((sortHashes l).destutter (· ≠ ·)) k := by
    intro k
    refine (congrFun hfind k).trans ?_
    simp only [blobMap,mem_sorted]
  have hnode : KeyTrie.hash sha .transactionNoMeta (.node c) =
      idsInnerHash sha 65 ((sortHashes l).destutter (· ≠ ·)) 0 := by
    rw [idsInnerHash_succ,KeyTrie.hash]
    congr 2
    funext b
    exact hash_eq_bucketHash (p := [b]) (hc b) ((nodup_sorted l).filter _)
      (lookup_bucket (p := []) hc hlookup b)
      (fun id h => hid id (mem_sorted.mp (mem_filter.mp h).1)) rfl
  rw [KeyTrie.rootHash,transactionSetRoot,hnode]
  have hnil : support c=[] ↔ l=[] := by
    rw [KeyTrie.support_eq_nil_iff hc,hfind,eq_nil_iff_forall_not_mem]
    simp [blobMap]
  split <;> rename_i hs
  · rw [hnil.mp hs]
    rfl
  split <;> rename_i hsorted
  · refine absurd (hnil.mpr (eq_nil_iff_forall_not_mem.mpr fun id hid' => ?_)) hs
    simpa [hsorted] using mem_sorted.mpr hid'
  · rfl

theorem rootHash_txTree (hid : ∀ id∈l, id=sha (LeafKind.transactionNoMeta.content id (blob id)))
    (owned : List (Fin 16) → Bool) :
      ((txTree sha blob l).rootHash owned).2=transactionSetRoot sha l := by
  obtain ⟨hkind,c,hrep,hfind⟩ := represents_txTree sha blob l
  rw [hrep.rootHash_eq,hkind,rootHash_eq_transactionSetRoot hrep.canonical hfind hid]

theorem transactionSetRoot_congr (h : ∀ id, id∈l ↔ id∈l') :
    transactionSetRoot sha l=transactionSetRoot sha l' := by
  rw [transactionSetRoot,transactionSetRoot,sorted_congr h]

theorem SHAMap.Represents.contents_subset {m : SHAMap sha}
    (h : SHAMap.Represents (fun _ => False) c m) (hc : support c≠[])
    (hm : ∀ str∈m.root.nodeContents, str∈S) : KeyTrie.contents sha m.kind (.node c)⊆S := by
  obtain ⟨n,hroot,hn⟩ := h.root
  rw [hroot] at hm
  exact fun str hstr => hm str
    ((hn.mem_nodeContents hc fun b x hx => hx.mem_nodeContents (h.canonical b)).mpr hstr)

theorem rootHash_ne_zero (hS : CollisionFree sha S) (hc : support c≠[])
    (h : KeyTrie.contents sha kind (.node c)⊆S) : KeyTrie.rootHash sha kind c≠.zero := by
  rw [KeyTrie.rootHash,if_neg hc,KeyTrie.hash_eq_content (by simp)]
  exact hS.ne_zero _ (h (KeyTrie.content_mem_contents (by simp)))

theorem KeyTrie.eq_of_rootHash_eq {c' : Fin 16 → KeyTrie} (hS : CollisionFree sha S)
    (hc : support c≠[] → contents sha kind (.node c)⊆S)
    (hc' : support c'≠[] → contents sha kind (.node c')⊆S)
    (hleaf : ∀ x∈(node c).toList, ∀ y∈(node c').toList, kind.content x.1 x.2=kind.content y.1 y.2 →
      x=y)
    (h : rootHash sha kind c=rootHash sha kind c') : c=c' := by
  by_cases hs : support c=[] <;> by_cases hs' : support c'=[]
  · have hempty : ∀ {c : Fin 16 → KeyTrie}, support c=[] → ∀ b, c b=.empty := by
      intro c hc b
      by_contra hb
      simpa [hc] using mem_support.mpr hb
    funext b
    rw [hempty hs b,hempty hs' b]
  -- only one of the trees is empty: its root is zero
  · exact absurd (h.symm.trans (if_pos hs)) (rootHash_ne_zero hS hs' (hc' hs'))
  · exact absurd (h.trans (if_pos hs')) (rootHash_ne_zero hS hs (hc hs))
  rw [rootHash,rootHash,if_neg hs,if_neg hs'] at h
  exact RadixTrie.node.inj (eq_of_hash_eq hS (hc hs) (hc' hs') hleaf h)

/-- The root determines the ids, where the strings of the nodes of the two trees do not collide. -/
theorem mem_iff_of_transactionSetRoot_eq (hS : CollisionFree sha S)
    (hid : ∀ id∈l++l', id=sha (LeafKind.transactionNoMeta.content id (blob id)))
    (hl : ∀ str∈(txTree sha blob l).root.nodeContents, str∈S)
    (hl' : ∀ str∈(txTree sha blob l').root.nodeContents, str∈S)
    (h : transactionSetRoot sha l=transactionSetRoot sha l') (id : Hash256) : id∈l ↔ id∈l' := by
  obtain ⟨hkind,c,hrep,hfind⟩ := represents_txTree sha blob l
  obtain ⟨hkind',c',hrep',hfind'⟩ := represents_txTree sha blob l'
  rw [← rootHash_eq_transactionSetRoot hrep.canonical hfind fun id hl =>
    hid id (mem_append_left _ hl),
    ← rootHash_eq_transactionSetRoot hrep'.canonical hfind' fun id hl =>
      hid id (mem_append_right _ hl)] at h
  have hmem : ∀ {l id}, id∈l ↔ blobMap blob l id≠none := by simp [blobMap]
  suffices hcc : c=c' by rw [hmem,← hfind,hcc,hfind',← hmem]
  have hleaf : ∀ {c l}, CanonicalRoot c → KeyTrie.find c=blobMap blob l →
      ∀ x∈(RadixTrie.node c).toList, x.1∈l ∧ x.2=blob x.1 := by
    intro c l hc hf x hx
    have := (KeyTrie.mem_toList_iff hc).mp hx
    rw [hf,blobMap,Option.ite_none_right_eq_some] at this
    exact ⟨this.1,(Option.some.inj this.2).symm⟩
  refine KeyTrie.eq_of_rootHash_eq hS (fun hs => hkind ▸ hrep.contents_subset hs hl)
    (fun hs => hkind' ▸ hrep'.contents_subset hs hl') (fun x hx y hy hxy => ?_) h
  obtain ⟨hx,hxb⟩ := hleaf hrep.canonical hfind x hx
  obtain ⟨hy,hyb⟩ := hleaf hrep'.canonical hfind' y hy
  have hkey : x.1=y.1 := by
    rw [hid x.1 (mem_append_left _ hx),hid y.1 (mem_append_right _ hy),← hxb,← hyb,hxy]
  exact Prod.ext hkey (by rw [hxb,hyb,hkey])

namespace SHAMap

/-- **The root hash commits to the entries.** Runs on empty maps whose leaves hash their keys end
with the same entries if their root hashes agree and their nodes do not collide. -/
theorem root_determines_entries {m m' : SHAMap sha} {calls calls' : List Call}
    (hm : m=(new kind none).run calls) (hm' : m'=(new kind none).run calls')
    (hkind : kind≠.transactionNoMeta)
    (hS : CollisionFree sha {str | str∈m.root.nodeContents ∨ str∈m'.root.nodeContents})
    (owned owned' : List (Fin 16) → Bool) (h : (m.rootHash owned).2=(m'.rootHash owned').2)
    (key : Hash256) : m.get key=m'.get key := by
  obtain ⟨x,c,hx,hrep⟩ := (represents_new kind none).run_eq (by simp [new]) calls
  obtain ⟨x',c',hx',hrep'⟩ := (represents_new kind none).run_eq (by simp [new]) calls'
  obtain rfl := hm.trans hx
  obtain rfl := hm'.trans hx'
  suffices hcc : c=c' by rw [hrep.get_eq,hrep'.get_eq,hcc]
  rw [hrep.rootHash_eq,hrep'.rootHash_eq] at h
  refine KeyTrie.eq_of_rootHash_eq hS (fun hs => hrep.contents_subset hs fun _ => .inl)
    (fun hs => hrep'.contents_subset hs fun _ => .inr) (fun x _ y _ hxy => ?_) h
  cases kind with
  | transactionNoMeta => exact absurd rfl hkind
  | accountState | transactionWithMeta =>
    obtain ⟨hdata,hkey⟩ := append_inj' (HashPrefix.append_inj hxy).2 (by simp)
    exact Prod.ext (Hash256.ext hkey) hdata

theorem root_determines_two_orders :
    ((new .accountState none : SHAMap sampleSha).run [.put keyA [0x0A],.put keyB [0x0B]]).get
      keyA =
      ((new .accountState none : SHAMap sampleSha).run [.put keyB [0x0B],.put keyA [0x0A]]).get
        keyA := by
  refine root_determines_entries rfl rfl (by decide) ?_ (fun _ => true) (fun _ => true)
    (by decide +kernel) keyA
  simp only [← mem_append]
  exact CollisionFree.of_list (by decide +kernel) (by decide +kernel)

end SHAMap

namespace Consensus

theorem TxSet.hash_new (ids : List Hash256) : (TxSet.new sha ids).hash=transactionSetRoot sha ids :=
  transactionSetRoot_congr fun _ => mem_sorted

/-- Where every id is the hash of its transaction, `transaction_set_root` is the root hash of the
real tree, whatever the order of the ids. The hash of a `TxSet` does not depend on the order of the
ids either, and it determines them if the nodes of the two trees do not collide. -/
theorem transaction_set_root_real_tree {ids : List Hash256}
    (hids : ∀ id∈ids, id=sha (LeafKind.transactionNoMeta.content id (blob id))) :
    (∀ order, (∀ id, id∈order ↔ id∈ids) → ∀ owned,
      ((txTree sha blob order).rootHash owned).2=transactionSetRoot sha ids) ∧
    (∀ ids' : List Hash256, ids'.Perm ids → (TxSet.new sha ids').hash=(TxSet.new sha ids).hash) ∧
    (∀ ids' : List Hash256, (∀ id∈ids', id=sha (LeafKind.transactionNoMeta.content id (blob id))) →
      CollisionFree sha {str | str∈(txTree sha blob ids).root.nodeContents ∨
        str∈(txTree sha blob ids').root.nodeContents} →
      (TxSet.new sha ids).hash=(TxSet.new sha ids').hash →
        ∀ id, id∈(TxSet.new sha ids).txs ↔ id∈(TxSet.new sha ids').txs) := by
  refine ⟨fun order horder owned => ?_,fun ids' hperm => ?_,fun ids' hids' hS hhash id => ?_⟩
  · rw [rootHash_txTree (fun id hid => hids id ((horder id).mp hid)),
      transactionSetRoot_congr horder]
  · rw [TxSet.hash_new,TxSet.hash_new,transactionSetRoot_congr fun _ => hperm.mem_iff]
  rw [TxSet.hash_new,TxSet.hash_new] at hhash
  have := mem_iff_of_transactionSetRoot_eq hS
    (fun id hid => (mem_append.mp hid).elim (hids id) (hids' id))
    (fun str hstr => .inl hstr) (fun str hstr => .inr hstr) hhash id
  exact mem_sorted.trans (this.trans mem_sorted.symm)

/-- Two transactions whose ids share a nibble. -/
def pairSha : Sha512Half :=
  let fork := Function.update (Function.update (fun _ => .zero) 1 SHAMap.keyA) 2 SHAMap.keyB
  .ofTable [(LeafKind.transactionNoMeta.content .zero [1],SHAMap.keyA),
    (LeafKind.transactionNoMeta.content .zero [2],SHAMap.keyB),(innerContent fork,.ofNat 3),
    (innerContent (Function.update (fun _ => .zero) 1 (.ofNat 3)),.ofNat 4)]

def pairBlob (id : Hash256) : Bytes := if id=SHAMap.keyA then [1] else [2]

theorem transaction_set_root_two_orders :
    ((txTree pairSha pairBlob [SHAMap.keyB,SHAMap.keyA]).rootHash fun _ => true).2 =
        transactionSetRoot pairSha [SHAMap.keyA,SHAMap.keyB,SHAMap.keyA] ∧
      ∀ id, id∈(TxSet.new pairSha [SHAMap.keyA,SHAMap.keyB,SHAMap.keyA]).txs ↔
        id∈(TxSet.new pairSha [SHAMap.keyB,SHAMap.keyA]).txs := by
  have hids : ∀ id∈[SHAMap.keyA,SHAMap.keyB,SHAMap.keyA],
      id=pairSha (LeafKind.transactionNoMeta.content id (pairBlob id)) := by decide
  obtain ⟨htree,-,hinj⟩ := transaction_set_root_real_tree hids
  refine ⟨htree _ (by simp [or_comm]) _,hinj _ (by decide +kernel) ?_ (by decide +kernel)⟩
  simp only [← mem_append]
  exact CollisionFree.of_list (by decide +kernel) (by decide +kernel)

end Consensus

end Rxrpl
