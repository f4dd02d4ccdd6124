import Rxrpl.SHAMapStore
import Rxrpl.SHAMapAtomicity

/-!
# Flushing and reopening

`flush` writes the records of the nodes in memory. The invariant says that every other
node is stored with all that is below it. Records are never lost, since a record written
under a hash that is in use is the record that is already there. So a flushed root can
be reopened at any time.
-/

namespace Rxrpl

open RadixTrie List

variable {sha : Sha512Half} {S : Set Bytes} {kind : LeafKind} {away away' : KeyTrie → Prop}

/-! ## Reads that load -/

def InnerNode.setCell {ν : Type} (n : InnerNode ν) (b : Fin 16) (x : ν) : InnerNode ν :=
  { n with children := Function.update n.children b (some x) }

namespace SHAMap

/-- The cells that a lookup fills: `child_with_store` keeps the child it has loaded. -/
def touchPath (store : Option NodeStore) (kind : LeafKind) (key : Hash256) :
    ℕ → ℕ → InnerNode (SHAMapNode sha) → InnerNode (SHAMapNode sha)
  | 0, _, n => n
  | fuel+1, depth, n =>
    let branch := selectBranch key depth
    match n.ensureLoaded branch store kind with
    | .error _ => n
    | .ok n => match n.children branch with
      | some (.inner i) => n.setCell branch (.inner (touchPath store kind key fuel (depth+1) i))
      | _ => n

def touch (m : SHAMap sha) (key : Hash256) : SHAMap sha :=
  match m.root with
  | .inner n => { m with root := .inner (touchPath m.store m.kind key 256 0 n) }
  | .leaf _ => m

end SHAMap

variable {b : Fin 16} {c : Fin 16 → KeyTrie} {n : InnerNode (SHAMapNode sha)} {p : List (Fin 16)}
  {s : NodeStore} {t : KeyTrie} {x : SHAMapNode sha}

theorem RepInner.update_cell (hr : RepInner kind away c n) (hb : c b≠.empty)
    (hx : RepNode kind away (c b) x) : RepInner kind away c (n.setCell b x) := by
  refine ⟨hr.1,fun b' => ?_⟩
  by_cases h : b'=b
  · subst h
    obtain ⟨hbr,hh,-⟩ := (repSlot_iff hb).mp (hr.2 b')
    exact (repSlot_iff hb).mpr ⟨hbr,hh,Or.inl ⟨x,by simp [InnerNode.setCell],hx⟩⟩
  · simpa [InnerNode.setCell,h] using hr.2 b'

theorem RepInner.touchPath {store : Option NodeStore} (hL : Loadable sha kind away store)
    {key : Hash256} {fuel depth : ℕ} (hr : RepInner kind away c n) :
    RepInner kind away c (SHAMap.touchPath store kind key fuel depth n) := by
  induction fuel generalizing depth c n with
  | zero => exact hr
  | succ fuel ih =>
    rw [SHAMap.touchPath]
    by_cases hb : c (selectBranch key depth)=.empty
    · have hbr : n.isBranch (selectBranch key depth)=false := by simp [hr.isBranch_eq,hb]
      have hslot := hr.2 (selectBranch key depth)
      rw [hb] at hslot
      simpa [InnerNode.ensureLoaded,hbr,hslot.2.2] using hr
    · obtain ⟨n₁,x,hload,hx,hrep,hr₁⟩ := hr.exists_loaded hL hb
      simp only [hload,hx]
      cases hc : c (selectBranch key depth) with
      | empty => exact absurd hc hb
      | leaf k v =>
        rw [hc] at hrep
        cases hrep
        exact hr₁
      | node c' =>
        rw [hc] at hrep
        obtain ⟨i,rfl,hi⟩ := hrep
        refine hr₁.update_cell hb ?_
        rw [hc]
        exact ⟨_,rfl,ih hi⟩

/-! ## More places to load from -/

theorem RepSlot.mono (ha : ∀ t, away t → away' t) {present : Bool} {h : Hash256}
    {cell : Option (SHAMapNode sha)} (hr : RepSlot kind away t present h cell) :
    RepSlot kind away' t present h cell := by
  induction t generalizing present h cell with
  | empty => exact hr
  | leaf k v => exact ⟨hr.1,hr.2.1,hr.2.2.imp id fun hn => ⟨hn.1,ha _ hn.2⟩⟩
  | node c ih =>
    refine ⟨hr.1,hr.2.1,hr.2.2.imp ?_ fun hn => ⟨hn.1,ha _ hn.2⟩⟩
    rintro ⟨n,hcell,hcache,hslots⟩
    exact ⟨n,hcell,hcache,fun b => ih b (hslots b)⟩

theorem RepInner.mono (ha : ∀ t, away t → away' t) (hr : RepInner kind away c n) :
    RepInner kind away' c n :=
  ⟨hr.1,fun b => (hr.2 b).mono ha⟩

/-! ## What a flush writes -/

/-- A pair of a hash and a record that belongs to a node, one of those that hash the
given strings. -/
def IsNodeRecord (sha : Sha512Half) (kind : LeafKind) (strings : List Bytes) (e : Hash256 × Bytes) :
    Prop :=
  ∃ t : KeyTrie, t≠.empty ∧ e=(t.hash sha kind,t.record sha kind) ∧ t.content sha kind∈strings

theorem mem_cellContents {hashes : Fin 16 → Hash256} {children : Fin 16 → Option (SHAMapNode sha)}
    {isBranch : Fin 16 → Bool} {hash : Hash256} (hx : children b=some x) {str : Bytes}
    (hstr : str∈x.nodeContents) :
    str∈(SHAMapNode.inner ⟨hashes,children,isBranch,hash⟩).nodeContents := by
  rw [SHAMapNode.nodeContents,mem_append,mem_flatMap]
  exact Or.inr ⟨b,mem_finRange b,by rwa [hx,SHAMapNode.cellContents]⟩

/-- The step of the induction below, for an inner node whose children are in order. -/
private theorem collectDirtyNodes_inner (hr : RepInner kind away c n) (hc : support c≠[])
    (hchild : ∀ b (x : SHAMapNode sha), RepNode kind away (c b) x → ∀ e∈SHAMap.collectDirtyNodes x,
      IsNodeRecord sha kind x.nodeContents e) :
    ∀ e∈SHAMap.collectDirtyNodes (.inner n),
      IsNodeRecord sha kind (SHAMapNode.inner n).nodeContents e := by
  have hany := hr.any_isBranch hc
  have hhashes := hr.hashes_eq
  have hhash := hr.getHash_eq hc
  have hslots := hr.2
  obtain ⟨hashes,children,isBranch,hash⟩ := n
  simp only at hany hhashes hslots
  intro e he
  rw [SHAMap.collectDirtyNodes,mem_append,mem_flatMap] at he
  rcases he with he | ⟨b,-,he⟩
  · split at he
    · simp at he
    · rw [mem_singleton,hhash] at he
      refine ⟨.node c,by simp,by rw [he,KeyTrie.record,hhashes],?_⟩
      rw [KeyTrie.content,← hhashes,SHAMapNode.nodeContents,if_pos hany]
      exact mem_cons_self
  · by_cases hb : c b=.empty
    · have hslot := hslots b
      rw [hb] at hslot
      simp [hslot.2.2,SHAMap.collectCell] at he
    · obtain ⟨-,-,⟨x,hx,hrep⟩ | ⟨hnone,-⟩⟩ := (repSlot_iff hb).mp (hslots b)
      · rw [hx,SHAMap.collectCell] at he
        obtain ⟨t,ht,rfl,hstr⟩ := hchild b x hrep e he
        exact ⟨t,ht,rfl,mem_cellContents hx hstr⟩
      · simp [hnone,SHAMap.collectCell] at he

theorem RepNode.collectDirtyNodes (hr : RepNode kind away t x) (ht : Canonical selectBranch p t) :
    ∀ e∈SHAMap.collectDirtyNodes x, IsNodeRecord sha kind x.nodeContents e := by
  induction t generalizing x p with
  | empty => exact hr.elim
  | leaf k v =>
    cases hr
    intro e he
    rw [SHAMap.collectDirtyNodes,mem_singleton] at he
    exact ⟨.leaf k v,by simp,he,by simp [SHAMapNode.nodeContents,KeyTrie.content]⟩
  | node c ih =>
    obtain ⟨n,rfl,hn⟩ := hr
    exact collectDirtyNodes_inner hn (support_ne_nil_of_branching ht.2) fun b x hx =>
      ih b hx (ht.1 b)

/-- A store with the records of all nodes in memory, and with what is away, has it all. -/
private theorem inStore_inner (hr : RepInner kind away c n) (hc : support c≠[])
    (haway : ∀ t, away t → t.InStore sha kind s)
    (hrec : ∀ e∈SHAMap.collectDirtyNodes (.inner n), s e.1=some e.2)
    (hz : ∀ str∈(SHAMapNode.inner n).nodeContents, sha str≠.zero)
    (hchild : ∀ b (x : SHAMapNode sha), RepNode kind away (c b) x →
      (∀ e∈SHAMap.collectDirtyNodes x, s e.1=some e.2) → (∀ str∈x.nodeContents, sha str≠.zero) →
        (c b).InStore sha kind s) : KeyTrie.InStore sha kind s (.node c) := by
  have hany := hr.any_isBranch hc
  have hhashes := hr.hashes_eq
  have hhash := hr.getHash_eq hc
  have hslots := hr.2
  have hbr := hr.isBranch_eq
  obtain ⟨hashes,children,isBranch,hash⟩ := n
  simp only at hany hhashes hslots hbr
  have hne : KeyTrie.hash sha kind (.node c)≠.zero := by
    refine hz _ ?_
    rw [SHAMapNode.nodeContents,if_pos hany,hhashes]
    exact mem_cons_self
  have hmem : ∀ e, e∈SHAMap.collectDirtyNodes (.inner ⟨hashes,children,isBranch,hash⟩) ↔
      e=(KeyTrie.hash sha kind (.node c),serializeInner hashes) ∨
        ∃ b, isBranch b=true ∧ e∈SHAMap.collectCell (children b) := by
    intro e
    rw [SHAMap.collectDirtyNodes,hhash,if_neg (by rwa [Hash256.isZero_iff])]
    simp
  refine ⟨hne,?_,fun b => ?_⟩
  · have h := hrec _ ((hmem _).mpr (Or.inl rfl))
    rwa [hhashes] at h
  by_cases hb : c b=.empty
  · rw [hb]
    trivial
  obtain ⟨hbranch,-,⟨x,hx,hrep⟩ | ⟨-,hb'⟩⟩ := (repSlot_iff hb).mp (hslots b)
  · refine hchild b x hrep (fun e he => hrec e ((hmem e).mpr (Or.inr ⟨b,hbranch,?_⟩)))
      fun str hstr => hz str (mem_cellContents hx hstr)
    rwa [hx,SHAMap.collectCell]
  · exact haway _ hb'

theorem RepNode.inStore (hr : RepNode kind away t x) (ht : Canonical selectBranch p t)
    (haway : ∀ t, away t → t.InStore sha kind s)
    (hrec : ∀ e∈SHAMap.collectDirtyNodes x, s e.1=some e.2)
    (hz : ∀ str∈x.nodeContents, sha str≠.zero) : t.InStore sha kind s := by
  induction t generalizing x p with
  | empty => exact hr.elim
  | leaf k v =>
    cases hr
    exact ⟨hz _ (by simp [SHAMapNode.nodeContents]),hrec (_,_) (mem_singleton.mpr rfl)⟩
  | node c ih =>
    obtain ⟨n,rfl,hn⟩ := hr
    exact inStore_inner hn (support_ne_nil_of_branching ht.2) haway hrec hz fun b x hx =>
      ih b hx (ht.1 b)

theorem Authentic.storeBatch (hs : Authentic sha S s) (hS : CollisionFree sha S)
    {entries : List (Hash256 × Bytes)}
    (he : ∀ e∈entries, ∃ str∈S, sha str=e.1 ∧ Describes sha str e.2) :
    Authentic sha S (s.storeBatch entries) ∧ (s.storeBatch entries).Extends s ∧
      ∀ e∈entries, s.storeBatch entries e.1=some e.2 := by
  induction entries generalizing s with
  | nil => exact ⟨hs,fun _ _ h => h,by simp⟩
  | cons e entries ih =>
    obtain ⟨str,hstr,hsha,hdesc⟩ := he e (by simp)
    have hs' := hs.update hstr hdesc
    have hext' := hs.extends_update hS hstr hdesc
    rw [hsha] at hs' hext'
    obtain ⟨ha,hext,hall⟩ := ih hs' fun e' hmem => he e' (by simp [hmem])
    refine ⟨ha,fun q r hr => hext q r (hext' q r hr),fun e' hmem => ?_⟩
    rcases mem_cons.mp hmem with rfl | hmem
    · exact hext _ _ (Function.update_self ..)
    · exact hall e' hmem

namespace SHAMap

/-- An account-state map over an authentic store, each node of which is in memory or in
the store. -/
structure Backed (S : Set Bytes) (s : NodeStore) (c : Fin 16 → KeyTrie) (m : SHAMap sha) :
    Prop where
  kind_eq : m.kind=.accountState
  store_eq : m.store=some s
  state_ne : m.state≠.immutable
  authentic : Authentic sha S s
  represents : Represents (KeyTrie.InStore sha .accountState s) c m

variable {s : NodeStore} {c : Fin 16 → KeyTrie} {m : SHAMap sha}

theorem backed_new (hs : Authentic sha S s) :
    Backed S s (fun _ => .empty) (new .accountState (some s) : SHAMap sha) :=
  ⟨rfl,rfl,by
    simp [new],hs,⟨_,rfl,RepInner.new⟩,fun _ => trivial,loadable_inStore sha .accountState s⟩

theorem Backed.call (h : Backed S s c m) (a : Call) : ∃ c', Backed S s c' (m.call a).1 := by
  obtain ⟨x,hx,hrep⟩ := h.represents.call_eq h.state_ne a
  rw [hx]
  exact ⟨_,h.kind_eq,h.store_eq,h.state_ne,h.authentic,hrep⟩

theorem Backed.touch (h : Backed S s c m) (key : Hash256) : Backed S s c (m.touch key) := by
  obtain ⟨n,hroot,hn⟩ := h.represents.root
  have htouch : m.touch key={ m with root := .inner (touchPath m.store m.kind key 256 0 n) } := by
    simp only [SHAMap.touch,hroot]
  rw [htouch]
  exact ⟨h.kind_eq,h.store_eq,h.state_ne,h.authentic,⟨_,rfl,hn.touchPath h.represents.loadable⟩,
    h.represents.canonical,h.represents.loadable⟩

theorem Backed.flush (hS : CollisionFree sha S) (h : Backed S s c m) (owned : List (Fin 16) → Bool)
    (hstr : ∀ str∈(m.flush owned).1.root.nodeContents, str∈S) :
    ∃ s', Backed S s' c (m.flush owned).1 ∧ s'.Extends s ∧
      (m.flush owned).2=KeyTrie.rootHash sha .accountState c ∧
      (support c≠[] → KeyTrie.InStore sha .accountState s' (.node c)) := by
  obtain ⟨n,hroot,hn⟩ := h.represents.root
  obtain ⟨n',hn',hrep,hhash⟩ := updateHashes_root hn owned
  have hcan := h.represents.canonical
  rw [h.kind_eq] at hrep hhash
  have hflush : m.flush owned=({ m with
      root := .inner n'
      store := some (s.storeBatch (collectDirtyNodes (.inner n'))) },n'.getHash sha) := by
    simp only [SHAMap.flush,hroot,hn',h.store_eq]
    rfl
  rw [hflush] at hstr ⊢
  -- an empty map writes nothing
  have hentries : ∀ e∈collectDirtyNodes (.inner n'), ∃ str∈S, sha str=e.1 ∧
    Describes sha str e.2 := by
    intro e he
    by_cases hs : support c=[]
    · have hdirty : collectDirtyNodes (.inner n')=[] := by
        have hbr : n'.branches=[] := by rw [hrep.branches_eq,hs]
        rw [KeyTrie.rootHash,if_pos hs] at hhash
        obtain ⟨hashes,children,isBranch,hash⟩ := n'
        simp only [InnerNode.branches] at hbr
        rw [collectDirtyNodes,hhash,hbr]
        rfl
      simp [hdirty] at he
    · obtain ⟨t,ht,rfl,hmem⟩ :=
        collectDirtyNodes_inner hrep hs (fun b x hx => hx.collectDirtyNodes (hcan b)) e he
      exact ⟨_,hstr _ hmem,(KeyTrie.hash_eq_content ht).symm,KeyTrie.describes ht⟩
  obtain ⟨hauth,hext,hrec⟩ := h.authentic.storeBatch hS hentries
  have hmono : ∀ t : KeyTrie, t.InStore sha .accountState s →
      t.InStore sha .accountState (s.storeBatch (collectDirtyNodes (.inner n'))) := fun t ht =>
        ht.mono hext
  refine ⟨_,⟨h.kind_eq,rfl,h.state_ne,hauth,?_,hcan,?_⟩,hext,hhash,fun hs => ?_⟩
  · rw [h.kind_eq]
    exact ⟨n',rfl,hrep.mono hmono⟩
  · rw [h.kind_eq]
    exact loadable_inStore sha .accountState _
  · have hz : ∀ str∈(SHAMapNode.inner n').nodeContents, sha str≠.zero := fun str hmem =>
      hS.ne_zero str (hstr str hmem)
    exact inStore_inner hrep hs hmono hrec hz fun b x hx hrec' hz' =>
      hx.inStore (hcan b) hmono hrec' hz'

theorem exists_fromRootHash (hs : Authentic sha S s) (hcan : CanonicalRoot c)
    (hst : KeyTrie.InStore sha .accountState s (.node c)) :
    ∃ m : SHAMap sha, fromRootHash (KeyTrie.hash sha .accountState (.node c)) .accountState s =
      .ok m ∧
      Backed S s c m := by
  have hopen : fromRootHash (KeyTrie.hash sha .accountState (.node c)) .accountState s =
      .ok
        (⟨.inner
        (.shell (fun b => (c b).hash sha .accountState) (KeyTrie.hash sha .accountState (.node c))),
        .modifying,.accountState,some s⟩ : SHAMap sha) := by
    simp only [fromRootHash,hst.2.1,KeyTrie.record,deserializeNode_inner]
    rfl
  exact ⟨_,hopen,rfl,rfl,by
    simp,hs,⟨_,rfl,repInner_shell hst.2.2⟩,hcan,loadable_inStore sha .accountState s⟩

/-! ## Sessions -/

/-- A session over one store: calls on a current map, which may be flushed, replaced by a
root that was flushed before, or by an empty map. The second argument collects the maps
that were flushed with the hashes they were given. The nodes in memory at a flush hash
strings of `S`. -/
inductive Session (S : Set Bytes) : SHAMap sha → List (SHAMap sha × Hash256) → Prop
  | new {s : NodeStore} : Authentic sha S s → Session S (new .accountState (some s)) []
  | call {m : SHAMap sha} {flushed : List (SHAMap sha × Hash256)} (a : Call) :
      Session S m flushed → Session S (m.call a).1 flushed
  | get {m : SHAMap sha} {flushed : List (SHAMap sha × Hash256)} (key : Hash256) :
      Session S m flushed → Session S (m.touch key) flushed
  | flush {m : SHAMap sha} {flushed : List (SHAMap sha × Hash256)} (owned : List (Fin 16) → Bool) :
      Session S m flushed → (∀ str∈(m.flush owned).1.root.nodeContents, str∈S) →
      Session S (m.flush owned).1 (m.flush owned::flushed)
  | reopen {m m' : SHAMap sha} {flushed : List (SHAMap sha × Hash256)} {s : NodeStore}
      {old : SHAMap sha × Hash256} :
      Session S m flushed → old∈flushed → m.store=some s →
        fromRootHash old.2 .accountState s=.ok m' →
      Session S m' flushed
  | empty {m : SHAMap sha} {flushed : List (SHAMap sha × Hash256)} :
      Session S m flushed → Session S (SHAMap.new .accountState m.store) flushed

/-- A flushed map that is still in the store, unless it was empty. -/
def Kept (sha : Sha512Half) (s : NodeStore) (old : SHAMap sha × Hash256) : Prop :=
  ∃ s' c, old.1.kind=.accountState ∧ Represents (KeyTrie.InStore sha .accountState s') c old.1 ∧
    old.2=KeyTrie.rootHash sha .accountState c ∧
    (support c≠[] → KeyTrie.InStore sha .accountState s (.node c))

theorem Kept.mono {s' : NodeStore} {old : SHAMap sha × Hash256} (h : Kept sha s old)
    (hext : s'.Extends s) : Kept sha s' old := by
  obtain ⟨s₀,c,hkind,hrep,hhash,hst⟩ := h
  exact ⟨s₀,c,hkind,hrep,hhash,fun hc => (hst hc).mono hext⟩

theorem Session.backed (hS : CollisionFree sha S) {flushed : List (SHAMap sha × Hash256)}
    (h : Session S m flushed) : ∃ s c, Backed S s c m ∧ ∀ old∈flushed, Kept sha s old := by
  induction h with
  | new hs => exact ⟨_,_,backed_new hs,by simp⟩
  | call a _ ih =>
    obtain ⟨s,c,hb,hk⟩ := ih
    obtain ⟨c',hb'⟩ := hb.call a
    exact ⟨s,c',hb',hk⟩
  | get key _ ih =>
    obtain ⟨s,c,hb,hk⟩ := ih
    exact ⟨s,c,hb.touch key,hk⟩
  | flush owned _ hstr ih =>
    obtain ⟨s,c,hb,hk⟩ := ih
    obtain ⟨s',hb',hext,hhash,hst⟩ := hb.flush hS owned hstr
    refine ⟨s',c,hb',fun old hold => ?_⟩
    rcases mem_cons.mp hold with rfl | hold
    · exact ⟨s',c,hb'.kind_eq,hb'.represents,hhash,hst⟩
    · exact (hk old hold).mono hext
  | reopen _ hold hstore hopen ih =>
    obtain ⟨s,c,hb,hk⟩ := ih
    obtain rfl : _=s := Option.some.inj (hstore.symm.trans hb.store_eq)
    obtain ⟨s₀,c₀,hkind,hrep,hhash,hst⟩ := hk _ hold
    by_cases hc : support c₀=[]
    · -- no record is filed under the hash of the empty map
      rw [hhash,KeyTrie.rootHash,if_pos hc,fromRootHash] at hopen
      split at hopen
      · cases hopen
      · rename_i r hr
        obtain ⟨str,hstr,hsha,-⟩ := hb.authentic _ _ hr
        exact absurd hsha (hS.ne_zero str hstr)
    · rw [hhash,KeyTrie.rootHash,if_neg hc] at hopen
      obtain ⟨m',hopen',hb'⟩ := exists_fromRootHash hb.authentic hrep.canonical (hst hc)
      rw [hopen'] at hopen
      cases hopen
      exact ⟨_,c₀,hb',hk⟩
  | empty _ ih =>
    obtain ⟨s,c,hb,hk⟩ := ih
    rw [hb.store_eq]
    exact ⟨s,_,backed_new hb.authentic,hk⟩

/-- **Persistence.** At any time in a session, every map that was flushed with contents
reopens from the hash that `flush` returned, with the contents, the iteration and the
root hash it had. -/
theorem flushed_reopens (hS : CollisionFree sha S) (m : SHAMap sha)
    (flushed : List (SHAMap sha × Hash256)) (hsession : Session S m flushed)
    (old : SHAMap sha × Hash256) (hold : old∈flushed) (key : Hash256) (data : Bytes)
    (hkey : old.1.get key=.ok (some data)) :
    ∃ s m', m.store=some s ∧ fromRootHash old.2 .accountState s=.ok m' ∧ Unchanged old.1 m' ∧
      ∀ owned, (m'.rootHash owned).2=old.2 := by
  obtain ⟨s,c,hb,hk⟩ := hsession.backed hS
  obtain ⟨s₀,c₀,hkind,hrep,hhash,hst⟩ := hk old hold
  have hc : support c₀≠[] := by
    intro hc
    have hnone := (KeyTrie.support_eq_nil_iff hrep.canonical).mp hc key
    rw [hrep.get_eq,hnone] at hkey
    cases hkey
  obtain ⟨m',hopen,hb'⟩ := exists_fromRootHash hb.authentic hrep.canonical (hst hc)
  refine ⟨s,m',hb.store_eq,?_,?_,fun owned => ?_⟩
  · rwa [hhash,KeyTrie.rootHash,if_neg hc]
  · exact (hrep.unchanged_iff hb'.represents (hb'.kind_eq.trans hkind.symm)).mpr rfl
  · rw [hb'.represents.rootHash_eq,hb'.kind_eq,hhash]

def sampleUnflushed : SHAMap sampleSha :=
  (((new .accountState (some fun _ => none)).call (.put keyA [0x0A])).1.call (.put keyB [0x0B])).1

/-- The flushed sample map reopens after an entry has been removed and the map changed. -/
theorem flushed_reopens_after_delete :
    ∃ s m', ((sampleUnflushed.flush fun _ => true).1.call (.delete keyA)).1.store=some s ∧
      fromRootHash (sampleUnflushed.flush fun _ => true).2 .accountState s=.ok m' ∧
      Unchanged (sampleUnflushed.flush fun _ => true).1 m' ∧
      ∀ owned, (m'.rootHash owned).2=(sampleUnflushed.flush fun _ => true).2 := by
  have hS : CollisionFree sampleSha
    {str | str∈(sampleUnflushed.flush fun _ => true).1.root.nodeContents} :=
    CollisionFree.of_list (by decide +kernel) (by decide +kernel)
  have hnew : Authentic sampleSha
    {str | str∈(sampleUnflushed.flush fun _ => true).1.root.nodeContents}
      (fun _ => none) := fun _ _ h => by cases h
  have hsession := (((Session.new hnew).call (.put keyA [0x0A])).call (.put keyB [0x0B])).flush
    (fun _ => true)
    fun _ h => h
  exact flushed_reopens hS _ _ (hsession.call (.delete keyA)) (sampleUnflushed.flush fun _ => true)
    mem_cons_self keyA [0x0A] (by decide)

end SHAMap

end Rxrpl
