import Rxrpl.SHAMapContents

/-!
# History independence

Two maps with the same contents have the same root hash and the same tree, however
they were built: every call leaves canonical tries below the root, and canonical tries
are determined by their contents. The cached hashes of inner nodes are set aside, since
an inner node may or may not have been hashed after its last change.
-/

namespace Rxrpl

open RadixTrie

variable {sha : Sha512Half} {kind : LeafKind} {away : KeyTrie → Prop}

mutual
def SHAMapNode.eraseCache : SHAMapNode sha → SHAMapNode sha
  | .leaf l => .leaf l
  | .inner ⟨hashes,children,isBranch,_⟩ =>
    .inner ⟨hashes,fun b => eraseCacheCell (children b),isBranch,.zero⟩
def SHAMapNode.eraseCacheCell : Option (SHAMapNode sha) → Option (SHAMapNode sha)
  | none => none
  | some x => some x.eraseCache
end

/-- The leaf `l` lies `d` levels below a node. -/
inductive SHAMapNode.HasLeafAt (l : LeafNode sha) : ℕ → SHAMapNode sha → Prop
  | leaf : HasLeafAt l 0 (.leaf l)
  | inner {d : ℕ} {n : InnerNode (SHAMapNode sha)} {b : Fin 16} {x : SHAMapNode sha} :
      n.isBranch b=true → n.children b=some x → HasLeafAt l d x → HasLeafAt l (d+1) (.inner n)

variable {d : ℕ} {t : KeyTrie} {x : SHAMapNode sha}

/-- Nodes in memory that represent one trie differ in their cached hashes only. -/
theorem RepNode.eraseCache_eq {y : SHAMapNode sha} (hx : RepNode kind (fun _ => False) t x)
    (hy : RepNode kind (fun _ => False) t y) : x.eraseCache=y.eraseCache := by
  induction t generalizing x y with
  | empty => exact hx.elim
  | leaf k v => rw [hx,hy]
  | node c ih =>
    obtain ⟨⟨hashes,children,isBranch,hash⟩,rfl,hn⟩ := hx
    obtain ⟨⟨hashes',children',isBranch',hash'⟩,rfl,hn'⟩ := hy
    have hh : hashes=hashes' := hn.hashes_eq.trans hn'.hashes_eq.symm
    have hb : isBranch=isBranch' := funext fun b =>
      (hn.isBranch_eq b).trans (hn'.isBranch_eq b).symm
    have hcells : (fun b => SHAMapNode.eraseCacheCell (children b)) =
        fun b => SHAMapNode.eraseCacheCell (children' b) := by
      funext b
      by_cases he : c b=.empty
      · have h := hn.2 b
        have h' := hn'.2 b
        rw [he] at h h'
        have hcell : children b=none := h.2.2
        have hcell' : children' b=none := h'.2.2
        rw [hcell,hcell']
      · obtain ⟨-,-,⟨x,hx,hrx⟩ | ⟨-,ha⟩⟩ := (repSlot_iff he).mp (hn.2 b)
        · obtain ⟨-,-,⟨y,hy,hry⟩ | ⟨-,ha⟩⟩ := (repSlot_iff he).mp (hn'.2 b)
          · simp only at hx hy
            simp only [hx,hy,SHAMapNode.eraseCacheCell,ih b hrx hry]
          · exact ha.elim
        · exact ha.elim
    simp only [SHAMapNode.eraseCache,hh,hb,hcells]

theorem SHAMapNode.HasLeafAt.depthOf_eq {l : LeafNode sha} (h : x.HasLeafAt l d)
    (hr : RepNode kind away t x) {p : List (Fin 16)} (ht : Canonical selectBranch p t) :
      lookup selectBranch l.key p.length t=some l.data ∧
      depthOf selectBranch l.key p.length t=some (p.length+d) := by
  induction h generalizing t p with
  | leaf =>
    cases t with
    | empty => exact hr.elim
    | leaf k v =>
      cases hr
      simp [lookup,depthOf]
    | node c =>
      obtain ⟨n,hn,-⟩ := hr
      cases hn
  | @inner d n b x hbr hx _ ih =>
    cases t with
    | empty => exact hr.elim
    | leaf k v => cases hr
    | node c =>
      obtain ⟨n',hn',hn⟩ := hr
      cases hn'
      have he : c b≠.empty := by
        intro he
        simp [hn.isBranch_eq,he] at hbr
      obtain ⟨-,-,⟨y,hy,hry⟩ | ⟨hnone,-⟩⟩ := (repSlot_iff he).mp (hn.2 b)
      · obtain rfl : x=y := by simpa [hx] using hy
        obtain ⟨hl,hd⟩ := ih hry (ht.1 b)
        have hp := (ht.1 b).path_eq hl
        rw [List.length_append,List.length_singleton] at hl hd hp
        have hb : selectBranch l.key p.length=b := (path_succ_eq_iff.mp hp).2
        rw [lookup_node,depthOf,hb]
        exact ⟨hl,hd.trans (by congr 1; omega)⟩
      · simp [hx] at hnone

theorem RepNode.exists_hasLeafAt (hr : RepNode kind (fun _ => False) t x) {key : Hash256}
    {data : Bytes} (hk : lookup selectBranch key d t=some data) :
    ∃ e, x.HasLeafAt (.new kind key data) e := by
  induction t generalizing x d with
  | empty => exact hr.elim
  | leaf k v =>
    cases hr
    simp only [lookup,Option.ite_none_right_eq_some,Option.some.injEq] at hk
    obtain ⟨rfl,rfl⟩ := hk
    exact ⟨0,.leaf⟩
  | node c ih =>
    obtain ⟨n,rfl,hn⟩ := hr
    rw [lookup_node] at hk
    have he : c (selectBranch key d)≠.empty := by
      intro he
      simp [he,lookup] at hk
    obtain ⟨hbr,-,⟨y,hy,hry⟩ | ⟨-,haway⟩⟩ := (repSlot_iff he).mp (hn.2 (selectBranch key d))
    · obtain ⟨e,hleaf⟩ := ih _ hry hk
      exact ⟨e+1,.inner hbr hy hleaf⟩
    · exact haway.elim

namespace SHAMap

variable {c : Fin 16 → KeyTrie} {m : SHAMap sha}

/-- The depths at which the nibbles of a key tell it from all other keys of a map. -/
def uniqueDepths (m : SHAMap sha) (key : Hash256) : Set ℕ :=
  {d | 1 ≤ d ∧ ∀ k v, m.get k=.ok (some v) → path selectBranch k d=path selectBranch key d → k=key}

theorem Represents.isLeast_depth (h : Represents away c m) {l : LeafNode sha} {d : ℕ}
    (hl : m.root.HasLeafAt l d) :
    m.get l.key=.ok (some l.data) ∧
      IsLeast (m.uniqueDepths l.key) d := by
  obtain ⟨n,hroot,hn⟩ := h.root
  rw [hroot] at hl
  cases hl with
  | @inner d _ b x hbr hx hl =>
    have he : c b≠.empty := by
      intro he
      simp [hn.isBranch_eq,he] at hbr
    obtain ⟨-,-,⟨y,hy,hry⟩ | ⟨hnone,-⟩⟩ := (repSlot_iff he).mp (hn.2 b)
    · obtain rfl : x=y := by simpa [hx] using hy
      obtain ⟨hlook,hdepth⟩ := hl.depthOf_eq hry (h.canonical b)
      -- the keys below the branch `b` are the keys of the map whose first nibble is `b`
      have hbranch : ∀ {k v}, lookup selectBranch k 1 (c b)=some v → selectBranch k 0=b := by
        intro k v hk
        simpa [path] using (h.canonical b).path_eq hk
      have hlk := hbranch hlook
      obtain ⟨-,huniq,hparent⟩ := (h.canonical b).depthOf_spec hdepth
      rw [List.length_singleton,Nat.add_comm] at hparent huniq
      refine ⟨?_,⟨by omega,fun k v hk hpath => ?_⟩,fun e he => ?_⟩
      · rw [h.get_eq,KeyTrie.find_eq,hlk,hlook]
      · rw [h.get_eq,KeyTrie.find_eq] at hk
        have hb : selectBranch k 0=b := (digit_eq_of_path_eq hpath (by omega)).trans hlk
        rw [hb] at hk
        exact huniq k v (Except.ok.inj hk) hpath
      · obtain ⟨he₁,hsep⟩ := he
        by_contra hlt
        obtain hd | ⟨k,v,hk,hne,hpath⟩ := hparent
        · omega
        · refine hne (hsep k v ?_ (path_eq_of_le hpath (by omega)))
          rw [h.get_eq,KeyTrie.find_eq,hbranch hk]
          exact congrArg _ hk
    · simp [hx] at hnone

/-- **History independence.** Two runs on an empty map that end with the same contents
end with the same root hash and the same tree. The leaves of the tree are the entries
of the map, each at the least depth that tells its key from the other ones, and a map
without entries hashes to zero. -/
theorem history_independent (sha : Sha512Half) (kind : LeafKind) (calls calls' : List Call)
    (hget : ∀ key, ((new kind none : SHAMap sha).run calls).get key =
      ((new kind none : SHAMap sha).run calls').get key) :
    let m : SHAMap sha := (new kind none).run calls
    let m' : SHAMap sha := (new kind none).run calls'
    (∀ owned owned', (m.rootHash owned).2=(m'.rootHash owned').2) ∧
      m.root.eraseCache=m'.root.eraseCache ∧
      (∀ l d, m.root.HasLeafAt l d → m.get l.key=.ok (some l.data) ∧
        IsLeast (m.uniqueDepths l.key) d) ∧
      (∀ key data, m.get key=.ok (some data) → ∃ d, m.root.HasLeafAt (.new kind key data) d) ∧
      ((∀ key, m.get key=.ok none) → ∀ owned, (m.rootHash owned).2=.zero) := by
  intro m m'
  obtain ⟨x,c,hx,hrep⟩ := (represents_new kind none).run_eq (by simp [new]) calls
  obtain ⟨x',c',hx',hrep'⟩ := (represents_new kind none).run_eq (by simp [new]) calls'
  change m=_ at hx
  change m'=_ at hx'
  have hkind : m.kind=kind := by rw [hx]; rfl
  have hkind' : m'.kind=kind := by rw [hx']; rfl
  rw [← hx] at hrep
  rw [← hx'] at hrep'
  obtain rfl : c=c' := hrep.eq_of_get hrep' hget
  refine ⟨fun owned owned' => ?_,?_,fun l d hl => hrep.isLeast_depth hl,fun key data hk =>
    ?_,fun hnone owned => ?_⟩
  · rw [hrep.rootHash_eq,hrep'.rootHash_eq,hkind,hkind']
  · have hroot := hrep.root
    have hroot' := hrep'.root
    rw [hkind] at hroot
    rw [hkind'] at hroot'
    exact hroot.eraseCache_eq hroot'
  · have hroot := hrep.root
    rw [hkind] at hroot
    rw [hrep.get_eq] at hk
    exact hroot.exists_hasLeafAt (Except.ok.inj hk)
  · have hs : support c=[] := (KeyTrie.support_eq_nil_iff hrep.canonical).mpr fun key =>
      Except.ok.inj ((hrep.get_eq key).symm.trans (hnone key))
    rw [hrep.rootHash_eq,KeyTrie.rootHash,if_pos hs]

/-- Two keys with a common first nibble, and the hashes of the maps below. -/
def keyA : Hash256 := .ofNat (0x11 <<< 248)

def keyB : Hash256 := .ofNat (0x12 <<< 248)

def sampleSha : Sha512Half :=
  let leafA := Hash256.ofNat 0xa915e2886a3166bd5f0b4398066b2b218d7a6aae1ef21742bc933c247fc53dab
  let leafB := Hash256.ofNat 0xda70eedf19af985d33a1a99114b58ed1b713355f1ce0c70a9f719806809f62fa
  let leafB' := Hash256.ofNat 0xc4e6d131bc8cb6a0036d93fe636916eb68b85fae97ca4115dc0fdf434909423a
  let fork := Hash256.ofNat 0x7594da9693ece6385533167ed037823f4b750ecf4a2bacd3a47e35e101ee6f83
  let root := Hash256.ofNat 0xb8dd49c529df3c79db706bd48351665be87a04c9bedf28eb7b2ab2d6610e165c
  .ofTable [(LeafKind.accountState.content keyA [0x0A],leafA),
    (LeafKind.accountState.content keyB [0x0B],leafB),
    (LeafKind.accountState.content keyB [0x0C],leafB'),
    (innerContent (Function.update (Function.update (fun _ => .zero) 1 leafA) 2 leafB),fork),
    (innerContent (Function.update (fun _ => .zero) 1 fork),root)]

/-- Two entries put in one order; put in the other one, with a failing removal and an
update in between. -/
theorem history_independent_two_orders :
    let m : SHAMap sampleSha := (new .accountState none).run [.put keyA [0x0A],.put keyB [0x0B]]
    let m' : SHAMap sampleSha := (new .accountState none).run
      [.put keyB [0x0C],.delete keyA,.update keyB [0x0B],.put keyA [0x0A]]
    (∀ key, m.get key=m'.get key) ∧
      ∀ owned owned', (m.rootHash owned).2=(m'.rootHash owned').2 := by
  intro m m'
  have hget : ∀ key, m.get key=m'.get key := by
    intro key
    have hne : keyA≠keyB := by decide
    rw [get_run .accountState none (by simp),get_run .accountState none (by simp)]
    simp [specRun,Call.spec,hne,Function.update_idem,Function.update_comm hne]
  exact ⟨hget,(history_independent sampleSha .accountState _ _ hget).1⟩

end SHAMap

end Rxrpl
