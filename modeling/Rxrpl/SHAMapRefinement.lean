import Rxrpl.SHAMapRepresentation

/-!
# The operations of a SHAMap on the trie it represents

One lemma for each helper of `shamap.rs`. All of them run on an inner node at some depth
whose children form canonical tries, and all of them return: the depth of an inner node
stays below the 64 nibbles of a key.
-/

namespace Rxrpl

open RadixTrie Function
open List hiding lookup

variable {sha : Sha512Half} {kind : LeafKind} {away : KeyTrie → Prop} {store : Option NodeStore}

/-- The children of an inner node on the path `p` and a key on that path. -/
structure OnPath (p : List (Fin 16)) (c : Fin 16 → KeyTrie) (key : Hash256) : Prop where
  canonical : ∀ b, Canonical selectBranch (p++[b]) (c b)
  path_eq : path selectBranch key p.length=p
  length_lt : p.length < 64

namespace OnPath

variable {p : List (Fin 16)} {c : Fin 16 → KeyTrie} {key : Hash256}

theorem root (hc : CanonicalRoot c) (key : Hash256) : OnPath [] c key :=
    ⟨by simpa using hc,by simp [path],by simp⟩

theorem path_succ_eq (h : OnPath p c key) :
    path selectBranch key (p++[selectBranch key p.length]).length =
    p++[selectBranch key p.length] := by
  rw [length_append,length_singleton]
  exact path_succ_eq_iff.mpr ⟨h.path_eq,rfl⟩

/-- The child of the key's branch, when it is a node again. -/
theorem child (h : OnPath p c key) {c' : Fin 16 → KeyTrie}
    (hc : c (selectBranch key p.length)=.node c') :
    OnPath (p++[selectBranch key p.length]) c' key := by
  have hcan := h.canonical (selectBranch key p.length)
  rw [hc] at hcan
  exact ⟨hcan.1,h.path_succ_eq,hcan.length_lt selectBranch_separates⟩

theorem canonical_insert (h : OnPath p c key) (data : Bytes) :
    Canonical selectBranch (p++[selectBranch key p.length])
      (insert selectBranch 64 key data (p.length+1) (c (selectBranch key p.length))) := by
  have hcan := (h.canonical (selectBranch key p.length)).insert selectBranch_separates data
    h.path_succ_eq
  rwa [length_append,length_singleton] at hcan

end OnPath

/-! ## Reads -/

variable {c : Fin 16 → KeyTrie} {fuel : ℕ} {n : InnerNode (SHAMapNode sha)} {p : List (Fin 16)}
  {r : List (Hash256 × Bytes)} {rest stack : List (SHAMapNode sha × ℕ)} {t : KeyTrie}
  {x : SHAMapNode sha}

theorem findLeaf_eq (hL : Loadable sha kind away store) {key : Hash256} (hp : OnPath p c key)
    (hf : 64 ≤ p.length+fuel) (hr : RepInner kind away c n) :
      SHAMap.findLeaf store kind key fuel p.length n =
      .ok ((lookup selectBranch key p.length (.node c)).map (.new kind key)) := by
  induction fuel generalizing p c n with
  | zero => have := hp.length_lt; omega
  | succ fuel ih =>
    rw [SHAMap.findLeaf,lookup_node]
    cases hc : c (selectBranch key p.length) with
    | empty => simp [hr.childWithStore_empty hc,lookup]
    | leaf k v =>
      obtain ⟨x,hx,hrep⟩ := hr.childWithStore_eq hL (b := selectBranch key p.length) (by simp [hc])
      rw [hc] at hrep
      cases hrep
      rw [hx]
      by_cases hk : k=key
      · subst hk
        simp [lookup]
      · simp [lookup,hk]
    | node c' =>
      obtain ⟨x,hx,hrep⟩ := hr.childWithStore_eq hL (b := selectBranch key p.length) (by simp [hc])
      rw [hc] at hrep
      obtain ⟨n',rfl,hn'⟩ := hrep
      rw [hx]
      have h := ih (hp.child hc) (by simp; omega) hn'
      simpa using h

theorem mapM_ok {α β ε : Type} (l : List α) (f : α → Except ε β) (g : α → β)
    (h : ∀ a∈l, f a=.ok (g a)) : l.mapM f=.ok (l.map g) := by
  induction l with
  | nil => rfl
  | cons a l ih =>
    rw [mapM_cons,h a (by simp),ih fun a ha => h a (by simp [ha])]
    rfl

theorem toList_node_eq (c : Fin 16 → KeyTrie) :
    (RadixTrie.node c).toList=(support c).flatMap fun b => (c b).toList := by
  have h : ∀ l : List (Fin 16), l.flatMap (fun b => (c b).toList) =
      (l.filter fun b => !(c b).isEmpty).flatMap fun b => (c b).toList := by
    intro l
    induction l with
    | nil => rfl
    | cons b l ih =>
      cases hb : c b with
      | empty => simp [hb,RadixTrie.isEmpty,toList,ih]
      | leaf k v => simp [hb,RadixTrie.isEmpty,ih]
      | node c' => simp [hb,RadixTrie.isEmpty,ih]
  exact h _

theorem visit_eq (hL : Loadable sha kind away store)
    (hc : ∀ b, Canonical selectBranch (p++[b]) (c b)) (hp : p.length < 64) (hf : 64 ≤ p.length+fuel)
    (hr : RepInner kind away c n) :
    SHAMap.visit store kind fuel n=.ok (RadixTrie.node c).toList := by
  induction fuel generalizing p c n with
  | zero => omega
  | succ fuel ih =>
    have hparts : ∀ b∈n.branches, SHAMap.visitChild (SHAMap.visit store kind fuel)
        (n.childWithStore b store kind)=.ok (c b).toList := by
      intro b hb
      rw [hr.branches_eq,mem_support] at hb
      obtain ⟨x,hx,hrep⟩ := hr.childWithStore_eq hL hb
      rw [hx]
      cases hcb : c b with
      | empty => exact absurd hcb hb
      | leaf k v =>
        rw [hcb] at hrep
        cases hrep
        rfl
      | node c' =>
        rw [hcb] at hrep
        obtain ⟨n',rfl,hn'⟩ := hrep
        have hcan := hc b
        rw [hcb] at hcan
        have hlt := hcan.length_lt selectBranch_separates
        simp only [length_append,length_singleton] at hlt
        exact ih hcan.1 (by simpa using hlt) (by simp; omega) hn'
    rw [SHAMap.visit,mapM_ok _ _ _ hparts,hr.branches_eq,toList_node_eq,flatMap]
    rfl

/-! ## Insertion -/

section

variable (sha kind away)

/-- The inner nodes that `split_leaves` builds form the fork of the two keys. -/
theorem splitLeaves_eq {a b : Hash256} (v w : Bytes) {p : List (Fin 16)} (hab : a≠b) (fuel : ℕ)
    (ha : path selectBranch a p.length=p) (hb : path selectBranch b p.length=p) (hp : p.length < 64)
    (hf : 64 ≤ p.length+fuel) :
    ∃ i : InnerNode (SHAMapNode sha),
      SHAMap.splitLeaves (.new kind a v) (.new kind b w) fuel p.length=.ok i ∧
      RepNode kind away (fork selectBranch a v b w (64-p.length) p.length) (.inner i) := by
  induction fuel generalizing p with
  | zero => omega
  | succ fuel ih =>
    obtain ⟨i,hi,h64,hne⟩ := selectBranch_separates.exists_digit_ne (ha.trans hb.symm) hab
    have hlev : 64-p.length=(64-(p.length+1))+1 := by omega
    rw [SHAMap.splitLeaves,hlev,fork]
    by_cases he : selectBranch a p.length=selectBranch b p.length
    · have hpi : p.length≠i := by rintro rfl; exact hne he
      have hl : (p++[selectBranch a p.length]).length=p.length+1 := by simp
      have ha' : path selectBranch a
        (p++[selectBranch a p.length]).length=p++[selectBranch a p.length] := by
        rw [hl]; exact path_succ_eq_iff.mpr ⟨ha,rfl⟩
      have hb' : path selectBranch b
        (p++[selectBranch a p.length]).length=p++[selectBranch a p.length] := by
        rw [hl]; exact path_succ_eq_iff.mpr ⟨hb,he.symm⟩
      obtain ⟨j,hj,hrep⟩ := ih ha' hb' (by omega) (by omega)
      obtain ⟨c,hc,hcan⟩ := canonical_fork (v := v) (w := w) (n := 64-(p.length+1)) ha' hb'
        (by omega)
        (by omega) hne
      rw [hl] at hj hrep hc
      refine ⟨InnerNode.new.setChild (selectBranch a p.length) (.inner j),?_,?_⟩
      · simp only [LeafNode.new_key,if_pos he,hj]
      rw [if_pos he]
      refine ⟨_,rfl,?_⟩
      rw [single]
      exact RepInner.new.setChild (by rw [hc]; simp) hrep
        (hrep.hash_eq (p := p++[selectBranch a p.length])
        (by rwa [hc]))
    · refine ⟨_,if_neg he,?_⟩
      rw [if_neg he]
      refine ⟨_,rfl,?_⟩
      rw [single]
      exact (RepInner.new.setChild (t := .leaf a v) (by simp) rfl rfl).setChild (t := .leaf b w)
        (by simp) rfl rfl

/-- A leaf of another key in the way of `key`: splitting the two is inserting. -/
theorem splitLeaves_insert {p : List (Fin 16)} {c : Fin 16 → KeyTrie} {key k : Hash256}
    (data : Bytes) {v : Bytes} {fuel : ℕ} (hp : OnPath p c key) (hf : 64 ≤ p.length+(fuel+1))
    (hc : c (selectBranch key p.length)=.leaf k v) (hk : k≠key) :
    ∃ i : InnerNode (SHAMapNode sha),
      SHAMap.splitLeaves (.new kind k v) (.new kind key data) fuel (p.length+1)=.ok i ∧
        RepNode kind away (insert selectBranch 64 key data (p.length+1) (.leaf k v))
          (.inner i) := by
  have hcan := hp.canonical (selectBranch key p.length)
  rw [hc] at hcan
  have hpk : path selectBranch k (p++[selectBranch key p.length]).length=_ := hcan
  have hl : (p++[selectBranch key p.length]).length=p.length+1 := by simp
  obtain ⟨i,hi,h64,-⟩ := selectBranch_separates.exists_digit_ne (hpk.trans hp.path_succ_eq.symm) hk
  obtain ⟨i,hsplit,hrep⟩ := splitLeaves_eq sha kind away v data hk fuel hpk hp.path_succ_eq
    (by omega) (by omega)
  rw [hl] at hsplit hrep
  refine ⟨i,hsplit,?_⟩
  rwa [RadixTrie.insert,if_neg hk]

end

/-! ## The child on the branch of a key -/

section

variable {c c' : Fin 16 → KeyTrie} {n : InnerNode (SHAMapNode sha)} {b : Fin 16}

namespace RepInner

theorem isBranch_false (hr : RepInner kind away c n) (hc : c b=.empty) : n.isBranch b=false := by
  simp [hr.isBranch_eq,hc]

theorem exists_leaf (hL : Loadable sha kind away store) (hr : RepInner kind away c n) {k : Hash256}
    {v : Bytes} (hc : c b=.leaf k v) :
    ∃ n₁ n₂, n.isBranch b=true ∧ n.ensureLoaded b store kind=.ok n₁ ∧
      n₁.takeChild b=(n₂,some (.leaf (.new kind k v))) ∧
        RepInner kind away (update c b .empty) n₂ := by
  obtain ⟨n₁,n₂,x,hload,htake,hrep,hn₂⟩ := hr.exists_taken hL (b := b) (by simp [hc])
  rw [hc] at hrep
  cases hrep
  exact ⟨n₁,n₂,by simp [hr.isBranch_eq,hc],hload,htake,hn₂⟩

theorem exists_inner (hL : Loadable sha kind away store) (hr : RepInner kind away c n)
    (hc : c b=.node c') :
    ∃ n₁ n₂ i, n.isBranch b=true ∧ n.ensureLoaded b store kind=.ok n₁ ∧
      n₁.takeChild b=(n₂,some (.inner i)) ∧ RepInner kind away c' i ∧
        RepInner kind away (update c b .empty) n₂ := by
  obtain ⟨n₁,n₂,x,hload,htake,hrep,hn₂⟩ := hr.exists_taken hL (b := b) (by simp [hc])
  rw [hc] at hrep
  obtain ⟨i,rfl,hi⟩ := hrep
  exact ⟨n₁,n₂,i,by simp [hr.isBranch_eq,hc],hload,htake,hi,hn₂⟩

theorem putLeaf (hn : RepInner kind away (update c b .empty) n) (k : Hash256) (v : Bytes) :
    RepInner kind away (update c b (.leaf k v)) (n.setChild b (.leaf (.new kind k v))) := by
  have h := hn.setChild (b := b) (t := .leaf k v) (by simp) rfl rfl
  simpa using h

theorem putInner {t : KeyTrie} {q : List (Fin 16)} {i : InnerNode (SHAMapNode sha)}
    (hn : RepInner kind away (update c b .empty) n) (hrep : RepNode kind away t (.inner i))
    (ht : Canonical selectBranch q t) :
      RepInner kind away (update c b t) (n.setChild b (.inner i)) := by
  have hne : t≠.empty := by
    rintro rfl
    exact hrep.elim
  have h := hn.setChild (b := b) hne hrep (hrep.hash_eq ht)
  simpa using h

end RepInner

/-- Putting back the child `i` after a removal below it collapses what it represents. -/
theorem reattach_eq (hL : Loadable sha kind away store) {c c' : Fin 16 → KeyTrie} {b : Fin 16}
    {q : List (Fin 16)} {data : Bytes} {n i : InnerNode (SHAMapNode sha)}
    (hn : RepInner kind away (update c b .empty) n) (hi : RepInner kind away c' i)
    (hcan : ∀ b', Canonical selectBranch (q++[b']) (c' b')) :
    ∃ n', SHAMap.reattach store kind n b data i=(n',.ok data) ∧
      RepInner kind away (update c b (collapse c')) n' := by
  have hq := Canonical.collapse hcan
  unfold SHAMap.reattach collapse at *
  simp only [InnerNode.branchCount,InnerNode.singleBranch,hi.branches_eq]
  rcases hsup : support c' with _ | ⟨s,_ | ⟨s',ss⟩⟩
  · exact ⟨n,by simp,hn⟩
  · have hs : c' s≠.empty := mem_support.mp (by simp [hsup])
    simp only [hsup] at hq
    simp only [length_singleton,Nat.one_ne_zero,if_false]
    cases hc : c' s with
    | empty => exact absurd hc hs
    | leaf k v =>
      obtain ⟨i₁,i₂,-,hload,htake,-⟩ := hi.exists_leaf hL hc
      simp only [hload,htake]
      exact ⟨_,rfl,hn.putLeaf k v⟩
    | node c'' =>
      obtain ⟨i₁,i₂,j,-,hload,htake,hj,hi₂⟩ := hi.exists_inner hL hc
      have hcs := hcan s
      rw [hc] at hcs
      simp only [hload,htake]
      have hback := hi₂.putInner (t := .node c'') ⟨j,rfl,hj⟩ hcs
      rw [← hc,update_eq_self] at hback
      simp only [hc] at hq
      exact ⟨_,rfl,hn.putInner ⟨_,rfl,hback⟩ hq⟩
  · simp only [hsup] at hq
    exact ⟨_,by simp,hn.putInner ⟨_,rfl,hi⟩ hq⟩

end

section

variable {key : Hash256} {data v : Bytes} {fuel : ℕ} {p : List (Fin 16)} {c : Fin 16 → KeyTrie}
  {n : InnerNode (SHAMapNode sha)} (hL : Loadable sha kind away store) (hp : OnPath p c key)
  (hf : 64 ≤ p.length+fuel) (hr : RepInner kind away c n)

include hL hp hf hr

theorem putLeaf_eq : ∃ n', SHAMap.putLeaf store kind key (.new kind key data) fuel p.length
    n=(n',.ok ()) ∧
      RepInner kind away (update c (selectBranch key p.length)
        (insert selectBranch 64 key data (p.length+1) (c (selectBranch key p.length)))) n' := by
  induction fuel generalizing p c n with
  | zero => have := hp.length_lt; omega
  | succ fuel ih =>
    simp only [SHAMap.putLeaf]
    have hins := hp.canonical_insert data
    cases hc : c (selectBranch key p.length) with
    | empty =>
      refine ⟨_,by simp [hr.isBranch_false hc]; rfl,?_⟩
      exact hr.setChild (t := .leaf key data) (by simp) rfl rfl
    | leaf k w =>
      obtain ⟨n₁,n₂,hbr,hload,htake,hn₂⟩ := hr.exists_leaf hL hc
      rw [hc] at hins
      simp only [hbr,if_true,hload,htake]
      by_cases hk : k=key
      · subst hk
        refine ⟨_,if_pos rfl,?_⟩
        simpa [RadixTrie.insert] using hn₂.putLeaf k data
      · rw [if_neg (show ¬(LeafNode.new kind k w : LeafNode sha).key=key from hk)]
        obtain ⟨i,hi,hrepi⟩ := splitLeaves_insert sha kind away data hp hf hc hk
        simp only [hi]
        exact ⟨_,rfl,hn₂.putInner hrepi hins⟩
    | node c' =>
      obtain ⟨n₁,n₂,i,hbr,hload,htake,hi,hn₂⟩ := hr.exists_inner hL hc
      rw [hc] at hins
      obtain ⟨i',hput,hi'⟩ := ih (hp.child hc) (by simp; omega) hi
      rw [length_append,length_singleton] at hput hi'
      simp only [hbr,if_true,hload,htake,hput]
      exact ⟨_,rfl,hn₂.putInner ⟨i',rfl,hi'⟩ hins⟩

theorem insertLeaf_absent (hkey : lookup selectBranch key p.length (.node c)=none) :
    ∃ n', SHAMap.insertLeaf store kind key (.new kind key data) fuel p.length n=(n',.ok ()) ∧
      RepInner kind away (update c (selectBranch key p.length)
        (insert selectBranch 64 key data (p.length+1) (c (selectBranch key p.length)))) n' := by
  induction fuel generalizing p c n with
  | zero => have := hp.length_lt; omega
  | succ fuel ih =>
    simp only [SHAMap.insertLeaf]
    have hins := hp.canonical_insert data
    rw [lookup_node] at hkey
    cases hc : c (selectBranch key p.length) with
    | empty =>
      refine ⟨_,by simp [hr.isBranch_false hc]; rfl,?_⟩
      exact hr.setChild (t := .leaf key data) (by simp) rfl rfl
    | leaf k w =>
      obtain ⟨n₁,n₂,hbr,hload,htake,hn₂⟩ := hr.exists_leaf hL hc
      rw [hc] at hins hkey
      have hk : k≠key := by rintro rfl; simp [lookup] at hkey
      obtain ⟨i,hi,hrepi⟩ := splitLeaves_insert sha kind away data hp hf hc hk
      simp only [hbr,if_true,hload,htake,SHAMap.insertIntoExisting]
      rw [if_neg (show ¬(LeafNode.new kind k w : LeafNode sha).key=key from hk)]
      simp only [hi]
      exact ⟨_,rfl,hn₂.putInner hrepi hins⟩
    | node c' =>
      obtain ⟨n₁,n₂,i,hbr,hload,htake,hi,hn₂⟩ := hr.exists_inner hL hc
      rw [hc] at hins hkey
      obtain ⟨i',hput,hi'⟩ := ih (hp.child hc) (by simp; omega) hi (by simpa using hkey)
      rw [length_append,length_singleton] at hput hi'
      simp only [hbr,if_true,hload,htake,SHAMap.insertIntoExisting,hput]
      exact ⟨_,rfl,hn₂.putInner ⟨i',rfl,hi'⟩ hins⟩

/-- `insert_leaf` of a present key fails. The leaf of a duplicate found right below the
node is put back; an inner child is not, and its whole branch is lost. -/
theorem insertLeaf_present (hkey : lookup selectBranch key p.length (.node c)=some v) :
    ∃ n', SHAMap.insertLeaf store kind key (.new kind key data) fuel p.length
      n=(n',.error .duplicateKey) ∧
      RepInner kind away
        (update c (selectBranch key p.length) (match c (selectBranch key p.length) with
          | .node _ => .empty
          | t => t)) n' := by
  induction fuel generalizing p c n with
  | zero => have := hp.length_lt; omega
  | succ fuel ih =>
    simp only [SHAMap.insertLeaf]
    rw [lookup_node] at hkey
    cases hc : c (selectBranch key p.length) with
    | empty => simp [hc,lookup] at hkey
    | leaf k w =>
      obtain ⟨n₁,n₂,hbr,hload,htake,hn₂⟩ := hr.exists_leaf hL hc
      rw [hc] at hkey
      obtain ⟨rfl,rfl⟩ := eq_of_lookup_leaf hkey
      simp only [hbr,if_true,hload,htake,SHAMap.insertIntoExisting]
      exact ⟨_,if_pos rfl,hn₂.putLeaf k w⟩
    | node c' =>
      obtain ⟨n₁,n₂,i,hbr,hload,htake,hi,hn₂⟩ := hr.exists_inner hL hc
      rw [hc] at hkey
      obtain ⟨i',hins,-⟩ := ih (hp.child hc) (by simp; omega) hi (by simpa using hkey)
      rw [length_append,length_singleton] at hins
      simp only [hbr,if_true,hload,htake,SHAMap.insertIntoExisting,hins]
      exact ⟨_,rfl,hn₂⟩

/-! ## Update and removal -/

theorem updateIn_absent (hkey : lookup selectBranch key p.length (.node c)=none) :
    ∃ n', SHAMap.updateIn store kind key data fuel p.length n=(n',.error .notFound) ∧
      RepInner kind away c n' := by
  induction fuel generalizing p c n with
  | zero => have := hp.length_lt; omega
  | succ fuel ih =>
    simp only [SHAMap.updateIn]
    have hcan := hp.canonical (selectBranch key p.length)
    rw [lookup_node] at hkey
    cases hc : c (selectBranch key p.length) with
    | empty => exact ⟨n,by simp [hr.isBranch_false hc],hr⟩
    | leaf k w =>
      obtain ⟨n₁,n₂,hbr,hload,htake,hn₂⟩ := hr.exists_leaf hL hc
      rw [hc] at hkey
      have hk : k≠key := by rintro rfl; simp [lookup] at hkey
      simp only [hbr,if_true,hload,htake]
      rw [if_neg (show ¬(LeafNode.new kind k w : LeafNode sha).key=key from hk)]
      exact ⟨_,rfl,by simpa [← hc] using hn₂.putLeaf k w⟩
    | node c' =>
      obtain ⟨n₁,n₂,i,hbr,hload,htake,hi,hn₂⟩ := hr.exists_inner hL hc
      rw [hc] at hkey hcan
      obtain ⟨i',hup,hi'⟩ := ih (hp.child hc) (by simp; omega) hi (by simpa using hkey)
      rw [length_append,length_singleton] at hup
      simp only [hbr,if_true,hload,htake,hup]
      have h := hn₂.putInner (t := .node c') ⟨i',rfl,hi'⟩ hcan
      exact ⟨_,rfl,by simpa [← hc] using h⟩

theorem updateIn_present (hkey : lookup selectBranch key p.length (.node c)=some v) :
    ∃ n', SHAMap.updateIn store kind key data fuel p.length n=(n',.ok ()) ∧
      RepInner kind away (update c (selectBranch key p.length)
        (insert selectBranch 64 key data (p.length+1) (c (selectBranch key p.length)))) n' := by
  induction fuel generalizing p c n with
  | zero => have := hp.length_lt; omega
  | succ fuel ih =>
    simp only [SHAMap.updateIn]
    have hins := hp.canonical_insert data
    rw [lookup_node] at hkey
    cases hc : c (selectBranch key p.length) with
    | empty => simp [hc,lookup] at hkey
    | leaf k w =>
      obtain ⟨n₁,n₂,hbr,hload,htake,hn₂⟩ := hr.exists_leaf hL hc
      rw [hc] at hkey
      obtain ⟨rfl,rfl⟩ := eq_of_lookup_leaf hkey
      simp only [hbr,if_true,hload,htake]
      refine ⟨_,if_pos rfl,?_⟩
      simpa [RadixTrie.insert] using hn₂.putLeaf k data
    | node c' =>
      obtain ⟨n₁,n₂,i,hbr,hload,htake,hi,hn₂⟩ := hr.exists_inner hL hc
      rw [hc] at hins hkey
      obtain ⟨i',hup,hi'⟩ := ih (hp.child hc) (by simp; omega) hi (by simpa using hkey)
      rw [length_append,length_singleton] at hup hi'
      simp only [hbr,if_true,hload,htake,hup]
      exact ⟨_,rfl,hn₂.putInner ⟨i',rfl,hi'⟩ hins⟩

theorem deleteFrom_absent (hkey : lookup selectBranch key p.length (.node c)=none) :
    ∃ n', SHAMap.deleteFrom store kind key fuel p.length n=(n',.error .notFound) ∧
      RepInner kind away c n' := by
  induction fuel generalizing p c n with
  | zero => have := hp.length_lt; omega
  | succ fuel ih =>
    simp only [SHAMap.deleteFrom]
    have hcan := hp.canonical (selectBranch key p.length)
    rw [lookup_node] at hkey
    cases hc : c (selectBranch key p.length) with
    | empty => exact ⟨n,by simp [hr.isBranch_false hc],hr⟩
    | leaf k w =>
      obtain ⟨n₁,n₂,hbr,hload,htake,hn₂⟩ := hr.exists_leaf hL hc
      rw [hc] at hkey
      have hk : k≠key := by rintro rfl; simp [lookup] at hkey
      simp only [hbr,if_true,hload,htake]
      rw [if_neg (show ¬(LeafNode.new kind k w : LeafNode sha).key=key from hk)]
      exact ⟨_,rfl,by simpa [← hc] using hn₂.putLeaf k w⟩
    | node c' =>
      obtain ⟨n₁,n₂,i,hbr,hload,htake,hi,hn₂⟩ := hr.exists_inner hL hc
      rw [hc] at hkey hcan
      obtain ⟨i',hdel,hi'⟩ := ih (hp.child hc) (by simp; omega) hi (by simpa using hkey)
      rw [length_append,length_singleton] at hdel
      simp only [hbr,if_true,hload,htake,hdel]
      have h := hn₂.putInner (t := .node c') ⟨i',rfl,hi'⟩ hcan
      exact ⟨_,rfl,by simpa [← hc] using h⟩

theorem deleteFrom_present (hkey : lookup selectBranch key p.length (.node c)=some v) :
    ∃ n', SHAMap.deleteFrom store kind key fuel p.length n=(n',.ok v) ∧
      RepInner kind away (update c (selectBranch key p.length)
        (erase selectBranch key (p.length+1) (c (selectBranch key p.length)))) n' := by
  induction fuel generalizing p c n with
  | zero => have := hp.length_lt; omega
  | succ fuel ih =>
    simp only [SHAMap.deleteFrom]
    rw [lookup_node] at hkey
    cases hc : c (selectBranch key p.length) with
    | empty => simp [hc,lookup] at hkey
    | leaf k w =>
      obtain ⟨n₁,n₂,hbr,hload,htake,hn₂⟩ := hr.exists_leaf hL hc
      rw [hc] at hkey
      obtain ⟨rfl,rfl⟩ := eq_of_lookup_leaf hkey
      simp only [hbr,if_true,hload,htake]
      refine ⟨_,if_pos rfl,?_⟩
      simpa [RadixTrie.erase] using hn₂
    | node c' =>
      obtain ⟨n₁,n₂,i,hbr,hload,htake,hi,hn₂⟩ := hr.exists_inner hL hc
      rw [hc] at hkey
      have hp' := hp.child hc
      obtain ⟨i',hdel,hi'⟩ := ih hp' (by simp; omega) hi (by simpa using hkey)
      have hcan' : ∀ b, Canonical selectBranch (p++[selectBranch key p.length]++[b])
          (update c' (selectBranch key (p.length+1))
            (erase selectBranch key (p.length+2) (c' (selectBranch key (p.length+1)))) b) := by
        intro b
        by_cases hb : b=selectBranch key (p.length+1)
        · subst hb
          rw [update_self]
          simpa using (hp'.canonical (selectBranch key (p.length+1))).erase key
        · rw [update_of_ne hb]
          exact hp'.canonical b
      rw [length_append,length_singleton] at hdel hi'
      simp only [hbr,if_true,hload,htake,hdel]
      exact reattach_eq hL hn₂ hi' hcan'

end

/-! ## Iteration -/

theorem iterCollect_step {frame : SHAMapNode sha × ℕ}
    (h : SHAMap.iterCollect store kind (fuel+1) (frame::rest)=.ok r) :
    ∃ s, SHAMap.iterCollect store kind fuel (SHAMap.iterStep store kind (frame::rest)).1=.ok s ∧
      r=(SHAMap.iterStep store kind (frame::rest)).2.toList++s := by
  rw [SHAMap.iterCollect] at h
  cases hnext : SHAMap.iterCollect store kind fuel (SHAMap.iterStep store kind (frame::rest)).1 with
  | error e => simp [hnext,Except.map] at h
  | ok s =>
    rw [hnext] at h
    cases h
    exact ⟨s,rfl,rfl⟩

theorem iterCollect_succ (h : SHAMap.iterCollect store kind fuel stack=.ok r) :
    SHAMap.iterCollect store kind (fuel+1) stack=.ok r := by
  induction fuel generalizing stack r with
  | zero =>
    cases stack with
    | nil => exact h
    | cons frame rest => cases h
  | succ fuel ih =>
    cases stack with
    | nil => exact h
    | cons frame rest =>
      obtain ⟨s,hs,rfl⟩ := iterCollect_step h
      rw [SHAMap.iterCollect,ih hs]
      rfl

theorem iterCollect_mono {fuel' : ℕ} (h : SHAMap.iterCollect store kind fuel stack=.ok r)
    (hle : fuel ≤ fuel') : SHAMap.iterCollect store kind fuel' stack=.ok r := by
  induction hle with
  | refl => exact h
  | step _ ih => exact iterCollect_succ ih

private theorem find_branch (present : Fin 16 → Bool) {k : ℕ} (hk : k < 16) :
    (finRange 16).find? (fun b => k ≤ b.val && present b)=if present ⟨k,hk⟩ then some ⟨k,hk⟩
      else (finRange 16).find? (fun b => k+1 ≤ b.val && present b) := by
  split
  · rename_i hp
    rw [find?_eq_some_iff_getElem]
    refine ⟨by simp [hp],k,by simpa using hk,by simp,fun j hj => ?_⟩
    simp [hj]
  · rename_i hp
    congr 1
    funext b
    by_cases hb : b.val=k
    · have : b=⟨k,hk⟩ := Fin.ext hb
      simp [this,hp]
    · have : (k ≤ b.val)=(k+1 ≤ b.val) := propext (by omega)
      simp [this]

/-- The frame of an inner node at branch `k` yields the entries of the branches from
`k` on, if each child yields its own. -/
private theorem iterCollect_frame (hL : Loadable sha kind away store) (hr : RepInner kind away c n)
    (hchild : ∀ (b : Fin 16) (x : SHAMapNode sha), RepNode kind away (c b) x → ∀ rest fuel r,
      SHAMap.iterCollect store kind fuel rest=.ok r →
        ∃ fuel', SHAMap.iterCollect store kind fuel' ((x,0)::rest)=.ok ((c b).toList++r)) (m k : ℕ)
    (hm : k+m=16) (hrest : SHAMap.iterCollect store kind fuel rest=.ok r) :
    ∃ fuel', SHAMap.iterCollect store kind fuel' ((.inner n,k)::rest) =
      .ok (((finRange 16).drop k).flatMap (fun b => (c b).toList)++r) := by
  induction m generalizing k with
  | zero =>
    obtain rfl : k=16 := by omega
    have hnone : (finRange 16).find? (fun b => 16 ≤ b.val && n.isBranch b)=none := by
      rw [find?_eq_none]
      intro b _
      have := b.isLt
      simp
    refine ⟨fuel+1,?_⟩
    rw [drop_eq_nil_of_le (by simp)]
    simp only [SHAMap.iterCollect,SHAMap.iterStep,hnone,hrest,Except.map]
    simp
  | succ m ih =>
    have hk : k < 16 := by omega
    obtain ⟨fuel₁,h₁⟩ := ih (k+1) (by omega)
    have hdrop : (finRange 16).drop k=⟨k,hk⟩::(finRange 16).drop (k+1) := by
      rw [drop_eq_getElem_cons (by simpa using hk)]
      simp
    rw [hdrop,flatMap_cons,append_assoc]
    by_cases he : c ⟨k,hk⟩=.empty
    · -- an absent branch is passed over within the turn of the next one
      have hbr : n.isBranch ⟨k,hk⟩=false := by simp [hr.isBranch_eq,he]
      have hfind := find_branch n.isBranch hk
      rw [hbr,if_neg (by simp)] at hfind
      refine ⟨fuel₁,?_⟩
      rw [he,toList,nil_append,← h₁]
      cases fuel₁ with
      | zero => cases h₁
      | succ fuel₁ => simp only [SHAMap.iterCollect,SHAMap.iterStep,hfind]
    · have hbr : n.isBranch ⟨k,hk⟩=true := by simp [hr.isBranch_eq,he]
      have hfind := find_branch n.isBranch hk
      rw [if_pos hbr] at hfind
      obtain ⟨x,hx,hrep⟩ := hr.childWithStore_eq hL he
      obtain ⟨fuel₂,h₂⟩ := hchild _ x hrep _ _ _ h₁
      refine ⟨fuel₂+1,?_⟩
      simp only [SHAMap.iterCollect,SHAMap.iterStep,hfind,hx,h₂,Except.map]
      simp

/-- The iterator walks through a subtree and goes on with the rest of its stack. -/
theorem exists_iterCollect (hL : Loadable sha kind away store) (hr : RepNode kind away t x)
    (hrest : SHAMap.iterCollect store kind fuel rest=.ok r) :
    ∃ fuel', SHAMap.iterCollect store kind fuel' ((x,0)::rest)=.ok (t.toList++r) := by
  induction t generalizing x rest fuel r with
  | empty => exact hr.elim
  | leaf k v =>
    cases hr
    refine ⟨fuel+1,?_⟩
    simp only [SHAMap.iterCollect,SHAMap.iterStep,hrest,Except.map]
    rfl
  | node c ih =>
    obtain ⟨n,rfl,hn⟩ := hr
    exact iterCollect_frame hL hn (fun b x hx rest fuel r h => ih b hx h) 16 0 rfl hrest

/-! ## Hashes -/

theorem updateHash_eq (hr : RepInner kind away c n) : RepInner kind away c (n.updateHash sha) ∧
      (n.updateHash sha).getHash sha=KeyTrie.rootHash sha kind c := by
  have hcount : n.branchCount=(support c).length := by rw [InnerNode.branchCount,hr.branches_eq]
  by_cases hs : support c=[]
  · have hupd : n.updateHash sha={ n with hash := .zero } := by
      simp [InnerNode.updateHash,hcount,hs]
    rw [hupd,KeyTrie.rootHash,if_pos hs]
    refine ⟨⟨Or.inl rfl,hr.2⟩,?_⟩
    have h0 : n.branchCount=0 := by simp [hcount,hs]
    simp only [InnerNode.branchCount,InnerNode.branches] at h0
    simp [InnerNode.getHash,InnerNode.branchCount,InnerNode.branches,h0]
  · have hupd : n.updateHash sha={ n with hash := n.computeHash sha } := by
      simp [InnerNode.updateHash,hcount,hs]
    rw [hupd,KeyTrie.rootHash,if_neg hs]
    have hrep : RepInner kind away c { n with hash := n.computeHash sha } := ⟨Or.inr rfl,hr.2⟩
    exact ⟨hrep,hrep.getHash_eq hs⟩

private theorem updateHashes_step (hr : RepInner kind away c n) (owned : List (Fin 16) → Bool)
    (hchild : ∀ b (owned : List (Fin 16) → Bool) (x : SHAMapNode sha), RepNode kind away (c b) x →
      RepNode kind away (c b) (SHAMap.updateHashes owned x)) :
    ∃ n', SHAMap.updateHashes owned (.inner n)=.inner n' ∧ RepInner kind away c n' ∧
      n'.getHash sha=KeyTrie.rootHash sha kind c := by
  obtain ⟨hashes,children,isBranch,hash⟩ := n
  have hcells : RepInner kind away c ⟨hashes,fun b => if isBranch b && owned [b]
      then SHAMap.updateCell (fun p => owned (b::p)) (children b) else children b,isBranch,
        hash⟩ := by
    refine ⟨hr.1,fun b => ?_⟩
    have hslot := hr.2 b
    by_cases hb : c b=.empty
    · rw [hb] at hslot ⊢
      obtain ⟨hbr,hh,hcell⟩ := hslot
      simp only at hbr hcell
      exact ⟨hbr,hh,by simp [hbr,hcell]⟩
    · rw [repSlot_iff hb] at hslot ⊢
      obtain ⟨hbr,hh,hcell⟩ := hslot
      refine ⟨hbr,hh,?_⟩
      cases howned : owned [b] with
      | false => simpa [howned] using hcell
      | true =>
        simp only at hbr hcell ⊢
        rcases hcell with ⟨x,hx,hrep⟩ | ⟨hnone,haway⟩
        · refine Or.inl ⟨SHAMap.updateHashes (fun p => owned (b::p)) x,?_,hchild b _ x hrep⟩
          simp [hbr,hx,SHAMap.updateCell,howned]
        · exact Or.inr ⟨by simp [hnone,SHAMap.updateCell],haway⟩
  obtain ⟨hrep,hhash⟩ := updateHash_eq hcells
  exact ⟨_,by rw [SHAMap.updateHashes],hrep,hhash⟩

theorem RepNode.updateHashes (hr : RepNode kind away t x) (owned : List (Fin 16) → Bool) :
    RepNode kind away t (SHAMap.updateHashes owned x) := by
  induction t generalizing x owned with
  | empty => exact hr.elim
  | leaf k v =>
    cases hr
    rfl
  | node c ih =>
    obtain ⟨n,rfl,hn⟩ := hr
    obtain ⟨n',hn',hrep,-⟩ := updateHashes_step hn owned fun b owned x hx => ih b hx owned
    exact ⟨n',hn',hrep⟩

/-- `update_hashes` keeps what the root represents and leaves it with its Merkle hash,
whichever of the children it may write to. -/
theorem updateHashes_root (hr : RepInner kind away c n) (owned : List (Fin 16) → Bool) :
    ∃ n', SHAMap.updateHashes owned (.inner n)=.inner n' ∧ RepInner kind away c n' ∧
      n'.getHash sha=KeyTrie.rootHash sha kind c :=
  updateHashes_step hr owned fun _ owned _ hx => hx.updateHashes owned

end Rxrpl
