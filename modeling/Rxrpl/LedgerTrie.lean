import Rxrpl.ConsensusTypes
import Rxrpl.KeyedTree
import Rxrpl.WordMultiset

/-!
# The ledger trie

`LedgerTrie` counts branches, that is paths of ledger hashes from an anchor to a tip. A node
stores the support of its own tip and of all tips from it on; a call updates the supports
along the branch and prunes nodes that lost theirs. `Represents` says that a node holds a
multiset of branches, and each call is shown to do to the trie what it does to the multiset,
which determines the trie.
-/

namespace Rxrpl.Consensus

open HashMap WordMultiset

structure Support where
  hash : Hash256
  tipSupport : ℕ
  branchSupport : ℕ

abbrev TrieNode := KeyedTree Hash256 Support

namespace TrieNode

def new (hash : Hash256) : TrieNode := .leaf ⟨hash,0,0⟩

def bump (node : TrieNode) (count : ℕ) : TrieNode :=
  node.withData { node.data with branchSupport := wrap32 (node.data.branchSupport+count) }

def credit (node : TrieNode) (count : ℕ) : TrieNode :=
  node.withData { node.data with branchSupport := wrap32 (node.data.branchSupport+count)
                                 tipSupport := wrap32 (node.data.tipSupport+count) }

def lower (node : TrieNode) (count : ℕ) : TrieNode :=
  node.withData { node.data with branchSupport := node.data.branchSupport - count }

def debit (node : TrieNode) (count : ℕ) : TrieNode :=
  node.withData { node.data with branchSupport := node.data.branchSupport - count
                                 tipSupport := node.data.tipSupport-count }

/-- `insert_walk`. The callers never pass an empty branch. -/
def insertWalk (count : ℕ) : TrieNode → List Hash256 → TrieNode
  | node, [] => node
  | node, head::rest =>
    let child := (node.child? head).getD (new head)
    let child := if rest=[] then credit child count else insertWalk count child rest
    (node.bump count).setChild head child

def peekTipSupport : TrieNode → List Hash256 → Option ℕ
  | _, [] => none
  | node, head::rest =>
    match node.child? head with
    | none => none
    | some child => if rest=[] then some child.data.tipSupport else peekTipSupport child rest

/-- `remove_walk`. The path was found by `peek_tip_support`, so the child exists. -/
def removeWalk (count : ℕ) : TrieNode → List Hash256 → TrieNode
  | node, [] => node
  | node, head::rest =>
    match node.child? head with
    | none => node.lower count
    | some child =>
      let child := if rest=[] then debit child count else removeWalk count child rest
      if child.data.branchSupport=0 then (node.lower count).eraseChild head
      else (node.lower count).setChild head child

/-- One turn of the loop over the children in `get_preferred`. -/
def betterChild {ks : Finset Hash256} (child : {k // k∈ks} → TrieNode) (best : Option {k // k∈ks})
    (k : {k // k∈ks}) : Option {k // k∈ks} :=
  match best with
  | none => some k
  | some b =>
    if (child k).data.branchSupport > (child b).data.branchSupport ∨
        ((child k).data.branchSupport=(child b).data.branchSupport ∧
          (child k).data.hash > (child b).data.hash) then
      some k
    else some b

/-- The loop of `get_preferred` from a node on. -/
def preferredFrom (o : IterOrder) : TrieNode → Option Hash256 → Option Hash256
  | .node d ks child, preferred =>
    match (o.order (KeyedTree.listedKeys ks)).foldl (betterChild child) none with
    | none => preferred
    | some best =>
      if d.tipSupport ≥ (child best).data.branchSupport then preferred
      else preferredFrom o (child best) (some (child best).data.hash)

end TrieNode

structure LedgerTrie where
  root : TrieNode

namespace LedgerTrie

def new : LedgerTrie := ⟨.new .zero⟩

def insert (t : LedgerTrie) (branch : List Hash256) (count : ℕ) : LedgerTrie :=
  if branch=[] ∨ count=0 then t else ⟨t.root.insertWalk count branch⟩

/-- `remove`: the trie after the call and whether support was taken out. -/
def remove (t : LedgerTrie) (branch : List Hash256) (count : ℕ) : LedgerTrie × Bool :=
  if branch=[] ∨ count=0 then (t,false)
  else match t.root.peekTipSupport branch with
    | some tip => if tip > 0 then (⟨t.root.removeWalk (min count tip) branch⟩,true) else (t,false)
    | none => (t,false)

def isEmpty (t : LedgerTrie) : Bool := t.root.data.branchSupport == 0

def getPreferred (o : IterOrder) (t : LedgerTrie) : Option Hash256 :=
  if t.isEmpty then none else t.root.preferredFrom o none

end LedgerTrie

/-! ## The multiset a node holds -/

namespace TrieNode

/-- A node holds a multiset of branches: its supports count the branches that end in it and
all of them, and its children hold the residuals. -/
def Represents : TrieNode → Multiset (List Hash256) → Prop
  | .node d ks child, M =>
    d.tipSupport=M.count [] ∧ d.branchSupport=M.card ∧ (∀ k, k∈ks ↔ residual k M≠0) ∧
      ∀ k, (child k).data.hash=k.1 ∧ Represents (child k) (residual k.1 M)

variable {t t' : TrieNode} {M : Multiset (List Hash256)} {k : Hash256} {c : TrieNode}

theorem represents_iff : Represents t M ↔ t.data.tipSupport=M.count [] ∧
    t.data.branchSupport=M.card ∧
      (∀ k, t.child? k=none → residual k M=0) ∧
      ∀ k c, t.child? k=some c → c.data.hash=k ∧ residual k M≠0 ∧ Represents c (residual k M) := by
  cases t with
  | node d ks child =>
    have hsome : ∀ (k : Hash256) (h : k∈ks),
      (KeyedTree.node d ks child).child? k=some (child ⟨k,h⟩) :=
      fun k h => KeyedTree.child?_eq_some ⟨k,h⟩
    have hnone : ∀ k, (KeyedTree.node d ks child).child? k=none ↔ k∉ks := by
      intro k
      by_cases h : k∈ks <;> simp [KeyedTree.child?,h]
    simp only [Represents,KeyedTree.data]
    refine and_congr_right fun _ => and_congr_right fun _ => ⟨?_,?_⟩
    · rintro ⟨hks,hchild⟩
      refine ⟨fun k hk => ?_,fun k c hk => ?_⟩
      · by_contra hne
        exact (hnone k).mp hk ((hks k).mpr hne)
      by_cases hm : k∈ks
      · rw [hsome k hm] at hk
        cases hk
        exact ⟨(hchild ⟨k,hm⟩).1,(hks k).mp hm,(hchild ⟨k,hm⟩).2⟩
      · rw [(hnone k).mpr hm] at hk
        cases hk
    · rintro ⟨hn,hs⟩
      refine ⟨fun k => ⟨fun hm => (hs k _ (hsome k hm)).2.1,fun hne => ?_⟩,fun k => ?_⟩
      · by_contra hm
        exact hne (hn k ((hnone k).mpr hm))
      · obtain ⟨hh,-,hr⟩ := hs k.1 _ (hsome k.1 k.2)
        exact ⟨hh,hr⟩

theorem represents_new (hash : Hash256) : Represents (new hash) 0 := by
  rw [represents_iff]
  simp [new,KeyedTree.leaf,KeyedTree.data,KeyedTree.child?]

theorem Represents.getD_child? (h : Represents t M) (k : Hash256) :
    ((t.child? k).getD (new k)).data.hash=k ∧
      Represents ((t.child? k).getD (new k)) (residual k M) := by
  obtain ⟨-,-,hnone,hsome⟩ := represents_iff.mp h
  cases hk : t.child? k with
  | none => rw [hnone k hk]; exact ⟨rfl,represents_new k⟩
  | some c => exact ⟨(hsome k c hk).1,(hsome k c hk).2.2⟩

/-- A node is determined by its hash and the multiset it holds. -/
theorem Represents.unique (h : Represents t M) (h' : Represents t' M)
    (hhash : t.data.hash=t'.data.hash) : t=t' := by
  induction t using KeyedTree.induction_child generalizing t' M with
  | step t ih =>
    obtain ⟨htip,hbranch,hnone,hsome⟩ := represents_iff.mp h
    obtain ⟨htip',hbranch',hnone',hsome'⟩ := represents_iff.mp h'
    apply KeyedTree.ext_child
    · cases hd : t.data with
      | mk hash tip branch =>
        cases hd' : t'.data with
        | mk hash' tip' branch' =>
          rw [hd] at hhash htip hbranch
          rw [hd'] at hhash htip' hbranch'
          simp only at hhash htip hbranch htip' hbranch'
          rw [hhash,htip,hbranch,htip',hbranch']
    · intro k
      cases hk : t.child? k with
      | none =>
        cases hk' : t'.child? k with
        | none => rfl
        | some c' => exact absurd (hnone k hk) (hsome' k c' hk').2.1
      | some c =>
        cases hk' : t'.child? k with
        | none => exact absurd (hnone' k hk') (hsome k c hk).2.1
        | some c' =>
          have hc := hsome k c hk
          have hc' := hsome' k c' hk'
          rw [ih k c hk hc.2.2 hc'.2.2 (hc.1.trans hc'.1.symm)]

end TrieNode

end Rxrpl.Consensus
