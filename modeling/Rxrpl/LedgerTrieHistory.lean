import Rxrpl.LedgerTrie

/-!
# Histories of a ledger trie

As long as the supports fit into `u32`, they add up, no node without support is kept, and
the trie and its preferred ledger depend only on the multiset of branches.
-/

namespace Rxrpl.Consensus

open HashMap WordMultiset Multiset

namespace TrieNode

variable {t : TrieNode} {M : Multiset (List Hash256)} {n : ℕ}

/-! ## Insertion -/

theorem hash_insertWalk (n : ℕ) (t : TrieNode) (branch : List Hash256) :
    (insertWalk n t branch).data.hash=t.data.hash := by
  cases branch <;> simp [insertWalk,bump]

theorem Represents.credit (h : Represents t M) (hn : M.card+n < 4294967296) :
    Represents (credit t n) (M+replicate n []) := by
  obtain ⟨htip,hbranch,hnone,hsome⟩ := represents_iff.mp h
  have hle := count_le_card [] M
  rw [represents_iff]
  refine ⟨?_,?_,?_,?_⟩
  · simp only [TrieNode.credit,KeyedTree.data_withData,htip,count_add,count_replicate_self]
    exact wrap32_of_lt (by omega)
  · simp only [TrieNode.credit,KeyedTree.data_withData,hbranch,card_add,card_replicate]
    exact wrap32_of_lt hn
  · intro k hk
    simpa [residual_add] using hnone k (by simpa [TrieNode.credit] using hk)
  · intro k c hk
    simpa [residual_add] using hsome k c (by simpa [TrieNode.credit] using hk)

variable {branch : List Hash256}

theorem Represents.insertWalk (h : Represents t M) (hb : branch≠[]) (h0 : n≠0)
    (hn : M.card+n < 4294967296) : Represents (insertWalk n t branch) (M+replicate n branch) := by
  induction branch generalizing t M with
  | nil => exact absurd rfl hb
  | cons head rest ih =>
    obtain ⟨htip,hbranch,hnone,hsome⟩ := represents_iff.mp h
    obtain ⟨hhash,hrep⟩ := h.getD_child? head
    have hle := card_residual_le head M
    -- the child on the path holds the residual with the copies of the rest
    have hchild : ∃ c, (if rest=[] then TrieNode.credit ((t.child? head).getD (new head)) n
          else TrieNode.insertWalk n ((t.child? head).getD (new head)) rest)=c ∧ c.data.hash=head ∧
        Represents c (residual head M+replicate n rest) := by
      refine ⟨_,rfl,?_⟩
      by_cases hr : rest=[]
      · subst hr
        rw [if_pos rfl]
        exact ⟨by simpa [TrieNode.credit] using hhash,hrep.credit (by omega)⟩
      · rw [if_neg hr]
        exact ⟨by rw [hash_insertWalk,hhash],ih hrep hr (by omega)⟩
    obtain ⟨c,hc,hchash,hcrep⟩ := hchild
    have hres : ∀ k, residual k (M+replicate n (head::rest)) =
        if k=head then residual head M+replicate n rest else residual k M := by
      intro k
      rw [residual_add]
      by_cases hk : k=head
      · subst hk; simp
      · rw [if_neg hk,residual_replicate_ne (Ne.symm hk),add_zero]
    rw [TrieNode.insertWalk,hc,represents_iff]
    refine ⟨?_,?_,?_,?_⟩
    · simp [bump,htip,count_replicate]
    · simp only [bump,KeyedTree.data_setChild,KeyedTree.data_withData,hbranch,card_add,
        card_replicate]
      exact wrap32_of_lt hn
    · intro k hk
      rw [KeyedTree.child?_setChild] at hk
      by_cases hkh : k=head
      · simp [hkh] at hk
      · rw [hres,if_neg hkh]
        exact hnone k (by simpa [hkh,bump] using hk)
    · intro k c' hk
      rw [KeyedTree.child?_setChild] at hk
      by_cases hkh : k=head
      · rw [if_pos hkh] at hk
        cases hk
        rw [hres,if_pos hkh,hkh]
        refine ⟨hchash,?_,hcrep⟩
        intro hz
        have := congrArg card hz
        simp only [card_add,card_replicate,card_zero] at this
        omega
      · rw [hres,if_neg hkh]
        exact hsome k c' (by simpa [hkh,bump] using hk)

/-! ## Removal -/

theorem Represents.peekTipSupport (h : Represents t M) (hb : branch≠[]) :
    (peekTipSupport t branch).getD 0=M.count branch := by
  induction branch generalizing t M with
  | nil => exact absurd rfl hb
  | cons head rest ih =>
    obtain ⟨-,-,hnone,hsome⟩ := represents_iff.mp h
    rw [TrieNode.peekTipSupport,← count_residual]
    cases hk : t.child? head with
    | none => simp [hnone head hk]
    | some c =>
      have hc := (hsome head c hk).2.2
      by_cases hr : rest=[]
      · subst hr
        simpa using (represents_iff.mp hc).1
      · simpa [hr] using ih hc hr

theorem hash_removeWalk (n : ℕ) (t : TrieNode) (branch : List Hash256) :
    (removeWalk n t branch).data.hash=t.data.hash := by
  cases branch with
  | nil => rfl
  | cons head rest =>
    rw [removeWalk]
    cases t.child? head with
    | none => simp [lower]
    | some c =>
      dsimp only
      generalize (if rest=[] then debit c n else removeWalk n c rest)=c'
      split <;> simp [lower]

theorem Represents.debit (h : Represents t M) (hn : n ≤ M.count []) :
    Represents (debit t n) (M-replicate n []) := by
  obtain ⟨htip,hbranch,hnone,hsome⟩ := represents_iff.mp h
  rw [represents_iff]
  refine ⟨?_,?_,?_,?_⟩
  · simp [TrieNode.debit,htip]
  · rw [card_sub (le_count_iff_replicate_le.mp hn)]
    simp [TrieNode.debit,hbranch]
  · intro k hk
    simpa [residual_sub] using hnone k (by simpa [TrieNode.debit] using hk)
  · intro k c hk
    simpa [residual_sub] using hsome k c (by simpa [TrieNode.debit] using hk)

/-- Removal takes copies of the branch out and prunes what is left without support. -/
theorem Represents.removeWalk (h : Represents t M) (hb : branch≠[]) (h0 : n≠0)
    (hn : n ≤ M.count branch) : Represents (removeWalk n t branch) (M-replicate n branch) := by
  induction branch generalizing t M with
  | nil => exact absurd rfl hb
  | cons head rest ih =>
    obtain ⟨htip,hbranch,hnone,hsome⟩ := represents_iff.mp h
    have hcount : n ≤ (residual head M).count rest := by rwa [count_residual]
    rw [TrieNode.removeWalk]
    cases hk : t.child? head with
    | none =>
      rw [hnone head hk,count_zero] at hcount
      omega
    | some c =>
      obtain ⟨hhash,-,hrep⟩ := hsome head c hk
      have hchild :
        ∃ c', (if rest=[] then TrieNode.debit c n else TrieNode.removeWalk n c rest)=c' ∧
          c'.data.hash=head ∧ Represents c' (residual head M-replicate n rest) := by
        refine ⟨_,rfl,?_⟩
        by_cases hr : rest=[]
        · subst hr
          rw [if_pos rfl]
          exact ⟨by simpa [TrieNode.debit] using hhash,hrep.debit hcount⟩
        · rw [if_neg hr]
          exact ⟨by rw [hash_removeWalk,hhash],ih hrep hr hcount⟩
      obtain ⟨c',hc',hchash,hcrep⟩ := hchild
      have hres : ∀ k, residual k (M-replicate n (head::rest)) =
          if k=head then residual head M-replicate n rest else residual k M := by
        intro k
        rw [residual_sub]
        by_cases hkh : k=head
        · subst hkh; simp
        · rw [if_neg hkh,residual_replicate_ne (Ne.symm hkh),tsub_zero]
      have htip' : (lower t n).data.tipSupport=(M-replicate n (head::rest)).count [] := by
        simp [lower,htip,count_replicate]
      have hbranch' : (lower t n).data.branchSupport=(M-replicate n (head::rest)).card := by
        rw [card_sub (le_count_iff_replicate_le.mp hn)]
        simp [lower,hbranch]
      have hzero : c'.data.branchSupport=0 ↔ residual head M-replicate n rest=0 := by
        rw [(represents_iff.mp hcrep).2.1,card_eq_zero]
      dsimp only
      rw [hc',represents_iff]
      split
      · rename_i hprune
        refine ⟨by simpa using htip',by simpa using hbranch',?_,?_⟩
        · intro k hk'
          rw [hres]
          split
          · exact hzero.mp hprune
          · rename_i hkh
            exact hnone k (by simpa [KeyedTree.child?_eraseChild,hkh,lower] using hk')
        · intro k d hk'
          rw [KeyedTree.child?_eraseChild] at hk'
          split_ifs at hk' with hkh
          rw [hres,if_neg hkh]
          exact hsome k d (by simpa [lower] using hk')
      · rename_i hprune
        refine ⟨by simpa using htip',by simpa using hbranch',?_,?_⟩
        · intro k hk'
          rw [KeyedTree.child?_setChild] at hk'
          split_ifs at hk' with hkh
          rw [hres,if_neg hkh]
          exact hnone k (by simpa [lower] using hk')
        · intro k d hk'
          rw [KeyedTree.child?_setChild] at hk'
          split at hk'
          · rename_i hkh
            cases hk'
            rw [hres,if_pos hkh,hkh]
            exact ⟨hchash,fun hz => hprune (hzero.mpr hz),hcrep⟩
          · rename_i hkh
            rw [hres,if_neg hkh]
            exact hsome k d (by simpa [lower] using hk')

/-! ## The preferred ledger -/

section

variable {ks : Finset Hash256} (child : {k // k∈ks} → TrieNode)

/-- The child under `k` does not beat the one under `b`. -/
def NotAbove (k b : {k // k∈ks}) : Prop :=
  (child k).data.branchSupport < (child b).data.branchSupport ∨
    ((child k).data.branchSupport=(child b).data.branchSupport ∧
      (child k).data.hash ≤ (child b).data.hash)

variable {child} in
theorem NotAbove.trans {k b c : {k // k∈ks}} (h : NotAbove child k b) (h' : NotAbove child b c) :
    NotAbove child k c := by
  rcases h with h | ⟨h,hh⟩
  · rcases h' with h' | ⟨h',-⟩ <;> exact .inl (by omega)
  · rcases h' with h' | ⟨h',hh'⟩
    · exact .inl (by omega)
    · exact .inr ⟨by omega,hh.trans hh'⟩

theorem betterChild_some (b k : {k // k∈ks}) :
    ∃ b', betterChild child (some b) k=some b' ∧ NotAbove child b b' ∧ NotAbove child k b' := by
  simp only [betterChild]
  split
  · rename_i h
    refine ⟨k,rfl,?_,.inr ⟨rfl,le_rfl⟩⟩
    rcases h with h | ⟨h,hh⟩
    · exact .inl h
    · exact .inr ⟨h.symm,hh.le⟩
  · rename_i h
    simp only [not_or,not_and,not_lt] at h
    refine ⟨b,rfl,.inr ⟨rfl,le_rfl⟩,?_⟩
    rcases Nat.lt_or_eq_of_le h.1 with h' | h'
    · exact .inl h'
    · exact .inr ⟨h',h.2 h'⟩

theorem foldl_betterChild_some (l : List {k // k∈ks}) (b : {k // k∈ks}) :
    ∃ b', l.foldl (betterChild child) (some b)=some b' ∧ NotAbove child b b' ∧
      ∀ k∈l, NotAbove child k b' := by
  induction l generalizing b with
  | nil => exact ⟨b,rfl,.inr ⟨rfl,le_rfl⟩,by simp⟩
  | cons k l ih =>
    obtain ⟨b₁,h₁,hb,hk⟩ := betterChild_some child b k
    obtain ⟨b₂,h₂,hb₂,hl⟩ := ih b₁
    refine ⟨b₂,by rw [List.foldl_cons,h₁,h₂],hb.trans hb₂,?_⟩
    intro x hx
    rcases List.mem_cons.mp hx with rfl | hx
    · exact hk.trans hb₂
    · exact hl x hx

/-- The loop over the children ends at a child that no other one beats. -/
theorem foldl_betterChild_none (l : List {k // k∈ks}) :
    (l.foldl (betterChild child) none=none ∧ l=[]) ∨
      ∃ b, l.foldl (betterChild child) none=some b ∧ ∀ k∈l, NotAbove child k b := by
  cases l with
  | nil => exact .inl ⟨rfl,rfl⟩
  | cons k l =>
    obtain ⟨b,hb,hk,hl⟩ := foldl_betterChild_some child l k
    right
    refine ⟨b,hb,?_⟩
    intro x hx
    rcases List.mem_cons.mp hx with rfl | hx
    · exact hk
    · exact hl x hx

end

/-- The loop of `get_preferred` follows the heaviest path of the multiset, whatever the order
of the children. -/
theorem Represents.preferredFrom (o : IterOrder) (h : Represents t M) (preferred : Option Hash256) :
    ∃ r, Heaviest M r ∧ preferredFrom o t preferred=r.or preferred := by
  induction t generalizing M preferred with
  | node d ks child ih =>
    obtain ⟨htip,-,hks,hchild⟩ := h
    have hcard : ∀ k, (child k).data.branchSupport=(residual k.1 M).card :=
      fun k => (represents_iff.mp (hchild k).2).2.1
    rw [TrieNode.preferredFrom]
    have hmem : ∀ k, k∈o.order (KeyedTree.listedKeys ks) :=
      fun k => (o.perm _).mem_iff.mpr (KeyedTree.mem_listedKeys k)
    have houtside : ∀ k∉ks, (residual k M).card=0 := by
      intro k hk
      rw [card_eq_zero]
      by_contra hne
      exact hk ((hks k).mpr hne)
    rcases foldl_betterChild_none child (o.order (KeyedTree.listedKeys ks))
      with ⟨hnone,hl⟩ | ⟨b,hsome,hb⟩
    · refine ⟨none,.stop fun k => ?_,by rw [hnone]; rfl⟩
      have hk : k∉ks := fun hk => by
        have := hmem ⟨k,hk⟩
        rw [hl] at this
        cases this
      rw [houtside k hk]
      exact Nat.zero_le _
    · have hbest : IsBest M b.1 := by
        intro k
        by_cases hk : k∈ks
        · have := hb ⟨k,hk⟩ (hmem _)
          rw [NotAbove,hcard,hcard,(hchild _).1,(hchild _).1] at this
          exact this
        · left
          rw [houtside k hk,card_pos]
          exact (hks b.1).mp b.2
      rw [hsome]
      dsimp only
      rw [hcard,htip]
      split
      · rename_i hstop
        refine ⟨none,.stop fun k => ?_,rfl⟩
        rcases hbest k with hlt | ⟨heq,-⟩ <;> omega
      · rename_i hgo
        obtain ⟨r,hr,heq⟩ := ih b (hchild b).2 (some (child b).data.hash)
        refine ⟨_,.descend hbest (by omega) hr,?_⟩
        rw [heq,(hchild b).1]
        cases r <;> rfl

/-! ## Supports -/

/-- The branch support of a node is its tip support and the branch supports of its children. -/
def Balanced (t : TrieNode) : Prop :=
  t.data.branchSupport=t.data.tipSupport+∑ k∈t.keys,
    (((t.child? k).map (·.data.branchSupport)).getD 0)

theorem Represents.balanced (h : Represents t M) : KeyedTree.Everywhere Balanced t := by
  induction t using KeyedTree.induction_child generalizing M with
  | step t ih =>
    obtain ⟨htip,hbranch,hnone,hsome⟩ := represents_iff.mp h
    rw [KeyedTree.everywhere_iff]
    refine ⟨?_,fun k c hk => ih k c hk (hsome k c hk).2.2⟩
    have hheads : heads M⊆t.keys := by
      intro k hk
      rw [KeyedTree.mem_keys_iff]
      cases hc : t.child? k with
      | none => exact absurd (hnone k hc) (mem_heads.mp hk)
      | some c => exact ⟨c,rfl⟩
    rw [Balanced,htip,hbranch,card_eq_sum_residual M hheads]
    congr 1
    apply Finset.sum_congr rfl
    intro k hk
    obtain ⟨c,hc⟩ := KeyedTree.mem_keys_iff.mp hk
    rw [hc]
    exact (represents_iff.mp (hsome k c hc).2.2).2.1.symm

theorem Represents.supported (h : Represents t M) (hM : M≠0) :
    KeyedTree.Everywhere (fun node => node.data.branchSupport≠0) t := by
  induction t using KeyedTree.induction_child generalizing M with
  | step t ih =>
    obtain ⟨-,hbranch,-,hsome⟩ := represents_iff.mp h
    rw [KeyedTree.everywhere_iff]
    refine ⟨?_,fun k c hk => ih k c hk (hsome k c hk).2.2 (hsome k c hk).2.1⟩
    rw [hbranch,Ne,card_eq_zero]
    exact hM

end TrieNode

/-! ## Histories -/

inductive TrieCall
  | insert (branch : List Hash256) (count : ℕ)
  | remove (branch : List Hash256) (count : ℕ)

def TrieCall.branch : TrieCall → List Hash256
  | .insert b _ => b
  | .remove b _ => b

def TrieCall.effect (M : Multiset (List Hash256)) : TrieCall → Multiset (List Hash256)
  | .insert b n => M+Multiset.replicate n b
  | .remove b n => M-Multiset.replicate (min n (M.count b)) b

def copies (calls : List TrieCall) : Multiset (List Hash256) := calls.foldl TrieCall.effect 0

/-- Calls with non-empty branches whose total support always fits into `u32`. -/
structure Admissible (calls : List TrieCall) : Prop where
  branch_ne_nil : ∀ c∈calls, c.branch≠[]
  card_lt : ∀ pre, pre <+: calls → (copies pre).card < 4294967296

namespace LedgerTrie

def call (t : LedgerTrie) : TrieCall → LedgerTrie
  | .insert b n => t.insert b n
  | .remove b n => (t.remove b n).1

def run (calls : List TrieCall) : LedgerTrie := calls.foldl call new

structure Holds (t : LedgerTrie) (M : Multiset (List Hash256)) : Prop where
  represents : TrieNode.Represents t.root M
  hash_eq : t.root.data.hash=.zero

variable {t t' : LedgerTrie} {M : Multiset (List Hash256)}

theorem holds_new : new.Holds 0 := ⟨TrieNode.represents_new .zero,rfl⟩

variable {branch : List Hash256}

theorem Holds.insert (h : t.Holds M) {n : ℕ} (hb : branch≠[])
    (hn : (M+replicate n branch).card < 4294967296) :
    (t.insert branch n).Holds (M+replicate n branch) := by
  unfold LedgerTrie.insert
  split
  · rename_i h0
    rcases h0 with h0 | h0
    · exact absurd h0 hb
    · subst h0
      simpa using h
  · rename_i h0
    rw [not_or] at h0
    rw [card_add,card_replicate] at hn
    exact ⟨h.represents.insertWalk hb h0.2 hn,by rw [TrieNode.hash_insertWalk]; exact h.hash_eq⟩

theorem Holds.remove (h : t.Holds M) (hb : branch≠[]) (n : ℕ) :
    (t.remove branch n).1.Holds (M-replicate (min n (M.count branch)) branch) := by
  have hpeek := h.represents.peekTipSupport hb
  unfold LedgerTrie.remove
  split
  · rename_i h0
    rcases h0 with h0 | h0
    · exact absurd h0 hb
    · subst h0
      simpa using h
  · rename_i h0
    rw [not_or] at h0
    cases hk : TrieNode.peekTipSupport t.root branch with
    | none =>
      rw [hk] at hpeek
      rw [← show 0=M.count branch from hpeek]
      simpa using h
    | some tip =>
      rw [hk] at hpeek
      rw [← show tip=M.count branch from hpeek]
      dsimp only
      split
      · rename_i htip
        have hmin : min n tip≠0 := by omega
        have hle : min n tip ≤ M.count branch := by rw [← show tip=M.count branch from hpeek]; omega
        exact ⟨h.represents.removeWalk hb hmin hle,
          by rw [TrieNode.hash_removeWalk]; exact h.hash_eq⟩
      · rename_i htip
        have hzero : min n tip=0 := by omega
        simpa [hzero] using h

theorem holds_run {calls : List TrieCall} (h : Admissible calls) :
    (run calls).Holds (copies calls) := by
  induction calls using List.reverseRecOn with
  | nil => exact holds_new
  | append_singleton calls c ih =>
    have hpre : Admissible calls :=
      ⟨fun c hc => h.branch_ne_nil c (List.mem_append_left _ hc),
        fun pre hp => h.card_lt pre (hp.trans (List.prefix_append calls [c]))⟩
    have hcall := ih hpre
    have hb := h.branch_ne_nil c (by simp)
    have hcard := h.card_lt (calls++[c]) (List.prefix_refl _)
    simp only [run,copies,List.foldl_append,List.foldl_cons,List.foldl_nil] at hcall hcard ⊢
    cases c with
    | insert b n => exact hcall.insert hb hcard
    | remove b n => exact hcall.remove hb n

theorem Holds.unique (h : t.Holds M) (h' : t'.Holds M) : t=t' := by
  have := h.represents.unique h'.represents (h.hash_eq.trans h'.hash_eq.symm)
  cases t; cases t'; cases this; rfl

theorem Holds.getPreferred (h : t.Holds M) (o : IterOrder) : Heaviest M (t.getPreferred o) := by
  unfold LedgerTrie.getPreferred isEmpty
  split
  · rename_i hempty
    have hM : M=0 := by
      rw [← card_eq_zero,← (TrieNode.represents_iff.mp h.represents).2.1]
      simpa using hempty
    subst hM
    exact .stop (by simp)
  · obtain ⟨r,hr,heq⟩ := h.represents.preferredFrom o none
    rw [heq,Option.or_none]
    exact hr

/-- After any history the supports add up, no node below the root is without support, a remove
that returns `false` changes nothing, and the trie and its preferred ledger are those of any
other history with the same multiset of branches. -/
theorem history_canonical {calls : List TrieCall} (h : Admissible calls) :
    KeyedTree.Everywhere TrieNode.Balanced (run calls).root ∧
      (∀ k c, (run calls).root.child? k=some c →
        KeyedTree.Everywhere (fun node => node.data.branchSupport≠0) c) ∧
      (∀ branch count, ((run calls).remove branch count).2=false →
        ((run calls).remove branch count).1=run calls) ∧
      ∀ calls', Admissible calls' → copies calls'=copies calls →
        run calls'=run calls ∧ ∀ o o', (run calls').getPreferred o=(run calls).getPreferred o' := by
  have hrun := holds_run h
  refine ⟨hrun.represents.balanced,?_,?_,?_⟩
  · intro k c hk
    obtain ⟨-,hne,hc⟩ := (TrieNode.represents_iff.mp hrun.represents).2.2.2 k c hk
    exact hc.supported hne
  · intro branch count hfalse
    unfold LedgerTrie.remove at hfalse ⊢
    split
    · rfl
    rename_i h0
    rw [if_neg h0] at hfalse
    split
    · rename_i tip htip
      rw [htip] at hfalse
      dsimp only at hfalse
      split
      · rename_i hpos
        rw [if_pos hpos] at hfalse
        cases hfalse
      · rfl
    · rfl
  · intro calls' h' hcopies
    have hrun' := holds_run h'
    rw [hcopies] at hrun'
    exact ⟨hrun'.unique hrun,fun o o' => (hrun'.getPreferred o).unique (hrun.getPreferred o')⟩

/-- A branch and a longer one, in two orders and with a removal of copies that were not there. -/
theorem history_canonical_two_orders :
    run [.insert [.ofNat 1] 2,.insert [.ofNat 1,.ofNat 2] 1,.remove [.ofNat 1] 1] =
      run [.insert [.ofNat 1,.ofNat 2] 1,.remove [.ofNat 1] 5,.insert [.ofNat 1] 1] := by
  have hadm : ∀ calls : List TrieCall, (∀ c∈calls, c.branch≠[]) →
      (∀ pre∈calls.inits, (copies pre).card < 4294967296) → Admissible calls :=
    fun calls hb hcard => ⟨hb,fun pre hp => hcard pre ((List.mem_inits pre calls).mpr hp)⟩
  exact ((history_canonical (hadm _ (by decide) (by decide))).2.2.2 _
    (hadm _ (by decide) (by decide)) (by decide)).1

end LedgerTrie

end Rxrpl.Consensus
