import Rxrpl.LedgerTrieHistory

/-!
# The validations trie

`ValidationsTrie` keeps the latest validation of each trusted validator and a `LedgerTrie`
of their branches, which every call updates in place. `Inv` says that the trie holds the
branches of the stored validations and that a memoised answer is the answer for them, so
that the trie is at any time the one a rebuild would give.
-/

namespace Rxrpl.Consensus

open HashMap WordMultiset Multiset

/-- The source's `Entry`: a validation and the branch that was credited for it. -/
structure LatestEntry where
  validation : Validation
  branch : List Hash256

structure ValidationsTrie where
  trie : LedgerTrie
  latest : HashMap NodeId LatestEntry
  trusted : Finset NodeId
  generation : ℕ
  preferredCache : Option (ℕ × ℕ × Option Hash256)

namespace ValidationsTrie

def new : ValidationsTrie := ⟨.new,∅,∅,0,none⟩

variable (v : ValidationsTrie)

def invalidateCache : ValidationsTrie :=
  { v with generation := wrap64 (v.generation+1), preferredCache := none }

def addTrusted (node : NodeId) : ValidationsTrie :=
  { v with trusted := insert node v.trusted }

def evict (node : NodeId) : ValidationsTrie :=
  match v.latest.lookup node with
  | some prev => { v with latest := v.latest.erase node, trie := (v.trie.remove prev.branch 1).1 }
  | none => v

def removeTrusted (node : NodeId) : ValidationsTrie :=
  let v := { v with trusted := v.trusted.erase node }
  match v.latest.lookup node with
  | some _ => (v.evict node).invalidateCache
  | none => v

/-- The checks of `add_with_parents` against the validation on file: the same ledger again, an
older ledger, or an older signature for the same sequence. -/
def superseded (prev validation : Validation) : Bool :=
  decide (prev.ledgerHash=validation.ledgerHash) || decide
    (validation.ledgerSeq < prev.ledgerSeq) ||
    (decide (validation.ledgerSeq=prev.ledgerSeq) && decide (validation.signTime ≤ prev.signTime))

def replace (validation : Validation) (parentBranch : List Hash256) :
    ValidationsTrie :=
  let branch := parentBranch++[validation.ledgerHash]
  let trie := match v.latest.lookup validation.nodeId with
    | some prev => (v.trie.remove prev.branch 1).1
    | none => v.trie
  { v with trie := trie.insert branch 1, latest :=
    v.latest.insert validation.nodeId ⟨validation,branch⟩ }

def addWithParents (validation : Validation) (parentBranch : List Hash256) :
    ValidationsTrie × Bool :=
  if validation.nodeId∉v.trusted then (v,false)
  else match v.latest.lookup validation.nodeId with
    | some prev =>
      if superseded prev.validation validation then (v,false)
      else ((v.replace validation parentBranch).invalidateCache,true)
    | none => ((v.replace validation parentBranch).invalidateCache,true)

def add (validation : Validation) : ValidationsTrie × Bool :=
    v.addWithParents validation []

/-- The slow path of `get_preferred`: a new trie with the branches of the fresh entries. -/
def rebuildFresh (o : IterOrder) (latest : HashMap NodeId LatestEntry) (seq : ℕ) : LedgerTrie :=
  (latest.iterValues o).foldl (fun t e => if e.validation.ledgerSeq ≥ seq then t.insert e.branch 1
    else t) .new

/-- `get_preferred`, with the memo that it leaves. -/
def getPreferred (o : IterOrder) (v : ValidationsTrie) (seq : ℕ) :
    ValidationsTrie × Option Hash256 :=
  let anyStale := v.latest.values.any fun e => decide (e.validation.ledgerSeq < seq)
  if !anyStale then (v,v.trie.getPreferred o)
  else
    let slow :=
      let preferred := (rebuildFresh o v.latest seq).getPreferred o
      ({ v with preferredCache := some (seq,v.generation,preferred) },preferred)
    match v.preferredCache with
    | some (cachedSeq,cachedGen,cachedHash) =>
      if cachedSeq=seq ∧ cachedGen=v.generation then (v,cachedHash) else slow
    | none => slow

/-- `prune_below`, with the number of evicted entries. -/
def pruneBelow (o : IterOrder) (v : ValidationsTrie) (seq : ℕ) : ValidationsTrie × ℕ :=
  let stale :=
    ((o.order v.latest.entries).filter fun x => decide (x.2.validation.ledgerSeq < seq)).map (·.1)
  let v := stale.foldl evict v
  (if stale.length > 0 then v.invalidateCache else v,stale.length)

inductive Call
  | addTrusted (node : NodeId)
  | removeTrusted (node : NodeId)
  | add (validation : Validation)
  | addWithParents (validation : Validation) (parentBranch : List Hash256)
  | pruneBelow (o : IterOrder) (seq : ℕ)
  | getPreferred (o : IterOrder) (seq : ℕ)

def call : Call → ValidationsTrie
  | .addTrusted node => v.addTrusted node
  | .removeTrusted node => v.removeTrusted node
  | .add validation => (v.add validation).1
  | .addWithParents validation parents => (v.addWithParents validation parents).1
  | .pruneBelow o seq => (v.pruneBelow o seq).1
  | .getPreferred o seq => (v.getPreferred o seq).1

def run (calls : List Call) : ValidationsTrie := calls.foldl call new

/-! ## The branches of the stored validations -/

def branches (latest : HashMap NodeId LatestEntry) : Multiset (List Hash256) :=
  Multiset.ofList (latest.values.map (·.branch))

def fresh (latest : HashMap NodeId LatestEntry) (seq : ℕ) : HashMap NodeId LatestEntry :=
  latest.retain fun _ e => decide (e.validation.ledgerSeq ≥ seq)

def rebuild (o : IterOrder) (latest : HashMap NodeId LatestEntry) : LedgerTrie :=
  (latest.iterValues o).foldl (fun t e => t.insert e.branch 1) .new

variable {latest : HashMap NodeId LatestEntry} {node : NodeId}

theorem branches_insert (latest : HashMap NodeId LatestEntry) (node : NodeId) (e : LatestEntry) :
    branches (latest.insert node e)=branches (latest.erase node)+replicate 1 e.branch := by
  rw [branches,values_insert,branches,replicate_one,add_comm]
  rfl

theorem branches_of_lookup {e : LatestEntry} (h : latest.lookup node=some e) :
    branches latest=branches (latest.erase node)+replicate 1 e.branch := by
  rw [replicate_one,add_comm]
  exact coe_eq_coe.mpr (((entries_perm_cons_erase h).map fun e => e.2).map _)

theorem card_branches (latest : HashMap NodeId LatestEntry) :
    (branches latest).card=latest.entries.length := by
  simp [branches]

theorem foldl_insert_holds {t : LedgerTrie} {M : Multiset (List Hash256)} (l : List LatestEntry)
    (h : t.Holds M) (hb : ∀ e∈l, e.branch≠[]) (hcard : M.card+l.length < 4294967296) :
    (l.foldl (fun t e => t.insert e.branch 1) t).Holds (M+ofList (l.map (·.branch))) := by
  induction l generalizing t M with
  | nil => simpa using h
  | cons e l ih =>
    have hlen : M.card+(l.length+1) < 4294967296 := by simpa using hcard
    have hone := h.insert (n := 1) (hb e (by simp)) (by simp; omega)
    have hrest := ih hone (fun e' he' => hb e' (List.mem_cons_of_mem _ he')) (by simp; omega)
    rw [List.foldl_cons]
    convert hrest using 1
    rw [replicate_one,List.map_cons,← cons_coe,add_assoc,singleton_add]

theorem rebuild_holds (o : IterOrder) (hb : ∀ e∈latest.values, e.branch≠[])
    (hcard : latest.entries.length < 4294967296) : (rebuild o latest).Holds (branches latest) := by
  have hperm := iterValues_perm o latest
  have hfold := foldl_insert_holds (latest.iterValues o) LedgerTrie.holds_new
    (fun e he => hb e (hperm.mem_iff.mp he)) (by simpa [hperm.length_eq] using hcard)
  have hsame : 0+ofList ((latest.iterValues o).map (·.branch))=branches latest := by
    rw [zero_add]
    exact coe_eq_coe.mpr (hperm.map _)
  rwa [hsame] at hfold

theorem values_fresh (latest : HashMap NodeId LatestEntry) (seq : ℕ) :
    (fresh latest seq).values=latest.values.filter fun e =>
      decide (e.validation.ledgerSeq ≥ seq) := by
  rw [fresh,values,retain,values,List.filter_map]
  rfl

theorem rebuildFresh_holds (o : IterOrder) (seq : ℕ) (hb : ∀ e∈latest.values, e.branch≠[])
    (hcard : latest.entries.length < 4294967296) :
    (rebuildFresh o latest seq).Holds (branches (fresh latest seq)) := by
  have hperm : ((latest.iterValues o).filter fun e => decide (e.validation.ledgerSeq ≥ seq)).Perm
      (fresh latest seq).values := by
    rw [values_fresh]
    exact (iterValues_perm o latest).filter _
  have hlen : (fresh latest seq).entries.length ≤ latest.entries.length := List.length_filter_le _ _
  have hfold :=
    foldl_insert_holds ((latest.iterValues o).filter fun e => decide (e.validation.ledgerSeq ≥ seq))
    LedgerTrie.holds_new
    (fun e he => hb e ((iterValues_perm o latest).mem_iff.mp (List.mem_of_mem_filter he)))
    (by rw [hperm.length_eq,length_values,card_zero]; omega)
  have hsame : 0+ofList (((latest.iterValues o).filter fun e =>
      decide (e.validation.ledgerSeq ≥ seq)).map (·.branch))=branches (fresh latest seq) := by
    rw [zero_add]
    exact coe_eq_coe.mpr (hperm.map _)
  rw [hsame,List.foldl_filter] at hfold
  simpa [rebuildFresh] using hfold

/-! ## The invariant -/

/-- The trie holds the branches of the entries, which belong to trusted validators. -/
structure Stored (v : ValidationsTrie) : Prop where
  holds : v.trie.Holds (branches v.latest)
  branch_ne_nil : ∀ e∈v.latest.values, e.branch≠[]
  mem_trusted : ∀ node∈v.latest, node∈v.trusted

/-- Also the memoised answer is the one for the entries. -/
structure Inv (v : ValidationsTrie) : Prop where
  stored : v.Stored
  memo : ∀ seq gen r, v.preferredCache=some (seq,gen,r) →
    Heaviest (branches (fresh v.latest seq)) r

variable {v : ValidationsTrie}

theorem Stored.length_le (h : v.Stored) : v.latest.entries.length ≤ v.trusted.card :=
    length_le_card h.mem_trusted

theorem Stored.invalidateCache (h : v.Stored) : v.invalidateCache.Inv :=
  ⟨⟨h.holds,h.branch_ne_nil,h.mem_trusted⟩,fun _ _ _ hc => by cases hc⟩

theorem Stored.holds_erase (h : v.Stored) {prev : LatestEntry}
    (hk : v.latest.lookup node=some prev) :
    (v.trie.remove prev.branch 1).1.Holds (branches (v.latest.erase node)) := by
  have hb := h.branch_ne_nil prev (mem_values_iff.mpr ⟨node,hk⟩)
  have hremove := h.holds.remove hb 1
  have hsame : branches v.latest-replicate (min 1 ((branches v.latest).count prev.branch))
    prev.branch =
      branches (v.latest.erase node) := by
    rw [branches_of_lookup hk]
    have hone :
      min 1 ((branches (v.latest.erase node)+replicate 1 prev.branch).count prev.branch)=1 := by
      simp
    rw [hone,add_tsub_cancel_right]
  rwa [hsame] at hremove

theorem mem_values_erase {e : LatestEntry} (h : e∈values (latest.erase node)) :
    e∈latest.values := by
  obtain ⟨k,hk⟩ := mem_values_iff.mp h
  apply mem_values_iff.mpr
  by_cases hkn : k=node
  · subst hkn
    rw [AList.lookup_erase] at hk
    cases hk
  · exact ⟨k,by rwa [AList.lookup_erase_ne hkn] at hk⟩

theorem Stored.evict (h : v.Stored) (node : NodeId) : (v.evict node).Stored := by
  unfold ValidationsTrie.evict
  split
  · rename_i prev hk
    exact ⟨h.holds_erase hk,fun e he => h.branch_ne_nil e (mem_values_erase he),
      fun k hk' => h.mem_trusted k (AList.mem_erase.mp hk').2⟩
  · exact h

theorem inv_removeTrusted (h : v.Inv) (node : NodeId) : (v.removeTrusted node).Inv := by
  have hs := h.stored
  unfold removeTrusted
  dsimp only
  split
  · rename_i prev hk
    apply Stored.invalidateCache
    simp only [evict,hk]
    refine ⟨hs.holds_erase hk,fun e he => hs.branch_ne_nil e (mem_values_erase he),fun k hk' => ?_⟩
    obtain ⟨hne,hmem⟩ := AList.mem_erase.mp hk'
    exact Finset.mem_erase.mpr ⟨hne,hs.mem_trusted k hmem⟩
  · rename_i hk
    refine ⟨⟨hs.holds,hs.branch_ne_nil,fun k hk' => ?_⟩,h.memo⟩
    refine Finset.mem_erase.mpr ⟨?_,hs.mem_trusted k hk'⟩
    rintro rfl
    exact AList.lookup_eq_none.mp hk hk'

theorem Stored.replace (h : v.Stored) (hcard : v.trusted.card < 4294967296)
    {validation : Validation}
    (ht : validation.nodeId∈v.trusted) (parents : List Hash256) :
      (v.replace validation parents).Stored := by
  have hmem :
    ∀ node∈v.latest.insert validation.nodeId ⟨validation,parents++[validation.ledgerHash]⟩,
      node∈v.trusted := by
    intro node hn
    rcases (AList.mem_insert v.latest).mp hn with rfl | hn
    · exact ht
    · exact h.mem_trusted node hn
  have hlen := (length_le_card hmem).trans_lt hcard
  have hbranch : parents++[validation.ledgerHash]≠[] := by simp
  -- the trie without the entry on file
  have hold : (match v.latest.lookup validation.nodeId with
      | some prev => (v.trie.remove prev.branch 1).1
      | none => v.trie).Holds (branches (v.latest.erase validation.nodeId)) := by
    split
    · rename_i prev hk
      exact h.holds_erase hk
    · rename_i hk
      rw [erase_eq_self hk]
      exact h.holds
  rw [← card_branches,branches_insert] at hlen
  refine ⟨?_,?_,hmem⟩
  · have := hold.insert hbranch hlen
    rwa [← branches_insert v.latest validation.nodeId ⟨validation,parents++[validation.ledgerHash]⟩]
      at this
  intro e he
  rw [show (v.replace validation parents).latest=v.latest.insert validation.nodeId
    ⟨validation,parents++[validation.ledgerHash]⟩ from rfl,values_insert] at he
  rcases List.mem_cons.mp he with rfl | he
  · exact hbranch
  · exact h.branch_ne_nil e (mem_values_erase he)

theorem inv_addWithParents (h : v.Inv) (hcard : v.trusted.card < 4294967296)
    (validation : Validation)
    (parents : List Hash256) : (v.addWithParents validation parents).1.Inv := by
  unfold addWithParents
  split
  · exact h
  rename_i ht
  have hreplace := (h.stored.replace hcard (not_not.mp ht) parents).invalidateCache
  split
  · split
    · exact h
    · exact hreplace
  · exact hreplace

theorem inv_pruneBelow (h : v.Inv) (o : IterOrder) (seq : ℕ) : (v.pruneBelow o seq).1.Inv := by
  have hfold : ∀ (l : List NodeId) (v : ValidationsTrie), v.Stored →
    (l.foldl ValidationsTrie.evict v).Stored := by
    intro l
    induction l with
    | nil => exact fun v hv => hv
    | cons node l ih => exact fun v hv => ih _ (hv.evict node)
  unfold pruneBelow
  dsimp only
  split
  · exact (hfold _ v h.stored).invalidateCache
  rename_i hlen
  have hnil :
    ((o.order v.latest.entries).filter fun x => decide (x.2.validation.ledgerSeq < seq)).map
    (·.1)=[] :=
    List.length_eq_zero_iff.mp (by omega)
  rw [hnil]
  exact h

/-- The answer of `get_preferred` is the heaviest path of the fresh branches, by the fast path,
the slow path and the memo alike. -/
theorem getPreferred_heaviest (h : v.Inv) (hcard : v.trusted.card < 4294967296) (o : IterOrder)
    (seq : ℕ) :
    Heaviest (branches (fresh v.latest seq)) (v.getPreferred o seq).2 ∧
      (v.getPreferred o seq).1.Inv := by
  have hslow :=
    (rebuildFresh_holds o seq h.stored.branch_ne_nil
    (h.stored.length_le.trans_lt hcard)).getPreferred o
  unfold getPreferred
  dsimp only
  split
  · rename_i hstale
    have hall : fresh v.latest seq=v.latest := by
      apply AList.ext
      apply List.filter_eq_self.mpr
      intro x hx
      have hx' : x.2∈v.latest.values := List.mem_map_of_mem hx
      simp only [Bool.not_eq_true',List.any_eq_false,decide_eq_true_eq,not_lt] at hstale
      exact decide_eq_true (hstale x.2 hx')
    rw [hall]
    exact ⟨h.stored.holds.getPreferred o,h⟩
  · have hmiss : Heaviest
      (branches (fresh v.latest seq)) ((rebuildFresh o v.latest seq).getPreferred o) ∧
        ({ v with preferredCache := some (seq,v.generation,
          (rebuildFresh o v.latest seq).getPreferred o) } :
          ValidationsTrie).Inv := by
      refine ⟨hslow,⟨h.stored.holds,h.stored.branch_ne_nil,h.stored.mem_trusted⟩,?_⟩
      intro seq' gen r hc
      cases hc
      exact hslow
    split
    · rename_i cachedSeq cachedGen cachedHash hc
      split
      · rename_i hhit
        obtain ⟨rfl,-⟩ := hhit
        exact ⟨h.memo _ _ _ hc,h⟩
      · exact hmiss
    · exact hmiss

theorem inv_call (h : v.Inv) (hcard : v.trusted.card < 4294967296) (c : Call) : (v.call c).Inv := by
  cases c with
  | addTrusted node =>
    exact ⟨⟨h.stored.holds,h.stored.branch_ne_nil,
      fun k hk => Finset.mem_insert_of_mem (h.stored.mem_trusted k hk)⟩,h.memo⟩
  | removeTrusted node => exact inv_removeTrusted h node
  | add validation => exact inv_addWithParents h hcard validation []
  | addWithParents validation parents => exact inv_addWithParents h hcard validation parents
  | pruneBelow o seq => exact inv_pruneBelow h o seq
  | getPreferred o seq => exact (getPreferred_heaviest h hcard o seq).2

theorem inv_run {calls : List Call}
    (hcard : ∀ pre, pre <+: calls → (run pre).trusted.card < 4294967296) : (run calls).Inv := by
  induction calls using List.reverseRecOn with
  | nil =>
    exact ⟨⟨LedgerTrie.holds_new,fun e he => (by cases he),fun k hk =>
      absurd hk (AList.notMem_empty k)⟩,
      fun _ _ _ hc => by cases hc⟩
  | append_singleton calls c ih =>
    have hprev := ih fun pre hp => hcard pre (hp.trans (List.prefix_append calls [c]))
    have hrun : run (calls++[c])=(run calls).call c := by simp [run]
    rw [hrun]
    exact inv_call hprev (hcard calls (List.prefix_append calls [c])) c

/-- As long as fewer than `2^32` validators are trusted, the persistent trie is the one rebuilt
from the stored entries, its support is one for each stored validator, all of them trusted,
and `get_preferred` is the preferred ledger of the trie of the fresh entries. -/
theorem trie_is_cache_of_latest {calls : List Call}
    (hcard : ∀ pre, pre <+: calls → (run pre).trusted.card < 4294967296) :
    (∀ o, (run calls).trie=rebuild o (run calls).latest) ∧
      ((run calls).trie.root.data.branchSupport=(run calls).latest.entries.length ∧
        ∀ node∈(run calls).latest, node∈(run calls).trusted) ∧
      ∀ o o' o'' seq, ((run calls).getPreferred o seq).2 =
        (rebuild o' (fresh (run calls).latest seq)).getPreferred o'' := by
  have hinv := inv_run hcard
  have hbound := hcard calls (List.prefix_refl _)
  have hlen := hinv.stored.length_le.trans_lt hbound
  refine ⟨?_,⟨?_,hinv.stored.mem_trusted⟩,?_⟩
  · intro o
    exact hinv.stored.holds.unique (rebuild_holds o hinv.stored.branch_ne_nil hlen)
  · rw [(TrieNode.represents_iff.mp hinv.stored.holds.represents).2.1,card_branches]
  intro o o' o'' seq
  have hfresh : ∀ e∈(fresh (run calls).latest seq).values, e.branch≠[] := by
    intro e he
    rw [values_fresh] at he
    exact hinv.stored.branch_ne_nil e (List.mem_of_mem_filter he)
  have hle : (fresh (run calls).latest seq).entries.length < 4294967296 :=
    (List.length_filter_le _ _).trans_lt hlen
  exact (getPreferred_heaviest hinv hbound o seq).1.unique
    ((rebuild_holds o' hfresh hle).getPreferred o'')

/-- Two validators, one of which moves to a later ledger, with a query in between. -/
def sampleCalls : List Call :=
  let validation (node hash seq : ℕ) : Validation :=
    ⟨⟨.ofNat node⟩,[],.ofNat hash,seq,true,0,seq⟩
  [.addTrusted ⟨.ofNat 1⟩,.addTrusted ⟨.ofNat 2⟩,.add (validation 1 10 5),
    .addWithParents (validation 2 11 6) [.ofNat 10],.getPreferred .listed 6,
    .addWithParents (validation 1 12 7) [.ofNat 10,.ofNat 11],.pruneBelow .listed 6]

theorem trie_is_cache_of_latest_sample :
    (run sampleCalls).trie=rebuild .listed (run sampleCalls).latest := by
  have hcard : ∀ pre∈sampleCalls.inits, (run pre).trusted.card < 4294967296 := by decide
  exact (trie_is_cache_of_latest fun pre hp =>
    hcard pre ((List.mem_inits pre sampleCalls).mpr hp)).1 .listed

end ValidationsTrie

end Rxrpl.Consensus
