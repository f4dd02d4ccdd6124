import Rxrpl.LedgerSync

/-!
# The walk for missing nodes

Two facts carry the sync. Whatever nodes the store holds, the memo only ever contains
hashes whose whole subtree is stored. And below the root of a genuine map, a walk that
finds nothing missing has seen everything, while a walk over a stored map finds nothing
missing.
-/

namespace Rxrpl

open RadixTrie

variable {sha : Sha512Half} {s : NodeStore} {S : Set Bytes}

/-- The node with the given hash is stored, and so is everything below it. -/
inductive Present (sha : Sha512Half) (s : NodeStore) : Hash256 → Prop
  | leaf {h : Hash256} {r : Bytes} {l : LeafNode sha} : s h=some r →
      deserializeNode .accountState r h=.ok (.leaf l) → Present sha s h
  | inner {h : Hash256} {r : Bytes} {n : InnerNode (SHAMapNode sha)} : s h=some r →
      deserializeNode .accountState r h=.ok (.inner n) →
      (∀ b, n.isBranch b=true → Present sha s (n.hashes b)) → Present sha s h

variable {h : Hash256} {kind : LeafKind} {n : InnerNode (SHAMapNode sha)} {r : Bytes}

theorem Present.mono {s' : NodeStore} (hp : Present sha s h) (he : s'.Extends s) :
    Present sha s' h := by
  induction hp with
  | leaf hr hd => exact .leaf (he _ _ hr) hd
  | inner hr hd _ ih => exact .inner (he _ _ hr) hd ih

theorem children_of_deserializeNode (hd : deserializeNode kind r h=.ok (.inner n)) :
    n.children=fun _ => none := by
  cases r with
  | nil => cases hd
  | cons tag body =>
    rw [deserializeNode] at hd
    split at hd
    · rename_i hbody
      cases hd
      exact children_loadChildHashes body hbody.2
    · split at hd <;> cases hd

theorem hash_of_deserializeNode (hd : deserializeNode kind r h=.ok (.inner n)) : n.hash=h := by
  cases r with
  | nil => cases hd
  | cons tag body =>
    rw [deserializeNode] at hd
    split at hd
    · cases hd
      rfl
    · split at hd <;> cases hd

theorem SHAMap.missingNodes_inner {m : SHAMap sha} (hroot : m.root=.inner n)
    (hempty : m.isEmpty=false) {k : ℕ} (hk : k≠0) (target : Hash256) (complete : Finset Hash256) :
    let r := SHAMap.collectMissing m.store m.kind k 64 0 .zero n ⟨[],complete⟩
    m.missingNodes target k complete =
      (r.1.out,if r.2 then (r.1.memoize (n.getHash sha)).complete else r.1.complete) := by
  intro r
  rw [SHAMap.missingNodes,if_neg hk,hempty,hroot]
  simp only [Bool.false_eq_true,if_false]
  change ((if r.2=true then r.1.memoize (n.getHash sha) else r.1).out,_)=_
  cases r.2 <;> rfl

/-- Every subtree of the memo is stored. -/
def MemoOk (sha : Sha512Half) (s : NodeStore) (complete : Finset Hash256) : Prop :=
  ∀ h∈complete, Present sha s h

theorem MemoOk.memoize {w : Walk} (hw : MemoOk sha s w.complete) (hp : Present sha s h) :
    MemoOk sha s (w.memoize h).complete := by
  intro h' hh'
  rcases Finset.mem_insert.mp hh' with rfl | hh'
  · exact hp
  · exact hw h' hh'

section

variable {k : ℕ}

/-- What a walk below an inner node achieves: it keeps the memo right, and if it reports
the subtree whole then it is. -/
def WalkSound (s : NodeStore) (walk : Hash256 → InnerNode (SHAMapNode sha) → Walk → Walk × Bool) :
    Prop :=
  ∀ path n w, n.children=(fun _ => none) → MemoOk sha s w.complete →
    MemoOk sha s (walk path n w).1.complete ∧
      ((walk path n w).2=true → ∀ b, n.isBranch b=true → Present sha s (n.hashes b))

variable {n : InnerNode (SHAMapNode sha)} {w : Walk}

theorem resolveChild_eq (hn : n.children=fun _ => none) (b : Fin 16) :
    SHAMap.resolveChild (some s) .accountState n b =
      (s (n.hashes b)).map fun data => deserializeNode .accountState data (n.hashes b) := by
  simp [SHAMap.resolveChild,hn]

theorem collectBranch_sound {descend : Hash256 → InnerNode (SHAMapNode sha) → Walk → Walk × Bool}
    (hdesc : WalkSound s descend) (depth : ℕ) (path : Hash256) (hn : n.children=fun _ => none)
    (b : Fin 16) (hw : MemoOk sha s w.complete) :
      let r := SHAMap.collectBranch (some s) .accountState descend depth path n b w
    MemoOk sha s r.1.complete ∧ (r.2=true → Present sha s (n.hashes b)) := by
  simp only [SHAMap.collectBranch,resolveChild_eq hn]
  split
  · rename_i hmem
    exact ⟨hw,fun _ => hw _ hmem⟩
  cases hfetch : s (n.hashes b) with
  | none => exact ⟨hw,by simp⟩
  | some r =>
    simp only [Option.map_some]
    cases hd : (deserializeNode .accountState r (n.hashes b) : Except SHAMapError (SHAMapNode sha))
      with
    | error e => exact ⟨hw,by simp⟩
    | ok x =>
      cases x with
      | leaf l =>
        have hp : Present sha s (n.hashes b) := .leaf hfetch hd
        exact ⟨hw.memoize hp,fun _ => hp⟩
      | inner i =>
        obtain ⟨hmemo,hall⟩ := hdesc (childKey path depth b) i w (children_of_deserializeNode hd) hw
        simp only
        cases hwalk : (descend (childKey path depth b) i w).2 with
        | false => exact ⟨by simpa using hmemo,by simp⟩
        | true =>
          have hp : Present sha s (n.hashes b) := .inner hfetch hd (hall hwalk)
          exact ⟨by simpa using hmemo.memoize hp,fun _ => hp⟩

theorem collectBranches_sound {collect : Fin 16 → Walk → Walk × Bool} {good : Fin 16 → Prop}
    (hcollect : ∀ b w, MemoOk sha s w.complete →
      MemoOk sha s (collect b w).1.complete ∧ ((collect b w).2=true → good b)) (bs : List (Fin 16))
        (whole : Bool)
    (hw : MemoOk sha s w.complete) : let r := SHAMap.collectBranches k collect bs whole w
    MemoOk sha s r.1.complete ∧ (r.2=true → whole=true ∧ ∀ b∈bs, good b) := by
  induction bs generalizing whole w with
  | nil => simpa [SHAMap.collectBranches] using hw
  | cons b bs ih =>
    simp only [SHAMap.collectBranches]
    split
    · exact ⟨hw,by simp⟩
    obtain ⟨hmemo,hb⟩ := hcollect b w hw
    obtain ⟨hmemo',hall⟩ := ih (whole && (collect b w).2) hmemo
    refine ⟨hmemo',fun h => ?_⟩
    obtain ⟨hwhole,hbs⟩ := hall h
    rw [Bool.and_eq_true] at hwhole
    exact ⟨hwhole.1,List.forall_mem_cons.mpr ⟨hb hwhole.2,hbs⟩⟩

theorem collectMissing_sound (left depth : ℕ) :
    WalkSound s (@SHAMap.collectMissing sha (some s) .accountState k left depth) := by
  induction left generalizing depth with
  | zero => exact fun _ _ w _ hw => ⟨hw,by simp [SHAMap.collectMissing]⟩
  | succ left ih =>
    intro path n w hn hw
    obtain ⟨hmemo,hall⟩ := collectBranches_sound (k := k)
      (fun b w hw => collectBranch_sound (ih (depth+1)) depth path hn b hw) n.branches true hw
    refine ⟨hmemo,fun h b hb => (hall h).2 b ?_⟩
    simpa [InnerNode.branches] using hb

end

/-! ## Below a genuine root -/

section

variable {k : ℕ}

variable {b : Fin 16} {c : Fin 16 → KeyTrie} {collect : Fin 16 → Walk → Walk × Bool} {left : ℕ}
  {t : KeyTrie}

theorem KeyTrie.contents_child (h : KeyTrie.contents sha .accountState (.node c)⊆S) :
    (c b).contents sha .accountState⊆S := fun _ hstr => h (Or.inr ⟨b,hstr⟩)

theorem Authentic.record_eq (hs : Authentic sha S s) (hS : CollisionFree sha S) (ht : t≠.empty)
    (hc : t.contents sha .accountState⊆S) {r : Bytes} (hr : s (t.hash sha .accountState)=some r) :
    r=t.record sha .accountState := by
  rw [KeyTrie.hash_eq_content ht] at hr
  exact hs.fetch_eq hS (hc (KeyTrie.content_mem_contents ht)) (KeyTrie.describes ht) hr

theorem CollisionFree.hash_ne_zero (hS : CollisionFree sha S) (ht : t≠.empty)
    (hc : t.contents sha .accountState⊆S) : t.hash sha .accountState≠.zero := by
  rw [KeyTrie.hash_eq_content ht]
  exact hS.ne_zero _ (hc (KeyTrie.content_mem_contents ht))

/-- What is present under the hash of a genuine trie is that trie. -/
theorem Present.inStore (hs : Authentic sha S s) (hS : CollisionFree sha S) (ht : t≠.empty)
    (hc : t.contents sha .accountState⊆S) (hp : Present sha s (t.hash sha .accountState)) :
    t.InStore sha .accountState s := by
  have hz := hS.hash_ne_zero ht hc
  induction t with
  | empty => exact absurd rfl ht
  | leaf a v =>
    refine ⟨hz,?_⟩
    cases hp with
    | leaf hr _ => rw [hr,hs.record_eq hS ht hc hr]
    | inner hr _ _ => rw [hr,hs.record_eq hS ht hc hr]
  | node c ih =>
    cases hp with
    | leaf hr hd =>
      obtain rfl := hs.record_eq hS ht hc hr
      rw [KeyTrie.record,deserializeNode_inner] at hd
      cases hd
    | inner hr hd hchildren =>
      obtain rfl := hs.record_eq hS ht hc hr
      rw [KeyTrie.record,deserializeNode_inner] at hd
      cases hd
      refine ⟨hz,hr,fun b => ?_⟩
      by_cases hb : c b=.empty
      · rw [hb]
        trivial
      · have hzb := hS.hash_ne_zero hb (KeyTrie.contents_child hc)
        refine ih b hb (KeyTrie.contents_child hc) (hchildren b ?_) hzb
        simpa [InnerNode.shell,Bool.eq_false_iff,Hash256.isZero_iff] using hzb

theorem collectBranches_exact (hk : 1 ≤ k) (bs : List (Fin 16))
    (hcollect : ∀ b∈bs, ∀ w, (collect b w).1.out=[] → w.out=[] ∧ (collect b w).2=true)
    (whole : Bool) (w : Walk) (hout : (SHAMap.collectBranches k collect bs whole w).1.out=[]) :
    w.out=[] ∧ (SHAMap.collectBranches k collect bs whole w).2=whole := by
  induction bs generalizing whole w with
  | nil => exact ⟨hout,rfl⟩
  | cons b bs ih =>
    simp only [SHAMap.collectBranches] at hout ⊢
    split at hout
    · rename_i hfull
      rw [hout] at hfull
      simp at hfull
      omega
    · rename_i hfull
      obtain ⟨hout',hwhole⟩ := ih (fun b' hb' => hcollect b' (List.mem_cons_of_mem _ hb')) _ _ hout
      obtain ⟨hw,hb⟩ := hcollect b List.mem_cons_self w hout'
      rw [if_neg hfull]
      refine ⟨hw,hwhole.trans ?_⟩
      rw [hb,Bool.and_true]

theorem collectBranches_nil (bs : List (Fin 16))
    (hcollect : ∀ b∈bs, ∀ w, w.out=[] → (collect b w).1.out=[]) (whole : Bool) (w : Walk)
    (hw : w.out=[]) :
      (SHAMap.collectBranches k collect bs whole w).1.out=[] := by
  induction bs generalizing whole w with
  | nil => exact hw
  | cons b bs ih =>
    simp only [SHAMap.collectBranches]
    split
    · exact hw
    · exact ih (fun b' hb' => hcollect b' (List.mem_cons_of_mem _ hb')) _ _
        (hcollect b List.mem_cons_self w hw)

theorem mem_branches_shell {ν : Type} {h : Hash256}
    (hb : b∈(InnerNode.shell (fun b => (c b).hash sha .accountState) h : InnerNode ν).branches) :
      c b≠.empty := by
  intro he
  simp [InnerNode.branches,InnerNode.shell,he,KeyTrie.hash,Hash256.isZero_iff.mpr] at hb

/-- A walk below a genuine node that finds nothing missing has seen everything. -/
theorem collectMissing_exact (hs : Authentic sha S s) (hS : CollisionFree sha S) (hk : 1 ≤ k)
    {p : List (Fin 16)} (hcan : ∀ b, Canonical selectBranch (p++[b]) (c b))
    (hc : ∀ b, (c b).contents sha .accountState⊆S) (hp : p.length < 64) (hleft : left+p.length=64)
    (path h : Hash256) (w : Walk) :
    let r := SHAMap.collectMissing (some s) .accountState k left p.length path
      (.shell (fun b => (c b).hash sha .accountState) h : InnerNode (SHAMapNode sha)) w
    r.1.out=[] → w.out=[] ∧ r.2=true := by
  induction left generalizing p c path h w with
  | zero => omega
  | succ left ih =>
    refine collectBranches_exact hk _ (fun b hb w hout => ?_) true w
    have he := mem_branches_shell hb
    simp only [SHAMap.collectBranch,resolveChild_eq (s := s) (n := .shell _ h) rfl] at hout ⊢
    split at hout
    · rename_i hmem
      rw [if_pos hmem]
      exact ⟨hout,rfl⟩
    rename_i hmem
    rw [if_neg hmem]
    simp only [InnerNode.shell] at hout ⊢
    cases hfetch : s ((c b).hash sha .accountState) with
    | none => simp [hfetch] at hout
    | some r =>
      obtain rfl := hs.record_eq hS he (hc b) hfetch
      simp only [hfetch,Option.map_some] at hout ⊢
      cases hcb : c b with
      | empty => exact absurd hcb he
      | leaf a v =>
        simp only [hcb,KeyTrie.record,deserializeNode_leaf] at hout ⊢
        exact ⟨hout,trivial⟩
      | node c' =>
        have hcan' := hcan b
        have hc' := hc b
        rw [hcb] at hcan' hc'
        have hlt := hcan'.length_lt selectBranch_separates
        have hl : (p++[b]).length=p.length+1 := by simp
        have hih := ih hcan'.1 (fun b' => KeyTrie.contents_child hc') hlt (by omega)
          (childKey path p.length b)
          (KeyTrie.hash sha .accountState (.node c')) w
        rw [hl] at hih
        simp only [hcb,KeyTrie.record,deserializeNode_inner] at hout ⊢
        have hout' :
          (SHAMap.collectMissing (some s) .accountState k left (p.length+1)
          (childKey path p.length b)
            (.shell (fun b => KeyTrie.hash sha .accountState (c' b))
              (KeyTrie.hash sha .accountState (.node c')) :
              InnerNode (SHAMapNode sha)) w).1.out=[] := by
          split at hout <;> exact hout
        exact hih hout'

theorem collectMissing_nil (hc : ∀ b, (c b).InStore sha .accountState s) (depth : ℕ)
    (path h : Hash256) (w : Walk)
    (hw : w.out=[]) : (SHAMap.collectMissing (some s) .accountState k left depth path
      (.shell (fun b => (c b).hash sha .accountState) h : InnerNode (SHAMapNode sha))
        w).1.out=[] := by
  induction left generalizing c depth path h w with
  | zero => exact hw
  | succ left ih =>
    refine collectBranches_nil _ (fun b hb w hw => ?_) true w hw
    have he := mem_branches_shell hb
    simp only [SHAMap.collectBranch,resolveChild_eq (s := s) (n := .shell _ h) rfl]
    split
    · exact hw
    simp only [InnerNode.shell,(hc b).fetch_eq he,Option.map_some]
    have hcb' := hc b
    cases hcb : c b with
    | empty => exact absurd hcb he
    | leaf a v =>
      simp only [KeyTrie.record,deserializeNode_leaf]
      exact hw
    | node c' =>
      rw [hcb] at hcb'
      simp only [KeyTrie.record,deserializeNode_inner]
      have hih := ih hcb'.2.2 (depth+1) (childKey path depth b)
        (KeyTrie.hash sha .accountState (.node c')) w hw
      split <;> exact hih

end

end Rxrpl
