import Mathlib.Data.List.FinRange
import Mathlib.Order.Bounds.Basic

/-!
# Canonical radix tries

A trie over digit sequences of a fixed length `L`. Leaves keep their full key and sit as
high as their key allows: an internal node that is not the root has at least two keys
below it. The canonical form is unique, so a trie is determined by the finite map it
stores.
-/

namespace Rxrpl

open Function List

/-- A radix trie of arity `r`. An absent child is `empty`, so that a node is a total
function on its digits. -/
inductive RadixTrie (r : ℕ) (κ ν : Type*) where
  | empty
  | leaf (key : κ) (value : ν)
  | node (children : Fin r → RadixTrie r κ ν)

namespace RadixTrie

variable {r L : ℕ} {κ ν : Type*} [DecidableEq κ] {digit : κ → ℕ → Fin r}

def path (digit : κ → ℕ → Fin r) (k : κ) (n : ℕ) : List (Fin r) := (List.range n).map (digit k)

omit [DecidableEq κ] in
@[simp] theorem length_path (k : κ) (n : ℕ) : (path digit k n).length=n := by simp [path]

omit [DecidableEq κ] in
theorem path_succ (k : κ) (n : ℕ) : path digit k (n+1)=path digit k n++[digit k n] := by
  simp [path,range_succ]

variable {a k k' : κ} {b : Fin r} {c : Fin r → RadixTrie r κ ν} {d i m n : ℕ} {p : List (Fin r)}
  {t : RadixTrie r κ ν} {v w : ν}

omit [DecidableEq κ] in
theorem path_succ_eq_iff : path digit k (p.length+1)=p++[b] ↔ path digit k p.length=p ∧
    digit k p.length=b := by
  rw [path_succ]
  constructor
  · intro h
    obtain ⟨hp,hb⟩ := append_inj h (by simp)
    exact ⟨hp,by simpa using hb⟩
  · rintro ⟨hp,rfl⟩
    rw [hp]

omit [DecidableEq κ] in
theorem digit_eq_of_path_eq (h : path digit k n=path digit k' n) (hi : i < n) :
    digit k i=digit k' i := by
  have hg := congrArg (·[i]?) h
  simpa [path,hi] using hg

omit [DecidableEq κ] in
theorem path_eq_of_digit_eq (h : ∀ i < n, digit k i=digit k' i) :
    path digit k n=path digit k' n := by
  apply map_congr_left
  intro i hi
  exact h i (mem_range.mp hi)

omit [DecidableEq κ] in
theorem take_path (k : κ) (h : m ≤ n) : (path digit k n).take m=path digit k m := by
  rw [path,← map_take,take_range,Nat.min_eq_left h,path]

omit [DecidableEq κ] in
theorem path_eq_of_le (h : path digit k n=path digit k' n) (hm : m ≤ n) :
    path digit k m=path digit k' m :=
  path_eq_of_digit_eq fun _ hi => digit_eq_of_path_eq h (hi.trans_le hm)

/-- Keys are told apart by their first `L` digits. -/
def Separates (digit : κ → ℕ → Fin r) (L : ℕ) : Prop :=
  ∀ k k', path digit k L=path digit k' L → k=k'

omit [DecidableEq κ] in
theorem Separates.exists_digit_ne (hs : Separates digit L) (hp : path digit k d=path digit k' d)
    (hk : k≠k') : ∃ i, d ≤ i ∧ i < L ∧ digit k i≠digit k' i := by
  by_contra hn
  push Not at hn
  refine hk (hs _ _ (path_eq_of_digit_eq fun i hi => ?_))
  rcases Nat.lt_or_ge i d with hd | hd
  · exact digit_eq_of_path_eq hp hd
  · exact hn i hd hi

/-! ## Operations -/

/-- The value stored for `k` in a trie whose root is at depth `d`. -/
def lookup (digit : κ → ℕ → Fin r) (k : κ) : ℕ → RadixTrie r κ ν → Option ν
  | _, .empty => none
  | _, .leaf k' v => if k'=k then some v else none
  | d, .node c => lookup digit k (d+1) (c (digit k d))

/-- The depth of the leaf of `k`, if there is one. -/
def depthOf (digit : κ → ℕ → Fin r) (k : κ) : ℕ → RadixTrie r κ ν → Option ℕ
  | _, .empty => none
  | d, .leaf k' _ => if k'=k then some d else none
  | d, .node c => depthOf digit k (d+1) (c (digit k d))

def toList : RadixTrie r κ ν → List (κ × ν)
  | .empty => []
  | .leaf k v => [(k,v)]
  | .node c => (List.finRange r).flatMap fun b => (c b).toList

/-- The children with one of them set and every other one absent. -/
def single (b : Fin r) (t : RadixTrie r κ ν) : Fin r → RadixTrie r κ ν :=
  Function.update (fun _ => .empty) b t

/-- Two leaves under a common prefix of length `d`, separated at their first
different digit; `n` bounds the number of levels. -/
def fork (digit : κ → ℕ → Fin r) (a : κ) (v : ν) (b : κ) (w : ν) : ℕ → ℕ → RadixTrie r κ ν
  | 0, _ => .empty
  | n+1, d =>
    if digit a d=digit b d then .node (single (digit a d) (fork digit a v b w n (d+1)))
    else .node (Function.update (single (digit a d) (.leaf a v)) (digit b d) (.leaf b w))

def insert (digit : κ → ℕ → Fin r) (L : ℕ) (k : κ) (v : ν) : ℕ → RadixTrie r κ ν → RadixTrie r κ ν
  | _, .empty => .leaf k v
  | d, .leaf k' v' => if k'=k then .leaf k v else fork digit k' v' k v (L-d) d
  | d, .node c => .node (Function.update c (digit k d) (insert digit L k v (d+1) (c (digit k d))))

def isEmpty : RadixTrie r κ ν → Bool
  | .empty => true
  | _ => false

/-- The digits with a present child, in increasing order. -/
def support (c : Fin r → RadixTrie r κ ν) : List (Fin r) := (List.finRange r).filter fun b =>
    !(c b).isEmpty

/-- A node without children disappears and a node over a single leaf is replaced by
that leaf; every other node stays. -/
def collapse (c : Fin r → RadixTrie r κ ν) : RadixTrie r κ ν :=
  match support c with
  | [] => .empty
  | [b] => match c b with
    | .leaf k v => .leaf k v
    | _ => .node c
  | _ => .node c

def erase (digit : κ → ℕ → Fin r) (k : κ) : ℕ → RadixTrie r κ ν → RadixTrie r κ ν
  | _, .empty => .empty
  | _, .leaf k' v => if k'=k then .empty else .leaf k' v
  | d, .node c => collapse (Function.update c (digit k d) (erase digit k (d+1) (c (digit k d))))

/-! ## The canonical form -/

/-- At least two keys below: two present children, or one that is itself a node. -/
def Branching (c : Fin r → RadixTrie r κ ν) : Prop :=
  (∃ b c', c b=.node c') ∨ ∃ b b', b≠b' ∧ c b≠.empty ∧ c b'≠.empty

/-- Every leaf lies on its own path and every node branches. -/
def Canonical (digit : κ → ℕ → Fin r) : List (Fin r) → RadixTrie r κ ν → Prop
  | _, .empty => True
  | p, .leaf k _ => path digit k p.length=p
  | p, .node c => (∀ b, Canonical digit (p++[b]) (c b)) ∧ Branching c

theorem eq_of_lookup_leaf {v' : ν} (h : lookup digit k d (.leaf k' v')=some v) : k'=k ∧ v'=v := by
  simpa [lookup] using h

theorem lookup_node : lookup digit k d (.node c)=lookup digit k (d+1) (c (digit k d)) := rfl

omit [DecidableEq κ] in
@[simp] theorem isEmpty_eq_true_iff : t.isEmpty=true ↔ t=.empty := by
  cases t <;> simp [isEmpty]

omit [DecidableEq κ] in
@[simp] theorem isEmpty_eq_false_iff : t.isEmpty=false ↔ t≠.empty := by
  cases t <;> simp [isEmpty]

omit [DecidableEq κ] in
@[simp] theorem mem_support : b∈support c ↔ c b≠.empty := by
  simp [support]

omit [DecidableEq κ] in
@[simp] theorem single_self (b : Fin r) (t : RadixTrie r κ ν) : single b t b=t := by simp [single]

omit [DecidableEq κ] in
theorem single_of_ne {b' : Fin r} (t : RadixTrie r κ ν) (h : b'≠b) : single b t b'=.empty := by
  simp [single,h]

theorem Canonical.path_of_lookup (ht : Canonical digit p t) (hk : lookup digit k p.length t=some v)
    (q : List (Fin r)) (hq : q <+: p) : path digit k q.length=q := by
  induction t generalizing p with
  | empty => simp [lookup] at hk
  | leaf k' v' =>
    simp only [lookup] at hk
    split_ifs at hk
    subst k'
    obtain ⟨s,rfl⟩ := hq
    have h : path digit k (q++s).length=q++s := ht
    have hl := congrArg (take q.length) h
    rwa [take_path k (by simp),take_left'] at hl
    rfl
  | node c ih =>
    rw [lookup_node] at hk
    refine ih (digit k p.length) (ht.1 _) (by simpa using hk) (hq.trans (prefix_append _ _))

theorem Canonical.path_eq (ht : Canonical digit p t) (hk : lookup digit k p.length t=some v) :
    path digit k p.length=p := ht.path_of_lookup hk p prefix_rfl

theorem Canonical.exists_keys (ht : Canonical digit p t) :
    (t≠.empty → ∃ k v, lookup digit k p.length t=some v) ∧
      ∀ c, t=.node c → ∃ k v k' v', k≠k' ∧ lookup digit k p.length t=some v ∧
        lookup digit k' p.length t=some v' := by
  induction t generalizing p with
  | empty => simp
  | leaf k v => exact ⟨fun _ => ⟨k,v,by simp [lookup]⟩,by simp⟩
  | node c ih =>
    -- a key of the child `b` is a key of the node: its digit at this depth is `b`
    have hlift : ∀ b k v, lookup digit k (p++[b]).length (c b)=some v →
        lookup digit k p.length (.node c)=some v ∧ digit k p.length=b := by
      intro b k v hk
      have hp := (ht.1 b).path_eq hk
      rw [length_append,length_singleton] at hp hk
      obtain ⟨-,hb⟩ := path_succ_eq_iff.mp hp
      subst hb
      exact ⟨hk,rfl⟩
    have two : ∃ k v k' v', k≠k' ∧ lookup digit k p.length (.node c)=some v ∧
        lookup digit k' p.length (.node c)=some v' := by
      rcases ht.2 with ⟨b,c',hb⟩ | ⟨b,b',hne,hb,hb'⟩
      · obtain ⟨k,v,k',v',hkk,hk,hk'⟩ := (ih b (ht.1 b)).2 c' hb
        exact ⟨k,v,k',v',hkk,(hlift b k v hk).1,(hlift b k' v' hk').1⟩
      obtain ⟨k,v,hk⟩ := (ih b (ht.1 b)).1 hb
      obtain ⟨k',v',hk'⟩ := (ih b' (ht.1 b')).1 hb'
      refine ⟨k,v,k',v',?_,(hlift b k v hk).1,(hlift b' k' v' hk').1⟩
      rintro rfl
      exact hne ((hlift b k v hk).2.symm.trans (hlift b' k v' hk').2)
    refine ⟨fun _ => ?_,fun _ _ => two⟩
    obtain ⟨k,v,-,-,-,hk,-⟩ := two
    exact ⟨k,v,hk⟩

theorem Canonical.ext {t' : RadixTrie r κ ν} (ht : Canonical digit p t) (ht' : Canonical digit p t')
    (h : ∀ k, path digit k p.length=p → lookup digit k p.length t=lookup digit k p.length t') :
      t=t' := by
  -- a key found in one trie lies on the path, so it is found in the other one as well
  have hforth : ∀ k v, lookup digit k p.length t=some v → lookup digit k p.length t'=some v :=
    fun k v hk => (h k (ht.path_eq hk)).symm.trans hk
  have hback : ∀ k v, lookup digit k p.length t'=some v → lookup digit k p.length t=some v :=
    fun k v hk => (h k (ht'.path_eq hk)).trans hk
  induction t generalizing p t' with
  | empty =>
    by_contra hne
    obtain ⟨k,v,hk⟩ := ht'.exists_keys.1 (Ne.symm hne)
    simpa [lookup] using hback k v hk
  | leaf k v =>
    have hk := hforth k v (by simp [lookup])
    cases t' with
    | empty => simp [lookup] at hk
    | leaf k' v' =>
      simp only [lookup] at hk
      split_ifs at hk
      simp_all
    | node c' =>
      obtain ⟨a,va,b,vb,hab,ha,hb⟩ := ht'.exists_keys.2 c' rfl
      have ha' := hback a va ha
      have hb' := hback b vb hb
      simp only [lookup,ite_eq_iff,Option.some.injEq,reduceCtorEq,and_false,or_false] at ha' hb'
      exact absurd (ha'.1.symm.trans hb'.1) hab
  | node c ih =>
    obtain ⟨a,va,b,vb,hab,ha,hb⟩ := ht.exists_keys.2 c rfl
    have ha' := hforth a va ha
    have hb' := hforth b vb hb
    cases t' with
    | empty => simp [lookup] at ha'
    | leaf k' v' =>
      simp only [lookup,ite_eq_iff,Option.some.injEq,reduceCtorEq,and_false,or_false] at ha' hb'
      exact absurd (ha'.1.symm.trans hb'.1) hab
    | node c' =>
      congr 1
      funext d
      have hd : ∀ k, path digit k (p++[d]).length=p++[d] →
          lookup digit k (p++[d]).length (c d)=lookup digit k (p++[d]).length (c' d) := by
        intro k hk
        rw [length_append,length_singleton] at hk ⊢
        obtain ⟨hp,rfl⟩ := path_succ_eq_iff.mp hk
        exact h k hp
      exact ih d (ht.1 d) (ht'.1 d) hd (fun k v hk => (hd k ((ht.1 d).path_eq hk)).symm.trans hk)
        (fun k v hk => (hd k ((ht'.1 d).path_eq hk)).trans hk)

/-- Nodes are shallower than the length of the keys. -/
theorem Canonical.length_lt (hs : Separates digit L) (ht : Canonical digit p (.node c)) :
    p.length < L := by
  obtain ⟨k,v,k',v',hne,hk,hk'⟩ := ht.exists_keys.2 c rfl
  obtain ⟨i,hi,hL,-⟩ := hs.exists_digit_ne ((ht.path_eq hk).trans (ht.path_eq hk').symm) hne
  omega

/-! ## Insertion -/

theorem lookup_fork {b : κ} (hd : d ≤ i) (hn : i < d+n) (hi : digit a i≠digit b i) (k : κ) :
    lookup digit k d (fork digit a v b w n d)=if a=k then some v else if b=k then some w
      else none := by
  induction n generalizing d with
  | zero => omega
  | succ n ih =>
    simp only [fork]
    split
    · rename_i he
      have hdi : d≠i := by rintro rfl; exact hi he
      rw [lookup_node]
      by_cases hk : digit k d=digit a d
      · rw [hk,single_self,ih (by omega) (by omega)]
      rw [single_of_ne _ hk]
      have hak : a≠k := by rintro rfl; exact hk rfl
      have hbk : b≠k := by rintro rfl; exact hk he.symm
      simp [lookup,hak,hbk]
    · rename_i he
      rw [lookup_node]
      by_cases hkb : digit k d=digit b d
      · have hak : a≠k := by rintro rfl; exact he hkb
        simp [hkb,lookup,hak]
      rw [update_of_ne hkb]
      have hbk : b≠k := by rintro rfl; exact hkb rfl
      by_cases hka : digit k d=digit a d
      · simp [hka,lookup,hbk]
      · have hak : a≠k := by rintro rfl; exact hka rfl
        simp [single_of_ne _ hka,lookup,hak,hbk]

omit [DecidableEq κ] in
theorem canonical_single (ht : Canonical digit (p++[b]) t) (b' : Fin r) :
    Canonical digit (p++[b']) (single b t b') := by
  by_cases h : b'=b
  · subst h
    rwa [single_self]
  · rw [single_of_ne _ h]
    trivial

omit [DecidableEq κ] in
theorem canonical_fork {b : κ} (ha : path digit a p.length=p) (hb : path digit b p.length=p)
    (hd : p.length ≤ i) (hn : i < p.length+n) (hi : digit a i≠digit b i) :
    ∃ c, fork digit a v b w n p.length=.node c ∧ Canonical digit p (.node c) := by
  induction n generalizing p with
  | zero => omega
  | succ n ih =>
    simp only [fork]
    split
    · rename_i he
      have hdi : p.length≠i := by rintro rfl; exact hi he
      have hl : (p++[digit a p.length]).length=p.length+1 := by simp
      obtain ⟨c,hc,hcan⟩ := ih (p := p++[digit a p.length])
        (by rw [hl]; exact path_succ_eq_iff.mpr ⟨ha,rfl⟩)
        (by rw [hl]; exact path_succ_eq_iff.mpr ⟨hb,he.symm⟩) (by omega) (by omega)
      rw [hl] at hc
      refine ⟨_,rfl,canonical_single (by rwa [hc]),Or.inl ⟨digit a p.length,c,?_⟩⟩
      rw [single_self,hc]
    · rename_i he
      refine ⟨_,rfl,fun b' => ?_,Or.inr ⟨digit a p.length,digit b p.length,he,?_,?_⟩⟩
      · by_cases h : b'=digit b p.length
        · subst h
          rw [update_self]
          show path digit b _=_
          rw [length_append,length_singleton]
          exact path_succ_eq_iff.mpr ⟨hb,rfl⟩
        · rw [update_of_ne h]
          apply canonical_single
          show path digit a _=_
          rw [length_append,length_singleton]
          exact path_succ_eq_iff.mpr ⟨ha,rfl⟩
      · simp [update_of_ne he]
      · simp

theorem Canonical.lookup_insert (hs : Separates digit L) (ht : Canonical digit p t) (v : ν)
    (hk : path digit k p.length=p) (k' : κ) :
      lookup digit k' p.length (insert digit L k v p.length t) =
      if k=k' then some v else lookup digit k' p.length t := by
  induction t generalizing p with
  | empty => simp [insert,lookup]
  | leaf a w =>
    simp only [insert]
    split
    · rename_i he
      subst he
      simp only [lookup]
      split <;> rfl
    · rename_i he
      have hpa : path digit a p.length=p := ht
      obtain ⟨i,hi,hL,hne⟩ := hs.exists_digit_ne (hpa.trans hk.symm) he
      rw [lookup_fork hi (by omega) hne]
      simp only [lookup]
      by_cases hak : a=k'
      · subst hak
        simp [Ne.symm he]
      · simp [hak]
  | node c ih =>
    simp only [insert,lookup_node]
    by_cases hd : digit k' p.length=digit k p.length
    · rw [hd,update_self]
      have h := ih (digit k p.length) (ht.1 _) (by simpa using path_succ_eq_iff.mpr ⟨hk,rfl⟩)
      simpa using h
    · rw [update_of_ne hd]
      have hne : k≠k' := by rintro rfl; exact hd rfl
      simp [hne]

theorem insert_ne_empty (hs : Separates digit L) (ht : Canonical digit p t)
    (hk : path digit k p.length=p) : insert digit L k v p.length t≠.empty := by
  intro he
  have h := ht.lookup_insert hs v hk k
  rw [he] at h
  simp [lookup] at h

theorem Canonical.insert (hs : Separates digit L) (ht : Canonical digit p t) (v : ν)
    (hk : path digit k p.length=p) : Canonical digit p (insert digit L k v p.length t) := by
  induction t generalizing p with
  | empty => exact hk
  | leaf a w =>
    simp only [RadixTrie.insert]
    split
    · exact hk
    rename_i he
    have hpa : path digit a p.length=p := ht
    obtain ⟨i,hi,hL,hne⟩ := hs.exists_digit_ne (hpa.trans hk.symm) he
    obtain ⟨c,hc,hcan⟩ := canonical_fork (v := w) (w := v) (n := L-p.length) hpa hk hi
      (by omega) hne
    rwa [hc]
  | node c ih =>
    have hkd : path digit k (p++[digit k p.length]).length=p++[digit k p.length] := by
      simpa using path_succ_eq_iff.mpr ⟨hk,rfl⟩
    have hins := ih (digit k p.length) (ht.1 _) hkd
    have hne := insert_ne_empty (v := v) hs (ht.1 (digit k p.length)) hkd
    rw [length_append,length_singleton] at hins hne
    refine ⟨fun b => ?_,?_⟩
    · by_cases hb : b=digit k p.length
      · subst hb
        rwa [update_self]
      · rw [update_of_ne hb]
        exact ht.1 b
    · -- the changed child is still present, and a node child stays a node
      rcases ht.2 with ⟨b,c',hb⟩ | ⟨b,b',hbb,hb,hb'⟩
      · left
        by_cases hbd : b=digit k p.length
        · subst hbd
          rw [hb]
          exact ⟨_,_,by rw [update_self]; rfl⟩
        · exact ⟨b,c',by rw [update_of_ne hbd]; exact hb⟩
      · right
        refine ⟨b,b',hbb,?_,?_⟩ <;> simp only [update_apply] <;> split <;> assumption

/-! ## Removal -/

omit [DecidableEq κ] in
theorem collapse_cases (c : Fin r → RadixTrie r κ ν) : (collapse c=.empty ∧ ∀ b, c b=.empty) ∨
    (∃ b k v, collapse c=.leaf k v ∧ c b=.leaf k v ∧ ∀ b', b'≠b → c b'=.empty) ∨
        (collapse c=.node c ∧ Branching c) := by
  have hmem : ∀ b, b∈support c ↔ c b≠.empty := fun b => mem_support
  have hnd : (support c).Nodup := (nodup_finRange r).filter _
  unfold collapse
  match hsup : support c with
  | [] =>
    left
    refine ⟨rfl,fun b => ?_⟩
    by_contra hb
    simpa [hsup] using (hmem b).mpr hb
  | [b] =>
    have hother : ∀ b', b'≠b → c b'=.empty := by
      intro b' hne
      by_contra hb
      have h := (hmem b').mpr hb
      rw [hsup,mem_singleton] at h
      exact hne h
    match hb : c b with
    | .empty => exact absurd hb ((hmem b).mp (by simp [hsup]))
    | .leaf k v => exact Or.inr (Or.inl ⟨b,k,v,by simp [hb],hb,hother⟩)
    | .node c' => exact Or.inr (Or.inr ⟨by simp [hb],Or.inl ⟨b,c',hb⟩⟩)
  | b::b'::bs =>
    refine Or.inr
      (Or.inr ⟨rfl,Or.inr ⟨b,b',?_,(hmem b).mp (by simp [hsup]),(hmem b').mp (by simp [hsup])⟩⟩)
    rw [hsup] at hnd
    simp only [nodup_cons,mem_cons,not_or] at hnd
    exact hnd.1.1

omit [DecidableEq κ] in
theorem Canonical.collapse (hc : ∀ b, Canonical digit (p++[b]) (c b)) :
    Canonical digit p (collapse c) := by
  rcases collapse_cases c with ⟨h,-⟩ | ⟨b,k,v,h,hb,-⟩ | ⟨h,hbr⟩
  · rw [h]
    trivial
  · rw [h]
    have hk := hc b
    rw [hb] at hk
    exact (path_succ_eq_iff.mp (by simpa [Canonical] using hk)).1
  · rw [h]
    exact ⟨hc,hbr⟩

theorem lookup_collapse (hc : ∀ b, Canonical digit (p++[b]) (c b)) (k : κ) :
    lookup digit k p.length (RadixTrie.collapse c)=lookup digit k p.length (.node c) := by
  rcases collapse_cases c with ⟨h,he⟩ | ⟨b,a,v,h,hb,he⟩ | ⟨h,-⟩
  · simp [h,lookup,he]
  · rw [h,lookup_node]
    have hk := hc b
    rw [hb] at hk
    have hd :=
      (path_succ_eq_iff.mp (by simpa [Canonical] using hk : path digit a (p.length+1)=p++[b])).2
    by_cases hkb : digit k p.length=b
    · rw [hkb,hb]
      simp [lookup]
    · rw [he _ hkb]
      have hak : a≠k := by rintro rfl; exact hkb hd
      simp [lookup,hak]
  · rw [h]

theorem Canonical.erase (ht : Canonical digit p t) (k : κ) :
    Canonical digit p (erase digit k p.length t) := by
  induction t generalizing p with
  | empty => trivial
  | leaf a w =>
    simp only [RadixTrie.erase]
    split
    · trivial
    · exact ht
  | node c ih =>
    apply Canonical.collapse
    intro b
    by_cases hb : b=digit k p.length
    · subst hb
      rw [update_self]
      simpa using ih (digit k p.length) (ht.1 _)
    · rw [update_of_ne hb]
      exact ht.1 b

theorem Canonical.lookup_erase (ht : Canonical digit p t) (k k' : κ) :
    lookup digit k' p.length (RadixTrie.erase digit k p.length t) =
      if k=k' then none else lookup digit k' p.length t := by
  induction t generalizing p with
  | empty => simp [RadixTrie.erase,lookup]
  | leaf a w =>
    simp only [RadixTrie.erase]
    by_cases hak : a=k
    · subst hak
      simp only [lookup,if_true]
      split <;> rfl
    · simp only [if_neg hak,lookup]
      by_cases hak' : a=k'
      · subst hak'
        simp [Ne.symm hak]
      · simp [hak']
  | node c ih =>
    simp only [RadixTrie.erase]
    rw [lookup_collapse,lookup_node,lookup_node]
    · by_cases hd : digit k' p.length=digit k p.length
      · rw [hd,update_self]
        simpa using ih (digit k p.length) (ht.1 _)
      · rw [update_of_ne hd]
        have hne : k≠k' := by rintro rfl; exact hd rfl
        simp [hne]
    · intro b
      by_cases hb : b=digit k p.length
      · subst hb
        rw [update_self]
        simpa using (ht.1 (digit k p.length)).erase k
      · rw [update_of_ne hb]
        exact ht.1 b

/-! ## Entries in order -/

theorem Canonical.mem_toList (ht : Canonical digit p t) : (k,v)∈t.toList ↔
    lookup digit k p.length t=some v := by
  induction t generalizing p with
  | empty => simp [toList,lookup]
  | leaf a w =>
    simp only [toList,mem_singleton,Prod.mk.injEq,lookup]
    constructor
    · rintro ⟨rfl,rfl⟩
      simp
    intro h
    split_ifs at h with he
    exact ⟨he.symm,(Option.some.inj h).symm⟩
  | node c ih =>
    simp only [toList,mem_flatMap,mem_finRange,true_and,lookup_node]
    constructor
    · rintro ⟨b,hb⟩
      have hk := (ih b (ht.1 b)).mp hb
      have hp := (ht.1 b).path_eq hk
      rw [length_append,length_singleton] at hk hp
      obtain ⟨-,rfl⟩ := path_succ_eq_iff.mp hp
      exact hk
    · intro hk
      refine ⟨digit k p.length,(ih _ (ht.1 _)).mpr ?_⟩
      simpa using hk

/-- Keys compare like their first different digit. -/
def Lexicographic (digit : κ → ℕ → Fin r) [LT κ] : Prop :=
  ∀ k k' d, path digit k d=path digit k' d → digit k d < digit k' d → k < k'

/-- The entries below one digit come before those below a larger one. -/
theorem pairwise_toList_node [LT κ] (hl : Lexicographic digit)
    (hc : ∀ b, Canonical digit (p++[b]) (c b))
    (hb : ∀ b, (c b).toList.Pairwise (fun x y => x.1 < y.1)) :
      (node c).toList.Pairwise (fun x y => x.1 < y.1) := by
  rw [toList,pairwise_flatMap]
  refine ⟨fun b _ => hb b,(pairwise_lt_finRange r).imp ?_⟩
  rintro b b' hbb ⟨k,v⟩ hk ⟨k',v'⟩ hk'
  have hp := (hc b).path_eq ((hc b).mem_toList.mp hk)
  have hp' := (hc b').path_eq ((hc b').mem_toList.mp hk')
  rw [length_append,length_singleton] at hp hp'
  obtain ⟨hpk,rfl⟩ := path_succ_eq_iff.mp hp
  obtain ⟨hpk',rfl⟩ := path_succ_eq_iff.mp hp'
  exact hl k k' p.length (hpk.trans hpk'.symm) hbb

theorem Canonical.pairwise_toList [LT κ] (hl : Lexicographic digit) (ht : Canonical digit p t) :
    t.toList.Pairwise (fun x y => x.1 < y.1) := by
  induction t generalizing p with
  | empty => simp [toList]
  | leaf a w => simp [toList]
  | node c ih => exact pairwise_toList_node hl ht.1 fun b => ih b (ht.1 b)

/-! ## Depth of the leaves -/

theorem exists_lookup_of_depthOf (hn : depthOf digit k d t=some n) :
    ∃ v, lookup digit k d t=some v := by
  induction t generalizing d with
  | empty => simp [depthOf] at hn
  | leaf a w =>
    simp only [depthOf] at hn
    split_ifs at hn with he
    exact ⟨w,by simp [lookup,he]⟩
  | node c ih => exact ih _ hn

/-- A leaf is where its prefix becomes unique: no other key of the trie shares its
digits down to its depth, and below the top one does so one level higher. -/
theorem Canonical.depthOf_spec (ht : Canonical digit p t) (hn : depthOf digit k p.length t=some n) :
    p.length ≤ n ∧
      (∀ k' v', lookup digit k' p.length t=some v' → path digit k' n=path digit k n → k'=k) ∧
        (n=p.length ∨ ∃ k' v', lookup digit k' p.length t=some v' ∧ k'≠k ∧
          path digit k' (n-1)=path digit k (n-1)) := by
  induction t generalizing p with
  | empty => simp [depthOf] at hn
  | leaf a w =>
    simp only [depthOf] at hn
    split_ifs at hn with he
    cases hn
    refine ⟨le_rfl,fun k' v' hk' _ => ?_,Or.inl rfl⟩
    simp only [lookup] at hk'
    split_ifs at hk' with he'
    exact he'.symm.trans he
  | node c ih =>
    have hl : (p++[digit k p.length]).length=p.length+1 := by simp
    obtain ⟨hle,huniq,hparent⟩ := ih (digit k p.length) (ht.1 _) (by rw [hl]; exact hn)
    rw [hl] at hle huniq hparent
    refine ⟨by omega,fun k' v' hk' hpath => ?_,Or.inr ?_⟩
    · have hd := digit_eq_of_path_eq hpath (i := p.length) (by omega)
      rw [lookup_node,hd] at hk'
      exact huniq k' v' hk' hpath
    · rcases hparent with rfl | ⟨k',v',hk',hne,hpath⟩
      · -- the leaf hangs directly below this node, which has a second key
        obtain ⟨a,va,b,vb,hab,ha,hb⟩ := ht.exists_keys.2 c rfl
        obtain ⟨v,hv⟩ := exists_lookup_of_depthOf hn
        have hk : path digit k p.length=p := ht.path_eq hv
        simp only [Nat.add_sub_cancel]
        rw [hk]
        by_cases hak : a=k
        · exact ⟨b,vb,hb,fun h => hab (hak.trans h.symm),ht.path_eq hb⟩
        · exact ⟨a,va,ha,hak,ht.path_eq ha⟩
      · refine ⟨k',v',?_,hne,hpath⟩
        rw [lookup_node]
        have hd : digit k' p.length=digit k p.length := by
          have hpk' := (ht.1 (digit k p.length)).path_eq (by rw [hl]; exact hk')
          rw [hl] at hpk'
          exact (path_succ_eq_iff.mp hpk').2
        rwa [hd]

end RadixTrie

end Rxrpl
