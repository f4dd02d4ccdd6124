import Rxrpl.SHAMapRefinement

/-!
# A SHAMap as a finite map

The root of a SHAMap is a node even when it holds one entry or none, so the value of
a whole map is the family of the canonical tries below its root. Every call acts on
that family as an update of a finite map, and everything that can be observed of the
map is a function of it. The one exception is a failing `insert`.
-/

namespace Rxrpl

open RadixTrie

namespace KeyTrie

variable {c c' : Fin 16 → KeyTrie}

def find (c : Fin 16 → KeyTrie) (key : Hash256) : Option Bytes :=
    lookup selectBranch key 0 (.node c)

def store (c : Fin 16 → KeyTrie) (key : Hash256) (data : Bytes) : Fin 16 → KeyTrie :=
  Function.update c (selectBranch key 0)
    (insert selectBranch 64 key data 1 (c (selectBranch key 0)))

def remove (c : Fin 16 → KeyTrie) (key : Hash256) : Fin 16 → KeyTrie :=
  Function.update c (selectBranch key 0) (erase selectBranch key 1 (c (selectBranch key 0)))

theorem find_eq (c : Fin 16 → KeyTrie) (key : Hash256) :
    find c key=lookup selectBranch key [selectBranch key 0].length (c (selectBranch key 0)) := rfl

theorem path_one (key : Hash256) :
    path selectBranch key [selectBranch key 0].length=[selectBranch key 0] := rfl

/-- What a failing `insert` of the key leaves of the tries below a root: a leaf that
hangs on the root survives, an inner node there is lost with all it holds. -/
def clobber (c : Fin 16 → KeyTrie) (key : Hash256) : Fin 16 → KeyTrie :=
  Function.update c (selectBranch key 0)
    (match c (selectBranch key 0) with
      | .node _ => .empty
      | t => t)

theorem ext_of_find (hc : CanonicalRoot c) (hc' : CanonicalRoot c')
    (h : ∀ key, find c key=find c' key) : c=c' := by
  funext b
  refine (hc b).ext (hc' b) fun key hkey => ?_
  have hb : selectBranch key 0=b := by simpa [path] using hkey
  subst hb
  exact h key

variable {key : Hash256} {t : KeyTrie}

theorem canonicalRoot_update (hc : CanonicalRoot c) {b : Fin 16}
    (ht : Canonical selectBranch [b] t) : CanonicalRoot (Function.update c b t) := by
  intro b'
  by_cases hb : b'=b
  · subst hb
    rwa [Function.update_self]
  · rw [Function.update_of_ne hb]
    exact hc b'

theorem find_update (c : Fin 16 → KeyTrie) (b : Fin 16) (t : KeyTrie) (key : Hash256) :
    find (Function.update c b t) key =
      if selectBranch key 0=b then lookup selectBranch key 1 t else find c key := by
  rw [find,lookup_node]
  by_cases hb : selectBranch key 0=b
  · rw [if_pos hb,hb,Function.update_self]
  · rw [if_neg hb,Function.update_of_ne hb]
    rfl

theorem canonicalRoot_store (hc : CanonicalRoot c) (key : Hash256) (data : Bytes) :
    CanonicalRoot (store c key data) :=
  canonicalRoot_update hc ((hc _).insert selectBranch_separates data (path_one key))

theorem canonicalRoot_clobber (hc : CanonicalRoot c) (key : Hash256) :
    CanonicalRoot (clobber c key) := by
  refine canonicalRoot_update hc ?_
  have h := hc (selectBranch key 0)
  cases hcb : c (selectBranch key 0) with
  | empty => trivial
  | leaf k v => rwa [hcb] at h
  | node c' => trivial

theorem find_change {x : Option Bytes}
    (h : ∀ k, lookup selectBranch k 1 t=if key=k then x
      else lookup selectBranch k 1 (c (selectBranch key 0))) :
    find (Function.update c (selectBranch key 0) t)=Function.update (find c) key x := by
  funext k
  rw [find_update]
  by_cases hk : key=k
  · subst hk
    rw [if_pos rfl,Function.update_self]
    exact (h key).trans (if_pos rfl)
  rw [Function.update_of_ne (Ne.symm hk)]
  split
  · rename_i hb
    exact (h k).trans (by rw [if_neg hk,find_eq,hb]; rfl)
  · rfl

theorem find_store (hc : CanonicalRoot c) (key : Hash256) (data : Bytes) :
    find (store c key data)=Function.update (find c) key (some data) :=
  find_change ((hc (selectBranch key 0)).lookup_insert selectBranch_separates data (path_one key))

theorem find_remove (hc : CanonicalRoot c) (key : Hash256) :
    find (remove c key)=Function.update (find c) key none :=
  find_change ((hc (selectBranch key 0)).lookup_erase key)

theorem mem_toList_iff (hc : CanonicalRoot c) {data : Bytes} :
    (key,data)∈(RadixTrie.node c).toList ↔ find c key=some data := by
  rw [toList,List.mem_flatMap]
  constructor
  · rintro ⟨b,-,hb⟩
    have hl := (hc b).mem_toList.mp hb
    have hp := (hc b).path_eq hl
    have hbk : selectBranch key 0=b := by simpa [path] using hp
    subst hbk
    exact hl
  · intro h
    exact ⟨selectBranch key 0,List.mem_finRange _,(hc _).mem_toList.mpr h⟩

theorem pairwise_toList (hc : CanonicalRoot c) :
    (RadixTrie.node c).toList.Pairwise (fun x y => x.1 < y.1) :=
  pairwise_toList_node (p := []) selectBranch_lexicographic (by simpa using hc) fun b =>
    (hc b).pairwise_toList selectBranch_lexicographic

/-- Contents and nothing else: no entry, no branch. -/
theorem support_eq_nil_iff (hc : CanonicalRoot c) : support c=[] ↔ ∀ key, find c key=none := by
  constructor
  · intro hs key
    have he : c (selectBranch key 0)=.empty := by
      by_contra hne
      simpa [hs] using mem_support.mpr hne
    rw [find_eq,he,lookup]
  · intro h
    rw [List.eq_nil_iff_forall_not_mem]
    intro b hb
    obtain ⟨key,data,hk⟩ := (hc b).exists_keys.1 (mem_support.mp hb)
    have hbk : selectBranch key 0=b := by simpa [path] using (hc b).path_eq hk
    subst hbk
    simpa [h key] using (find_eq c key).trans hk

end KeyTrie

namespace SHAMap

variable {sha : Sha512Half} {away : KeyTrie → Prop} {c : Fin 16 → KeyTrie} {m : SHAMap sha}

/-- A map stands for the tries below its root. -/
structure Represents (away : KeyTrie → Prop) (c : Fin 16 → KeyTrie) (m : SHAMap sha) : Prop where
  root : RepNode m.kind away (.node c) m.root
  canonical : CanonicalRoot c
  loadable : Loadable sha m.kind away m.store

/-- The finished runs of `SHAMap::iter`: with enough turns of its loop it yields `l`. -/
def Iterates (m : SHAMap sha) (l : List (Hash256 × Bytes)) : Prop :=
    ∃ fuel, ∀ fuel' ≥ fuel, m.iter fuel'=.ok l

theorem represents_new (kind : LeafKind) (store : Option NodeStore) :
    Represents (fun _ => False) (fun _ => .empty) (new kind store : SHAMap sha) :=
  ⟨⟨_,rfl,RepInner.new⟩,fun _ => trivial,loadable_false store⟩

namespace Represents

theorem get_eq (h : Represents away c m) (key : Hash256) : m.get key=.ok (KeyTrie.find c key) := by
  obtain ⟨n,hroot,hn⟩ := h.root
  have hf : findLeaf m.store m.kind key 256 0 n=.ok ((KeyTrie.find c key).map (.new m.kind key)) :=
    findLeaf_eq h.loadable (OnPath.root h.canonical key) (by simp) hn
  rw [get,hroot]
  simp only [hf,Except.map]
  cases KeyTrie.find c key <;> rfl

variable {c' : Fin 16 → KeyTrie}

theorem eq_of_get {away' : KeyTrie → Prop} {m' : SHAMap sha} (h : Represents away c m)
    (h' : Represents away' c' m') (hget : ∀ key, m.get key=m'.get key) : c=c' := by
  refine KeyTrie.ext_of_find h.canonical h'.canonical fun key => ?_
  have hkey := hget key
  rw [h.get_eq,h'.get_eq] at hkey
  exact Except.ok.inj hkey

theorem forEach_eq (h : Represents away c m) : m.forEach=.ok (RadixTrie.node c).toList := by
  obtain ⟨n,hroot,hn⟩ := h.root
  rw [forEach,hroot]
  exact visit_eq h.loadable (p := []) (by simpa using h.canonical) (by simp) (by simp) hn

theorem iterates_iff (h : Represents away c m) {l : List (Hash256 × Bytes)} :
    m.Iterates l ↔ l=(RadixTrie.node c).toList := by
  have hnil : iterCollect m.store m.kind 0 ([] : List (SHAMapNode sha × ℕ))=.ok [] := rfl
  obtain ⟨fuel,hfuel⟩ := exists_iterCollect h.loadable h.root hnil
  rw [List.append_nil] at hfuel
  constructor
  · rintro ⟨fuel',hl⟩
    have h₁ := hl (max fuel fuel') (le_max_right _ _)
    have h₂ := iterCollect_mono hfuel (le_max_left fuel fuel')
    exact Except.ok.inj (h₁.symm.trans h₂)
  · rintro rfl
    exact ⟨fuel,fun fuel' hle => iterCollect_mono hfuel hle⟩

theorem rootHash_eq (h : Represents away c m) (owned : List (Fin 16) → Bool) :
    (m.rootHash owned).2=KeyTrie.rootHash sha m.kind c := by
  obtain ⟨n,hroot,hn⟩ := h.root
  obtain ⟨n',hn',-,hhash⟩ := updateHashes_root hn owned
  rw [rootHash,hroot,hn']
  exact hhash

theorem mutate_eq {α : Type} (h : Represents away c m) (hm : m.state≠.immutable)
    {f : InnerNode (SHAMapNode sha) → InnerNode (SHAMapNode sha) × Except SHAMapError α}
    {r : Except SHAMapError α}
    (hc' : CanonicalRoot c') (hf : ∀ n, RepInner m.kind away c n → ∃ n', f n=(n',r) ∧
      RepInner m.kind away c' n') :
    ∃ x, m.mutate f=({ m with root := x },r) ∧ Represents away c' { m with root := x } := by
  obtain ⟨n,hroot,hn⟩ := h.root
  obtain ⟨n',hfn,hn'⟩ := hf n hn
  refine ⟨.inner n',?_,⟨n',rfl,hn'⟩,hc',h.loadable⟩
  simp only [mutate,if_neg hm,hroot,hfn]

end Represents

/-! ## Calls -/

inductive Call
  | insert (key : Hash256) (data : Bytes)
  | put (key : Hash256) (data : Bytes)
  | update (key : Hash256) (data : Bytes)
  | delete (key : Hash256)

/-- The map a call leaves behind, and its outcome without the data that `delete` returns. -/
def call (m : SHAMap sha) : Call → SHAMap sha × Except SHAMapError Unit
  | .insert key data => m.insert key data
  | .put key data => m.put key data
  | .update key data => m.update key data
  | .delete key => ((m.delete key).1,(m.delete key).2.map fun _ => ())

def run (m : SHAMap sha) (calls : List Call) : SHAMap sha := calls.foldl (fun m a => (m.call a).1) m

/-- The effect of a call on the tries below the root. -/
def Call.effect (c : Fin 16 → KeyTrie) : Call → (Fin 16 → KeyTrie) × Except SHAMapError Unit
  | .insert key data => match KeyTrie.find c key with
    | none => (KeyTrie.store c key data,.ok ())
    | some _ => (KeyTrie.clobber c key,.error .duplicateKey)
  | .put key data => (KeyTrie.store c key data,.ok ())
  | .update key data => match KeyTrie.find c key with
    | none => (c,.error .notFound)
    | some _ => (KeyTrie.store c key data,.ok ())
  | .delete key => match KeyTrie.find c key with
    | none => (c,.error .notFound)
    | some _ => (KeyTrie.remove c key,.ok ())

/-- What a call is for: an operation on a finite map that does nothing when it fails. -/
def Call.spec (f : Hash256 → Option Bytes) : Call →
    (Hash256 → Option Bytes) × Except SHAMapError Unit
  | .insert key data => match f key with
    | none => (Function.update f key (some data),.ok ())
    | some _ => (f,.error .duplicateKey)
  | .put key data => (Function.update f key (some data),.ok ())
  | .update key data => match f key with
    | none => (f,.error .notFound)
    | some _ => (Function.update f key (some data),.ok ())
  | .delete key => match f key with
    | none => (f,.error .notFound)
    | some _ => (Function.update f key none,.ok ())

def specRun (f : Hash256 → Option Bytes) (calls : List Call) : Hash256 → Option Bytes :=
  calls.foldl (fun f a => (a.spec f).1) f

/-- An `insert` of a present key that shares its first nibble with another present key. -/
def Call.Clobbers (f : Hash256 → Option Bytes) : Call → Prop
  | .insert key _ => f key≠none ∧ ∃ k, k≠key ∧ f k≠none ∧ selectBranch k 0=selectBranch key 0
  | _ => False

theorem exists_node_iff (hc : CanonicalRoot c) {key : Hash256} (hkey : KeyTrie.find c key≠none) :
    (∃ c', c (selectBranch key 0)=.node c') ↔
      ∃ k, k≠key ∧ KeyTrie.find c k≠none ∧ selectBranch k 0=selectBranch key 0 := by
  have hcan := hc (selectBranch key 0)
  constructor
  · rintro ⟨c',hc'⟩
    obtain ⟨a,v,b,w,hab,ha,hb⟩ := hcan.exists_keys.2 c' hc'
    have hpath : ∀ {k v}, lookup selectBranch k 1 (c (selectBranch key 0))=some v →
        selectBranch k 0=selectBranch key 0 ∧ KeyTrie.find c k≠none := by
      intro k v hk
      have hbk : selectBranch k 0=selectBranch key 0 := by simpa [path] using hcan.path_eq hk
      refine ⟨hbk,?_⟩
      rw [KeyTrie.find_eq,hbk]
      exact Option.ne_none_iff_exists'.mpr ⟨v,hk⟩
    by_cases hak : a=key
    · exact ⟨b,fun h => hab (hak.trans h.symm),(hpath hb).2,(hpath hb).1⟩
    · exact ⟨a,hak,(hpath ha).2,(hpath ha).1⟩
  · rintro ⟨k,hk,hfind,hb⟩
    rw [KeyTrie.find_eq,hb] at hfind
    rw [KeyTrie.find_eq] at hkey
    cases hcb : c (selectBranch key 0) with
    | empty => simp [hcb,lookup] at hkey
    | leaf a v =>
      simp only [hcb,lookup,ne_eq,ite_eq_right_iff,not_forall] at hkey hfind
      exact absurd (hfind.1.symm.trans hkey.1) hk
    | node c' => exact ⟨c',rfl⟩

theorem clobber_eq_self_iff (hc : CanonicalRoot c) {key : Hash256}
    (hkey : KeyTrie.find c key≠none) :
    KeyTrie.clobber c key=c ↔ ¬∃ k, k≠key ∧ KeyTrie.find c k≠none ∧
      selectBranch k 0=selectBranch key 0 := by
  rw [← exists_node_iff hc hkey,KeyTrie.clobber]
  cases hcb : c (selectBranch key 0) with
  | empty =>
    have hself : Function.update c (selectBranch key 0) .empty=c := by
      rw [← hcb,Function.update_eq_self]
    simp [hself]
  | leaf k v =>
    have hself : Function.update c (selectBranch key 0) (.leaf k v)=c := by
      rw [← hcb,Function.update_eq_self]
    simp [hself]
  | node c' =>
    simp only [RadixTrie.node.injEq,exists_eq',not_true_eq_false,iff_false]
    intro h
    have hb := congrFun h (selectBranch key 0)
    simp [hcb] at hb

theorem Call.find_effect (hc : CanonicalRoot c) {a : Call} (ha : ¬a.Clobbers (KeyTrie.find c)) :
    KeyTrie.find (a.effect c).1=(a.spec (KeyTrie.find c)).1 := by
  cases a with
  | put key data => exact KeyTrie.find_store hc key data
  | insert key data =>
    simp only [Call.effect,Call.spec]
    cases hk : KeyTrie.find c key with
    | none => exact KeyTrie.find_store hc key data
    | some v =>
      have hne : KeyTrie.find c key≠none := by simp [hk]
      have hself := (clobber_eq_self_iff hc hne).mpr fun h => ha ⟨hne,h⟩
      simp only [hself]
  | update key data =>
    simp only [Call.effect,Call.spec]
    cases KeyTrie.find c key with
    | none => rfl
    | some v => exact KeyTrie.find_store hc key data
  | delete key =>
    simp only [Call.effect,Call.spec]
    cases KeyTrie.find c key with
    | none => rfl
    | some v => exact KeyTrie.find_remove hc key

namespace Represents

variable {key : Hash256} {data : Bytes}

theorem put_eq (h : Represents away c m) (hm : m.state≠.immutable) :
    ∃ x, m.put key data=({ m with root := x },.ok ()) ∧
      Represents away (KeyTrie.store c key data) { m with root := x } :=
  h.mutate_eq hm (KeyTrie.canonicalRoot_store h.canonical key data) fun _ hn =>
    putLeaf_eq h.loadable (OnPath.root h.canonical key) (by simp) hn

theorem insert_eq (h : Represents away c m) (hm : m.state≠.immutable) :
    ∃ x, m.insert key data=({ m with root := x },((Call.insert key data).effect c).2) ∧
      Represents away ((Call.insert key data).effect c).1 { m with root := x } := by
  have hp := OnPath.root h.canonical key
  cases hk : KeyTrie.find c key with
  | none =>
    simp only [Call.effect,hk]
    exact h.mutate_eq hm (KeyTrie.canonicalRoot_store h.canonical key data) fun _ hn =>
      insertLeaf_absent h.loadable hp (by simp) hn hk
  | some v =>
    simp only [Call.effect,hk]
    exact h.mutate_eq hm (KeyTrie.canonicalRoot_clobber h.canonical key) fun _ hn =>
      insertLeaf_present h.loadable hp (by simp) hn hk

theorem update_eq (h : Represents away c m) (hm : m.state≠.immutable) :
    ∃ x, m.update key data=({ m with root := x },((Call.update key data).effect c).2) ∧
      Represents away ((Call.update key data).effect c).1 { m with root := x } := by
  have hp := OnPath.root h.canonical key
  cases hk : KeyTrie.find c key with
  | none =>
    simp only [Call.effect,hk]
    exact h.mutate_eq hm h.canonical fun _ hn => updateIn_absent h.loadable hp (by simp) hn hk
  | some v =>
    simp only [Call.effect,hk]
    exact h.mutate_eq hm (KeyTrie.canonicalRoot_store h.canonical key data) fun _ hn =>
      updateIn_present h.loadable hp (by simp) hn hk

theorem delete_eq (h : Represents away c m) (hm : m.state≠.immutable) (key : Hash256) :
    ∃ x, m.delete key=({ m with root := x },
        match KeyTrie.find c key with
        | none => .error .notFound
        | some v => .ok v) ∧
      Represents away ((Call.delete key).effect c).1 { m with root := x } := by
  have hp := OnPath.root h.canonical key
  cases hk : KeyTrie.find c key with
  | none =>
    simp only [Call.effect,hk]
    exact h.mutate_eq hm h.canonical fun _ hn => deleteFrom_absent h.loadable hp (by simp) hn hk
  | some v =>
    simp only [Call.effect,hk]
    exact h.mutate_eq hm (KeyTrie.canonicalRoot_update h.canonical ((h.canonical _).erase key))
      fun _ hn =>
      deleteFrom_present h.loadable hp (by simp) hn hk

theorem call_eq (h : Represents away c m) (hm : m.state≠.immutable) (a : Call) :
    ∃ x, m.call a=({ m with root := x },(a.effect c).2) ∧
      Represents away (a.effect c).1 { m with root := x } := by
  cases a with
  | insert key data => exact h.insert_eq hm
  | put key data => exact h.put_eq hm
  | update key data => exact h.update_eq hm
  | delete key =>
    obtain ⟨x,hx,hrep⟩ := h.delete_eq hm key
    refine ⟨x,?_,hrep⟩
    simp only [call,hx,Call.effect]
    cases KeyTrie.find c key <;> rfl

theorem run_eq (h : Represents away c m) (hm : m.state≠.immutable) (calls : List Call) :
    ∃ x c', m.run calls={ m with root := x } ∧ Represents away c' { m with root := x } := by
  induction calls generalizing m c with
  | nil => exact ⟨m.root,c,rfl,h⟩
  | cons a calls ih =>
    obtain ⟨x,hx,hrep⟩ := h.call_eq hm a
    obtain ⟨y,c',hy,hrep'⟩ := ih hrep hm
    refine ⟨y,c',?_,hrep'⟩
    rw [run,List.foldl_cons,hx]
    exact hy

theorem run_eq_spec (h : Represents away c m) (hm : m.state≠.immutable) {calls : List Call}
    (hcalls : ∀ key data, Call.insert key data∉calls) :
    ∃ x c', m.run calls={ m with root := x } ∧ Represents away c' { m with root := x } ∧
      KeyTrie.find c'=specRun (KeyTrie.find c) calls := by
  induction calls generalizing m c with
  | nil => exact ⟨m.root,c,rfl,h,rfl⟩
  | cons a calls ih =>
    obtain ⟨x,hx,hrep⟩ := h.call_eq hm a
    obtain ⟨y,c',hy,hrep',hfind⟩ := ih hrep hm fun key data hmem =>
      hcalls key data (List.mem_cons_of_mem _ hmem)
    have ha : ¬a.Clobbers (KeyTrie.find c) := by
      cases a with
      | insert key data => exact absurd List.mem_cons_self (hcalls key data)
      | put key data | update key data | delete key => exact id
    refine ⟨y,c',?_,hrep',?_⟩
    · rw [run,List.foldl_cons,hx]
      exact hy
    · rw [hfind,Call.find_effect h.canonical ha,specRun,specRun,List.foldl_cons]

end Represents

theorem get_run (kind : LeafKind) (store : Option NodeStore) {calls : List Call}
    (hcalls : ∀ key data, Call.insert key data∉calls) (key : Hash256) :
    ((new kind store : SHAMap sha).run calls).get key=.ok (specRun (fun _ => none) calls key) := by
  obtain ⟨x,c',hx,hrep,hfind⟩ := (represents_new kind store).run_eq_spec (by simp [new]) hcalls
  rw [hx,hrep.get_eq,hfind]
  rfl

end SHAMap

end Rxrpl
