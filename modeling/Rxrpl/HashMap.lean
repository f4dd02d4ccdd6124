import Mathlib.Algebra.GroupWithZero.Nat
import Mathlib.Data.List.AList
import Mathlib.Data.Finset.Card
import Mathlib.Algebra.BigOperators.Group.List.Lemmas

/-!
# Hash maps and tallies

A hash map is an association list with pairwise different keys. A loop over a map runs
over a permutation of its entries, and the results below hold for each. `tally` counts
the elements of a list, and `plurality` is the loop that picks the element with the most
votes, the larger one on a tie.
-/

abbrev HashMap (κ ν : Type) := AList fun _ : κ => ν

namespace HashMap

open List hiding modify

variable {κ ν : Type}

def values (m : HashMap κ ν) : List ν := m.entries.map (·.2)

def retain (p : κ → ν → Bool) (m : HashMap κ ν) : HashMap κ ν :=
  ⟨m.entries.filter fun e => p e.1 e.2,m.nodupKeys.sublist List.filter_sublist⟩

def filterMap (f : κ → ν → Option ν) (m : HashMap κ ν) : HashMap κ ν :=
  ⟨m.entries.filterMap fun e => (f e.1 e.2).map fun v => ⟨e.1,v⟩,by
    apply List.nodupKeys_iff_pairwise.mpr
    apply (List.nodupKeys_iff_pairwise.mp m.nodupKeys).filterMap
    rintro a b hab x hx y hy
    obtain ⟨v,-,rfl⟩ := Option.map_eq_some_iff.mp hx
    obtain ⟨w,-,rfl⟩ := Option.map_eq_some_iff.mp hy
    exact hab⟩

def mapValues (f : ν → ν) (m : HashMap κ ν) : HashMap κ ν := m.filterMap fun _ v => some (f v)

@[simp] theorem values_empty : values (∅ : HashMap κ ν)=[] := rfl

@[simp] theorem length_values (m : HashMap κ ν) : m.values.length=m.entries.length := by
  simp [values]

theorem mem_filterMap_entries {f : κ → ν → Option ν} {m : HashMap κ ν} {k : κ} {v : ν} :
    ⟨k,v⟩∈(filterMap f m).entries ↔ ∃ w, ⟨k,w⟩∈m.entries ∧ f k w=some v := by
  simp only [filterMap,mem_filterMap,Option.map_eq_some_iff]
  constructor
  · rintro ⟨⟨k',w⟩,hm,v',hf,he⟩
    cases he
    exact ⟨w,hm,hf⟩
  · rintro ⟨w,hm,hf⟩
    exact ⟨⟨k,w⟩,hm,v,hf,rfl⟩

section

variable [DecidableEq κ]

variable (m : HashMap κ ν)

/-- `*entry(k).or_insert(d)` rewritten by `f`. -/
def modify (k : κ) (d : ν) (f : ν → ν) : HashMap κ ν :=
  m.insert k (f ((m.lookup k).getD d))

/-- `get_mut(k)` rewritten by `f`: nothing happens to an absent key. -/
def modifyExisting (k : κ) (f : ν → ν) : HashMap κ ν :=
  match m.lookup k with
  | some v => m.insert k (f v)
  | none => m

variable {k : κ} {m : HashMap κ ν} {v : ν}

theorem mem_entries_iff : ⟨k,v⟩∈m.entries ↔ m.lookup k=some v := AList.mem_lookup_iff.symm

theorem lookup_insert_eq (m : HashMap κ ν) (k k' : κ) (v : ν) :
    (m.insert k v).lookup k'=if k'=k then some v else m.lookup k' := by
  by_cases h : k'=k
  · subst h; simp
  · rw [if_neg h,AList.lookup_insert_ne h]

theorem lookup_modifyExisting (m : HashMap κ ν) (k k' : κ) (f : ν → ν) :
    (m.modifyExisting k f).lookup k'=if k'=k then (m.lookup k).map f else m.lookup k' := by
  unfold modifyExisting
  split
  · rename_i v h
    rw [lookup_insert_eq,h,Option.map_some]
  rename_i h
  split
  · rename_i hk
    rw [hk,h,Option.map_none]
  · rfl

theorem lookup_retain (p : κ → ν → Bool) (m : HashMap κ ν) (k : κ) :
    (m.retain p).lookup k=(m.lookup k).filter (p k) := by
  apply Option.ext
  intro v
  rw [Option.filter_eq_some_iff,← mem_entries_iff,← mem_entries_iff]
  simp [retain]

@[simp] theorem lookup_mapValues (f : ν → ν) (m : HashMap κ ν) (k : κ) :
    (m.mapValues f).lookup k=(m.lookup k).map f := by
  apply Option.ext
  intro v
  rw [← mem_entries_iff,mapValues,mem_filterMap_entries,Option.map_eq_some_iff]
  simp only [mem_entries_iff,Option.some.injEq]

theorem lookup_erase_eq (m : HashMap κ ν) (k k' : κ) :
    (m.erase k).lookup k'=if k'=k then none else m.lookup k' := by
  by_cases h : k'=k
  · subst h; simp
  · rw [if_neg h,AList.lookup_erase_ne h]

/-- A loop over a map whose step at an entry changes the row of that entry's key only: the rows
after the loop do not depend on the order of the entries. -/
theorem row_foldl {σ ρ : Type} (row : σ → κ → ρ) (step : σ → (Σ _ : κ, ν) → σ) (f : ρ → ν → ρ)
    (hne : ∀ s e k, k≠e.1 → row (step s e) k=row s k)
    (heq : ∀ s e, row (step s e) e.1=f (row s e.1) e.2) (m : HashMap κ ν) (s : σ) (k : κ) :
    row (m.entries.foldl step s) k=((m.lookup k).map (f (row s k))).getD (row s k) := by
  obtain ⟨l,hl⟩ := m
  simp only [AList.lookup]
  induction l generalizing s with
  | nil => rfl
  | cons e l ih =>
    obtain ⟨k',v⟩ := e
    rw [nodupKeys_cons] at hl
    rw [foldl_cons,ih _ hl.2]
    by_cases hk : k=k'
    · subst hk
      have hnone : l.dlookup k=none := dlookup_eq_none.mpr hl.1
      rw [hnone,dlookup_cons_eq]
      simpa using heq s ⟨k,v⟩
    · rw [dlookup_cons_ne _ _ hk,hne s ⟨k',v⟩ k hk]

theorem mem_values_iff : v∈m.values ↔ ∃ k, m.lookup k=some v := by
  simp only [values,mem_map]
  constructor
  · rintro ⟨⟨k,w⟩,hm,rfl⟩
    exact ⟨k,mem_entries_iff.mp hm⟩
  · rintro ⟨k,hk⟩
    exact ⟨⟨k,v⟩,mem_entries_iff.mpr hk,rfl⟩

theorem perm_of_lookup {m' : HashMap κ ν} (h : ∀ k, m.lookup k=m'.lookup k) :
    m.entries.Perm m'.entries :=
  lookup_ext m.nodupKeys m'.nodupKeys fun k v => by
    have := h k
    simp only [AList.lookup] at this
    rw [this]

theorem values_insert (k : κ) (v : ν) :
    values (m.insert k v)=v::values (m.erase k) := rfl

theorem entries_perm_cons_erase (h : m.lookup k=some v) :
    m.entries.Perm (⟨k,v⟩::(m.erase k).entries) := by
  have hsame : ∀ k', m.lookup k'=(m.insert k v).lookup k' := by
    intro k'
    rw [lookup_insert_eq]
    split
    · rename_i hk
      rw [hk,h]
    · rfl
  exact perm_of_lookup hsame

theorem erase_eq_self (h : m.lookup k=none) : m.erase k=m := by
  apply AList.ext
  exact kerase_of_notMem_keys (AList.lookup_eq_none.mp h)

theorem length_le_card {S : Finset κ} (h : ∀ k∈m, k∈S) : m.entries.length ≤ S.card := by
  have hsub : m.keys.toFinset⊆S := by
    intro k hk
    exact h k (AList.mem_keys.mpr (mem_toFinset.mp hk))
  have hcard := Finset.card_le_card hsub
  rw [toFinset_card_of_nodup m.keys_nodup] at hcard
  simpa [AList.keys,keys] using hcard

theorem length_insert_of_mem (h : k∈m) (v : ν) :
    (m.insert k v).entries.length=m.entries.length := by
  have hk : k∈m.keys := AList.mem_keys.mp h
  have hlen : (m.insert k v).keys.length=m.keys.length := by
    rw [AList.keys_insert,length_cons,length_erase_of_mem hk]
    have := length_pos_of_mem hk
    omega
  simpa [AList.keys,keys] using hlen

theorem length_insert_of_notMem (h : k∉m) (v : ν) :
    (m.insert k v).entries.length=m.entries.length+1 := by
  rw [AList.entries_insert_of_notMem h,length_cons]

end

/-- The order in which a loop runs over the entries of a hash map. -/
structure IterOrder where
  order : ∀ {α : Type}, List α → List α
  perm : ∀ {α : Type} (l : List α), (order l).Perm l

def IterOrder.listed : IterOrder := ⟨fun l => l,fun _ => .refl _⟩

def iterValues (o : IterOrder) (m : HashMap κ ν) : List ν := (o.order m.entries).map (·.2)

theorem iterValues_perm (o : IterOrder) (m : HashMap κ ν) : (m.iterValues o).Perm m.values :=
    (o.perm m.entries).map _

/-! ## Tallies -/

section

variable [DecidableEq κ]

def vote (m : HashMap κ ℕ) (k : κ) : HashMap κ ℕ := m.modify k 0 (· + 1)

/-- A map that holds the positive counts of `l`. -/
def Counts (m : HashMap κ ℕ) (l : List κ) : Prop :=
  ∀ k, m.lookup k=if k∈l then some (l.count k) else none

theorem counts_empty : Counts (∅ : HashMap κ ℕ) [] := by
  intro k; simp

variable {l : List κ} {m : HashMap κ ℕ}

theorem Counts.vote (h : Counts m l) (k : κ) : Counts (m.vote k) (l++[k]) := by
  intro k'
  rw [HashMap.vote,modify,lookup_insert_eq]
  by_cases hk : k'=k
  · subst hk
    rw [if_pos rfl,h k',if_pos (mem_append_right l (mem_singleton.mpr rfl))]
    by_cases hl : k'∈l
    · simp [hl]
    · simp [hl,count_eq_zero]
  · have hne : ¬ k=k' := fun h => hk h.symm
    simp [hk,h k',count_append,hne]

theorem Counts.perm (h : Counts m l) {l' : List κ} (hp : l.Perm l') : Counts m l' := by
  intro k
  rw [h k,hp.count_eq]
  simp only [hp.mem_iff]

theorem Counts.foldl_vote (h : Counts m l) (keys : List κ) :
    Counts (keys.foldl HashMap.vote m) (l++keys) := by
  induction keys generalizing m l with
  | nil => rwa [append_nil]
  | cons k keys ih =>
    rw [foldl_cons,append_cons]
    exact ih (h.vote k)

theorem Counts.mem_entries_iff (h : Counts m l) {k : κ} {c : ℕ} : ⟨k,c⟩∈m.entries ↔ k∈l ∧
    c=l.count k := by
  rw [HashMap.mem_entries_iff,h k]
  by_cases hk : k∈l <;> simp [hk,eq_comm]

theorem Counts.entries_eq_nil_iff (h : Counts m l) : m.entries=[] ↔ l=[] := by
  simp only [eq_nil_iff_forall_not_mem]
  constructor
  · intro hm k hk
    exact hm ⟨k,l.count k⟩ (h.mem_entries_iff.mpr ⟨hk,rfl⟩)
  · rintro hl ⟨k,c⟩ he
    exact hl k (h.mem_entries_iff.mp he).1

theorem Counts.sum_values (h : Counts m l) : m.values.sum=l.length := by
  have hvalues : m.values=m.keys.map fun k => l.count k := by
    simp only [values,AList.keys,keys,map_map]
    apply map_congr_left
    rintro ⟨k,c⟩ he
    exact (h.mem_entries_iff.mp he).2
  have hkeys : m.keys.Perm l.dedup := by
    apply (perm_ext_iff_of_nodup m.keys_nodup l.nodup_dedup).mpr
    intro k
    rw [mem_dedup,← AList.mem_keys,← AList.lookup_isSome,h k]
    by_cases hk : k∈l <;> simp [hk]
  rw [hvalues,(hkeys.map _).sum_eq,sum_map_count_dedup_eq_length]

end

/-! ## The element with the most votes -/

section

variable [LinearOrder κ]

variable (best : κ × ℕ)

/-- One turn of the loop: the entry replaces the best one so far if it has more votes, or as
many and a larger key. -/
def better (e : Σ _ : κ, ℕ) : κ × ℕ :=
  if e.2 > best.2 ∨ (e.2=best.2 ∧ e.1 > best.1) then (e.1,e.2) else best

def plurality (entries : List (Σ _ : κ, ℕ)) : κ × ℕ := entries.foldl better best

theorem plurality_mem (entries : List (Σ _ : κ, ℕ)) :
    plurality best entries=best ∨ ∃ e∈entries, plurality best entries=(e.1,e.2) := by
  induction entries generalizing best with
  | nil => exact .inl rfl
  | cons e entries ih =>
    rcases ih (better best e) with h | ⟨e',he',h⟩
    · simp only [plurality,foldl_cons] at h ⊢
      rw [h,better]
      split
      · exact .inr ⟨e,by simp,rfl⟩
      · exact .inl rfl
    · exact .inr ⟨e',mem_cons_of_mem _ he',h⟩

theorem count_le_better (e : Σ _ : κ, ℕ) : best.2 ≤ (better best e).2 ∧
    e.2 ≤ (better best e).2 := by
  unfold better
  split <;> rename_i h <;> simp only [not_or,not_and,not_lt] at h ⊢ <;> omega

theorem count_le_plurality (entries : List (Σ _ : κ, ℕ)) :
    best.2 ≤ (plurality best entries).2 ∧ ∀ e∈entries, e.2 ≤ (plurality best entries).2 := by
  induction entries generalizing best with
  | nil => simp [plurality]
  | cons e entries ih =>
    obtain ⟨hb,hrest⟩ := ih (better best e)
    obtain ⟨h₁,h₂⟩ := count_le_better best e
    refine ⟨h₁.trans hb,?_⟩
    rintro e' he'
    rcases mem_cons.mp he' with rfl | he'
    · exact h₂.trans hb
    · exact hrest e' he'

variable {m : HashMap κ ℕ} {l : List κ} {entries : List (Σ _ : κ, ℕ)}

theorem Counts.plurality_eq (h : Counts m l) (hl : l≠[]) (hp : entries.Perm m.entries) (start : κ) :
    (plurality (start,0) entries).1∈l ∧
      (plurality (start,0) entries).2=l.count (plurality (start,0) entries).1 := by
  obtain ⟨k,hk⟩ := exists_mem_of_ne_nil l hl
  have hentry : (⟨k,l.count k⟩ : Σ _ : κ,ℕ)∈entries :=
    hp.mem_iff.mpr (h.mem_entries_iff.mpr ⟨hk,rfl⟩)
  have hcount := (count_le_plurality (start,0) entries).2 _ hentry
  have hpos : 0 < l.count k := count_pos_iff.mpr hk
  rcases plurality_mem (start,0) entries with hr | ⟨⟨k',c⟩,he,hr⟩
  · rw [hr] at hcount
    simp only at hcount
    omega
  · obtain ⟨hmem,hc⟩ := h.mem_entries_iff.mp (hp.mem_iff.mp he)
    rw [hr]
    exact ⟨hmem,hc⟩

theorem Counts.plurality_le_half_iff (h : Counts m l) (hl : l≠[]) (hp : entries.Perm m.entries)
    (start : κ) : (plurality (start,0) entries).2*2 ≤ m.values.sum ↔
      ∀ k, 2*l.count k ≤ l.length := by
  obtain ⟨hmem,hcount⟩ := h.plurality_eq hl hp start
  rw [h.sum_values]
  constructor
  · intro hle k
    by_cases hk : k∈l
    · have := (count_le_plurality (start,0) entries).2 ⟨k,l.count k⟩
        (hp.mem_iff.mpr (h.mem_entries_iff.mpr ⟨hk,rfl⟩))
      simp only at this
      omega
    · rw [count_eq_zero_of_not_mem hk]
      omega
  · intro hall
    have := hall (plurality (start,0) entries).1
    omega

end

end HashMap
