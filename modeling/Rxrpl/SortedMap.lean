import Mathlib.Data.List.Nodup
import Mathlib.Order.Lattice

/-!
# Sorted maps

A map whose entries are listed in the strictly increasing order of their keys, so that every key has
one value. An insertion replaces the value of its key.
-/

structure SortedMap (κ ν : Type) [LinearOrder κ] where
  entries : List (κ × ν)
  sorted : entries.Pairwise fun e e' => e.1 < e'.1

namespace SortedMap

open List

variable {κ ν : Type} [LinearOrder κ]

def empty : SortedMap κ ν := ⟨[],.nil⟩

instance : EmptyCollection (SortedMap κ ν) := ⟨empty⟩

def values (m : SortedMap κ ν) : List ν := m.entries.map (·.2)

def first (m : SortedMap κ ν) : Option (κ × ν) := m.entries.head?

def insertEntry (k : κ) (v : ν) : List (κ × ν) → List (κ × ν)
  | [] => [(k,v)]
  | e::rest =>
    if k < e.1 then (k,v)::e::rest
    else if k=e.1 then (k,v)::rest
    else e::insertEntry k v rest

variable {e : κ × ν} {l : List (κ × ν)}

theorem mem_insertEntry {k : κ} {v : ν} (hl : l.Pairwise fun e e' => e.1 < e'.1) :
    e∈insertEntry k v l ↔ e=(k,v) ∨ e∈l ∧ e.1≠k := by
  induction l with
  | nil => simp [insertEntry]
  | cons e' rest ih =>
    obtain ⟨hfirst,hrest⟩ := pairwise_cons.mp hl
    rw [insertEntry]
    by_cases hlt : k < e'.1
    · -- all keys are above the new one
      have hne : ∀ x∈e'::rest, x.1≠k := by
        intro x hx
        rcases mem_cons.mp hx with rfl | hx
        · exact hlt.ne'
        · exact (hlt.trans (hfirst x hx)).ne'
      rw [if_pos hlt,mem_cons]
      exact or_congr_right ⟨fun hx => ⟨hx,hne e hx⟩,fun hx => hx.1⟩
    · rw [if_neg hlt]
      by_cases heq : k=e'.1
      · rw [if_pos heq,mem_cons,mem_cons]
        have hne : e∈rest → e.1≠k := fun he => heq ▸ (hfirst e he).ne'
        constructor
        · rintro (rfl | he)
          · exact .inl rfl
          · exact .inr ⟨.inr he,hne he⟩
        · rintro (rfl | ⟨rfl | he,hek⟩)
          · exact .inl rfl
          · exact (hek heq.symm).elim
          · exact .inr he
      · rw [if_neg heq,mem_cons,mem_cons,ih hrest]
        have hne : e=e' → e.1≠k := fun he => he ▸ Ne.symm heq
        constructor
        · rintro (he | he | he)
          · exact .inr ⟨.inl he,hne he⟩
          · exact .inl he
          · exact .inr ⟨.inr he.1,he.2⟩
        · rintro (he | ⟨he | he,hek⟩)
          · exact .inr (.inl he)
          · exact .inl he
          · exact .inr (.inr ⟨he,hek⟩)

theorem sorted_insertEntry (k : κ) (v : ν) (hl : l.Pairwise fun e e' => e.1 < e'.1) :
    (insertEntry k v l).Pairwise fun e e' => e.1 < e'.1 := by
  induction l with
  | nil => simp [insertEntry]
  | cons e' rest ih =>
    obtain ⟨hfirst,hrest⟩ := pairwise_cons.mp hl
    rw [insertEntry]
    split
    · rename_i hlt
      refine pairwise_cons.mpr ⟨fun x hx => ?_,hl⟩
      rcases mem_cons.mp hx with rfl | hx
      · exact hlt
      · exact hlt.trans (hfirst x hx)
    · split
      · rename_i heq
        exact pairwise_cons.mpr ⟨fun x hx => heq ▸ hfirst x hx,hrest⟩
      · rename_i hlt hne
        refine pairwise_cons.mpr ⟨fun x hx => ?_,ih hrest⟩
        rcases (mem_insertEntry hrest).mp hx with rfl | hx
        · exact lt_of_le_of_ne (not_lt.mp hlt) (Ne.symm hne)
        · exact hfirst x hx.1

def insert (m : SortedMap κ ν) (k : κ) (v : ν) : SortedMap κ ν :=
  ⟨insertEntry k v m.entries,sorted_insertEntry k v m.sorted⟩

def retain (p : κ → ν → Bool) (m : SortedMap κ ν) : SortedMap κ ν :=
  ⟨m.entries.filter fun e => p e.1 e.2,m.sorted.filter _⟩

variable {m : SortedMap κ ν} {k : κ} {v : ν}

theorem mem_insert : e∈(m.insert k v).entries ↔ e=(k,v) ∨ e∈m.entries ∧ e.1≠k :=
    mem_insertEntry m.sorted

theorem mem_retain {p : κ → ν → Bool} : e∈(m.retain p).entries ↔ e∈m.entries ∧ p e.1 e.2=true :=
    mem_filter

theorem nodup_keys (m : SortedMap κ ν) : (m.entries.map (·.1)).Nodup :=
    pairwise_map.mpr (m.sorted.imp fun h => h.ne)

theorem value_unique {v' : ν} (h : (k,v)∈m.entries) (h' : (k,v')∈m.entries) : v=v' := by
  exact congrArg Prod.snd (inj_on_of_nodup_map (nodup_keys m) h h' rfl)

theorem first_le {e' : κ × ν} (h : m.first=some e) (h' : e'∈m.entries) : e.1 ≤ e'.1 := by
  obtain ⟨l,hl⟩ := m
  cases l with
  | nil => cases h
  | cons x rest =>
    cases h
    rcases mem_cons.mp h' with rfl | h'
    · exact le_rfl
    · exact ((pairwise_cons.mp hl).1 e' h').le

end SortedMap
