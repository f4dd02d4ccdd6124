import Mathlib.Data.List.Induction
import Mathlib.Data.List.Perm.Basic

/-!
# The newest of a list of versions

A register keeps the version of the highest rank that it has been given, the first one of equals.
What it holds at the end does not depend on the order of the versions when their ranks differ.
-/

namespace Newest

variable {α : Type} (rank : α → ℕ)

def keep (current : Option α) (a : α) : Option α :=
  if current.any (fun c => decide (rank a ≤ rank c)) then current else some a

def newest (l : List α) : Option α := l.foldl (keep rank) none

variable {rank} {l l' : List α} {a : α}

theorem keep_some (c a : α) : keep rank (some c) a=if rank a ≤ rank c then some c else some a := by
  simp [keep]

theorem newest_concat (l : List α) (a : α) : newest rank (l++[a])=keep rank (newest rank l) a := by
  rw [newest,List.foldl_append]
  rfl

/-- The register holds a version of the highest rank, if there has been one at all. -/
theorem newest_spec (rank : α → ℕ) (l : List α) :
    (newest rank l=none ∧ l=[]) ∨ ∃ a, newest rank l=some a ∧ a∈l ∧ ∀ b∈l, rank b ≤ rank a := by
  induction l using List.reverseRecOn with
  | nil => exact .inl ⟨rfl,rfl⟩
  | append_singleton l a ih =>
    right
    rw [newest_concat]
    obtain ⟨hnone,rfl⟩ | ⟨c,hc,hmem,hmax⟩ := ih
    · exact ⟨a,by rw [hnone]; rfl,by simp,by simp⟩
    rw [hc,keep_some]
    by_cases hle : rank a ≤ rank c
    · refine ⟨c,if_pos hle,List.mem_append_left _ hmem,fun b hb => ?_⟩
      rcases List.mem_append.mp hb with hb | hb
      · exact hmax b hb
      · rwa [List.mem_singleton.mp hb]
    · refine ⟨a,if_neg hle,by simp,fun b hb => ?_⟩
      rcases List.mem_append.mp hb with hb | hb
      · have := hmax b hb
        omega
      · exact Nat.le_of_eq (congrArg rank (List.mem_singleton.mp hb))

theorem newest_mem (h : newest rank l=some a) : a∈l := by
  obtain ⟨hnone,-⟩ | ⟨b,hb,hmem,-⟩ := newest_spec rank l
  · rw [hnone] at h
    cases h
  · rw [hb] at h
    cases h
    exact hmem

theorem rank_le_newest (h : newest rank l=some a) {b : α} (hb : b∈l) : rank b ≤ rank a := by
  obtain ⟨hnone,-⟩ | ⟨c,hc,-,hmax⟩ := newest_spec rank l
  · rw [hnone] at h
    cases h
  · rw [hc] at h
    cases h
    exact hmax b hb

theorem newest_eq_some_iff (hinj : ∀ a∈l, ∀ b∈l, rank a=rank b → a=b) :
    newest rank l=some a ↔ a∈l ∧ ∀ b∈l, rank b ≤ rank a := by
  constructor
  · intro h
    exact ⟨newest_mem h,fun b => rank_le_newest h⟩
  rintro ⟨hmem,hmax⟩
  obtain ⟨-,rfl⟩ | ⟨c,hc,hcmem,hcmax⟩ := newest_spec rank l
  · simp at hmem
  · rw [hc,hinj c hcmem a hmem (Nat.le_antisymm (hmax c hcmem) (hcmax a hmem))]

theorem newest_perm (hinj : ∀ a∈l, ∀ b∈l, rank a=rank b → a=b) (h : l.Perm l') :
    newest rank l=newest rank l' := by
  have hinj' : ∀ a∈l', ∀ b∈l', rank a=rank b → a=b := fun a ha b hb =>
    hinj a (h.mem_iff.mpr ha) b (h.mem_iff.mpr hb)
  apply Option.ext
  intro a
  rw [newest_eq_some_iff hinj,newest_eq_some_iff hinj',h.mem_iff]
  simp only [h.mem_iff]

end Newest
