import Mathlib.Data.Set.Insert

/-!
# Rings of numbers

The members of a set of numbers in a ring: each one is followed by the next larger one, and the
largest by zero, which is the smallest. Links to the next and to the previous number that lead
around the ring do so when a new number comes in behind the largest one, and when a number
other than zero is taken out.
-/

namespace NumberRing

open Function

structure Follows (S : Set ℕ) (p q : ℕ) : Prop where
  left : p∈S
  right : q∈S
  gap : (p < q ∧ ∀ r∈S, r ≤ p ∨ q ≤ r) ∨ q=0 ∧ ∀ r∈S, r ≤ p

variable {S : Set ℕ} {a b new p p' q q' x : ℕ}

theorem Follows.left_unique (h : Follows S p q) (h' : Follows S p' q) : p=p' := by
  rcases h.gap with ⟨hlt,hgap⟩ | ⟨rfl,hmax⟩ <;> rcases h'.gap with ⟨hlt',hgap'⟩ | ⟨hzero,hmax'⟩
  · have := hgap p' h'.left
    have := hgap' p h.left
    omega
  · omega
  · omega
  · exact le_antisymm (hmax' p h.left) (hmax p' h'.left)

theorem Follows.right_unique (h : Follows S p q) (h' : Follows S p q') : q=q' := by
  rcases h.gap with ⟨hlt,hgap⟩ | ⟨rfl,hmax⟩ <;> rcases h'.gap with ⟨hlt',hgap'⟩ | ⟨rfl,hmax'⟩
  · have := hgap q' h'.right
    have := hgap' q h.right
    omega
  · exact absurd (hmax' q h.right) (by omega)
  · exact absurd (hmax q' h'.right) (by omega)
  · rfl

theorem Follows.insert_new (h : Follows S a 0) (hnew : a < new) :
    Follows (insert new S) a new ∧ Follows (insert new S) new 0 := by
  have hmax : ∀ r∈S, r ≤ a := by
    rcases h.gap with ⟨hlt,-⟩ | ⟨-,hmax⟩
    · omega
    · exact hmax
  refine ⟨⟨.inr h.left,.inl rfl,.inl ⟨hnew,?_⟩⟩,⟨.inl rfl,.inr h.right,.inr ⟨rfl,?_⟩⟩⟩
  · rintro r (rfl | hr)
    · exact .inr le_rfl
    · exact .inl (hmax r hr)
  · rintro r (rfl | hr)
    · exact le_rfl
    · exact (hmax r hr).trans hnew.le

theorem Follows.insert_of_ne (h : Follows S a 0) (hnew : a < new) (hp : Follows S p q) (hne : p≠a) :
    Follows (insert new S) p q := by
  rcases hp.gap with ⟨hlt,hgap⟩ | ⟨rfl,-⟩
  · refine ⟨.inr hp.left,.inr hp.right,.inl ⟨hlt,?_⟩⟩
    rintro r (rfl | hr)
    · rcases h.gap with ⟨hlt',-⟩ | ⟨-,hmax⟩
      · omega
      · exact .inr ((hmax q hp.right).trans hnew.le)
    · exact hgap r hr
  · exact absurd (hp.left_unique h) hne

theorem Follows.erase_between (h : Follows S a x) (h' : Follows S x b) (hx : x≠0) :
    Follows (S \ {x}) a b := by
  obtain ⟨hlt,hgap⟩ := h.gap.resolve_right fun hzero => hx hzero.1
  refine ⟨⟨h.left,hlt.ne⟩,⟨h'.right,?_⟩,?_⟩
  · rcases h'.gap with ⟨hlt',-⟩ | ⟨rfl,-⟩
    · exact hlt'.ne'
    · exact hx.symm
  · rcases h'.gap with ⟨hlt',hgap'⟩ | ⟨hzero,hmax⟩
    · refine .inl ⟨hlt.trans hlt',fun r hr => ?_⟩
      have := hgap r hr.1
      have := hgap' r hr.1
      have : r≠x := hr.2
      omega
    · refine .inr ⟨hzero,fun r hr => ?_⟩
      have := hgap r hr.1
      have := hmax r hr.1
      have : r≠x := hr.2
      omega

theorem Follows.erase_of_ne (h : Follows S a x) (hp : Follows S p q) (hx : p≠x) (ha : p≠a) :
    Follows (S \ {x}) p q := by
  refine ⟨⟨hp.left,hx⟩,⟨hp.right,?_⟩,?_⟩
  · rintro rfl
    exact ha (hp.left_unique h)
  · exact hp.gap.imp (fun hgap => ⟨hgap.1,fun r hr => hgap.2 r hr.1⟩) fun hmax =>
      ⟨hmax.1,fun r hr => hmax.2 r hr.1⟩

/-! ## Links -/

/-- The next and the previous number of each one. -/
abbrev Links := ℕ → Option (ℕ × ℕ)

namespace Links

variable {L : Links} {l : ℕ × ℕ}

def live (L : Links) : Set ℕ := {p | (L p).isSome}

/-- Another number behind `a`, and another one before `b`. -/
def patch (L : Links) (a next b prev : ℕ) : Links :=
  let L' := Function.update L a ((L a).map fun l => (next,l.2))
  Function.update L' b ((L' b).map fun l => (l.1,prev))

def append (L : Links) (last new : ℕ) : Links :=
    Function.update (L.patch last new 0 new) new (some (0,last))

def unlink (L : Links) (p prev next : ℕ) : Links :=
    Function.update (L.patch prev next next prev) p none

theorem live_put : live (update L p (some l))=insert p L.live := by
  ext q
  by_cases hq : q=p <;> simp [live,update_apply,hq]

theorem live_drop : live (update L p none)=L.live \ {p} := by
  ext q
  by_cases hq : q=p <;> simp [live,update_apply,hq]

theorem live_modify (f : ℕ × ℕ → ℕ × ℕ) : live (update L p ((L p).map f))=L.live := by
  ext q
  by_cases hq : q=p <;> simp [live,update_apply,hq]

theorem live_patch (a m b n : ℕ) : (L.patch a m b n).live=L.live := by
  rw [patch,live_modify,live_modify]

theorem modify_eq_some {f : ℕ × ℕ → ℕ × ℕ} (h : update L p ((L p).map f) q=some l) :
    ∃ l', L q=some l' ∧ l=if q=p then f l' else l' := by
  rw [update_apply] at h
  split at h
  · rename_i hq
    obtain ⟨l',hl',rfl⟩ := Option.map_eq_some_iff.mp h
    exact ⟨l',hq ▸ hl',by rw [if_pos hq]⟩
  · exact ⟨l,h,by rw [if_neg ‹_›]⟩

theorem patch_eq_some {m n : ℕ} (h : L.patch a m b n q=some l) :
    ∃ l', L q=some l' ∧ l=(if q=a then m else l'.1,if q=b then n else l'.2) := by
  obtain ⟨l₁,h₁,rfl⟩ := modify_eq_some h
  obtain ⟨l₂,h₂,rfl⟩ := modify_eq_some h₁
  refine ⟨l₂,h₂,?_⟩
  split_ifs <;> rfl

/-- Every link leads to a neighbour in the ring. -/
structure Ring (L : Links) : Prop where
  root : ∀ p∈L.live, 0∈L.live
  next : ∀ p l, L p=some l → Follows L.live p l.1
  prev : ∀ p l, L p=some l → Follows L.live l.2 p

theorem ring_zero : Ring (update (fun _ => none) 0 (some (0,0))) := by
  have hlive : live (update (fun _ => none) 0 (some (0,0)))={0} := by
    rw [live_put]
    simp [live]
  have hzero : Follows {0} 0 0 := ⟨rfl,rfl,.inr ⟨rfl,fun r hr => hr.le⟩⟩
  refine ⟨fun _ _ => ?_,fun q l hq => ?_,fun q l hq => ?_⟩ <;> rw [hlive]
  · rfl
  all_goals
    rw [update_apply] at hq
    split at hq <;> cases hq
    exact ‹q=0› ▸ hzero

theorem Ring.append (h : L.Ring) (hlast : Follows L.live a 0) (hnew : a < new) :
    (L.append a new).Ring := by
  obtain ⟨hanew,hnewzero⟩ := hlast.insert_new hnew
  have hother : ∀ {p q}, Follows L.live p q → p≠a → Follows (insert new L.live) p q :=
    hlast.insert_of_ne hnew
  have hcases : ∀ q l, L.append a new q=some l → q=new ∧ l=(0,a) ∨
      ∃ l', L q=some l' ∧ l=(if q=a then new else l'.1,if q=0 then new else l'.2) := by
    intro q l hq
    rw [Links.append,update_apply] at hq
    split at hq
    · cases hq
      exact .inl ⟨‹_›,rfl⟩
    · exact .inr (patch_eq_some hq)
  refine ⟨fun _ _ => ?_,fun q l hq => ?_,fun q l hq => ?_⟩ <;> rw [Links.append,live_put,live_patch]
  · exact hnewzero.right
  · obtain ⟨rfl,rfl⟩ | ⟨l',hl',rfl⟩ := hcases q l hq
    · exact hnewzero
    dsimp only
    split
    · exact ‹q=a› ▸ hanew
    · exact hother (h.next q l' hl') ‹_›
  · obtain ⟨rfl,rfl⟩ | ⟨l',hl',rfl⟩ := hcases q l hq
    · exact hanew
    dsimp only
    split
    · exact ‹q=0› ▸ hnewzero
    · refine hother (h.prev q l' hl') fun heq => ‹q≠0› ?_
      have hfollows := h.prev q l' hl'
      rw [heq] at hfollows
      exact hfollows.right_unique hlast

theorem Ring.unlink (h : L.Ring) (hp : p≠0) (hl : L p=some l) : (L.unlink p l.2 l.1).Ring := by
  have hprev := h.prev p l hl
  have hnext := h.next p l hl
  have hjoin := hprev.erase_between hnext hp
  have hother : ∀ {q r}, Follows L.live q r → q≠p → q≠l.2 → Follows (L.live \ {p}) q r :=
    hprev.erase_of_ne
  have hcases : ∀ q k, L.unlink p l.2 l.1 q=some k → q≠p ∧
      ∃ l', L q=some l' ∧ k=(if q=l.2 then l.1 else l'.1,if q=l.1 then l.2 else l'.2) := by
    intro q k hq
    rw [Links.unlink,update_apply] at hq
    split_ifs at hq
    exact ⟨‹_›,patch_eq_some hq⟩
  refine ⟨fun q hq => ?_,fun q k hq => ?_,fun q k hq => ?_⟩
  · rw [Links.unlink,live_drop,live_patch] at hq ⊢
    exact ⟨h.root q hq.1,hp.symm⟩
  · obtain ⟨hqp,l',hl',rfl⟩ := hcases q k hq
    rw [Links.unlink,live_drop,live_patch]
    dsimp only
    split
    · exact ‹q=l.2› ▸ hjoin
    · exact hother (h.next q l' hl') hqp ‹_›
  · obtain ⟨hqp,l',hl',rfl⟩ := hcases q k hq
    have hfollows := h.prev q l' hl'
    rw [Links.unlink,live_drop,live_patch]
    dsimp only
    split
    · exact ‹q=l.1› ▸ hjoin
    · refine hother hfollows (fun heq => ‹q≠l.1› ?_) fun heq => hqp ?_ <;> rw [heq] at hfollows
      · exact hfollows.right_unique hnext
      · exact hfollows.right_unique hprev

end Links

end NumberRing
