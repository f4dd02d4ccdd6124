import Mathlib.Data.List.Perm.Basic
import Mathlib.Order.Lattice
import Mathlib.Order.Nat

/-!
# Chains of pages

Items are ordered by a key of theirs and kept on pages, from one to `2 * half` on each. A page has a
key above the keys of its items and not above those of the items of the next page.

A chain is worked on at a focus: the pages before it, nearest first, and the pages from it on. A
full page is split in the middle, and neighbours whose items fit on one page are merged. The last
page keeps its key: when it has become empty, it takes the items of the page before it.
-/

namespace PagedChain

open List

structure Page (κ τ : Type) where
  key : κ
  items : List τ

section

variable {κ τ : Type} {p : Page κ τ} {front back : List (Page κ τ)}

def allItems (pages : List (Page κ τ)) : List τ := pages.flatMap Page.items

@[simp] theorem allItems_nil : allItems ([] : List (Page κ τ))=[] := rfl

@[simp] theorem allItems_cons : allItems (p::back)=p.items++allItems back := rfl

theorem allItems_append : allItems (front++back)=allItems front++allItems back := flatMap_append

theorem allItems_focus : (allItems (front.reverse++back)).Perm (allItems front++allItems back) := by
  rw [allItems_append]
  exact Perm.append_right _ (Perm.flatMap_right _ front.reverse_perm)

theorem mem_keys_focus {k : κ} :
    k∈(front.reverse++back).map Page.key ↔ k∈front.map Page.key ∨ k∈back.map Page.key := by
  simp

theorem not_mem_keys {k : κ} (h : ∀ q∈back, q.key≠k) : k∉back.map Page.key := by
  intro hmem
  obtain ⟨q,hq,hkey⟩ := mem_map.mp hmem
  exact h q hq hkey

/-- The key of the page before a focus, or the lower bound of the chain. -/
def bound (lo : κ) : List (Page κ τ) → κ
  | [] => lo
  | p::_ => p.key

/-- The key of the last page, or `lo` when there is none. -/
def lastKey (lo : κ) : List (Page κ τ) → κ
  | [] => lo
  | p::pages => lastKey p.key pages

theorem lastKey_focus {lo : κ} :
    lastKey lo (front.reverse++back)=lastKey (bound lo front) back := by
  induction front generalizing back with
  | nil => rfl
  | cons p front ih =>
    rw [reverse_cons,append_assoc,singleton_append,ih]
    rfl

end

variable {κ τ : Type} [LinearOrder κ] (low : τ → κ) (half : ℕ)

/-! ## Well-formed chains -/

/-- A page whose items are not below `lo`. -/
structure PageOk (lo : κ) (p : Page κ τ) : Prop where
  nonempty : p.items≠[]
  size : p.items.length ≤ 2*half
  sorted : p.items.Pairwise fun a b => low a < low b
  bounds : ∀ t∈p.items, lo ≤ low t ∧ low t < p.key

/-- Pages in the order of their items, none of which is below `lo`. -/
def WellFormed : κ → List (Page κ τ) → Prop
  | _, [] => True
  | lo, p::pages => PageOk low half lo p ∧ WellFormed p.key pages

/-- The pages before a focus, nearest first. -/
def WellFormedBefore (lo : κ) : List (Page κ τ) → Prop
  | [] => True
  | p::front => PageOk low half (bound lo front) p ∧ WellFormedBefore lo front

section

variable {low half} {lo : κ} {p : Page κ τ} {front back : List (Page κ τ)}

theorem wellFormed_focus : WellFormed low half lo (front.reverse++back) ↔
      WellFormedBefore low half lo front ∧ WellFormed low half (bound lo front) back := by
  induction front generalizing back with
  | nil => simp [WellFormedBefore,bound]
  | cons p front ih =>
    rw [reverse_cons,append_assoc,singleton_append,ih]
    simp only [WellFormed,WellFormedBefore,bound]
    tauto

theorem PageOk.lt_key (h : PageOk low half lo p) : lo < p.key := by
  obtain ⟨t,ht⟩ := exists_mem_of_ne_nil _ h.nonempty
  exact (h.bounds t ht).1.trans_lt (h.bounds t ht).2

theorem PageOk.mono {lo' : κ} (h : PageOk low half lo p) (hle : lo' ≤ lo) : PageOk low half lo' p :=
  ⟨h.nonempty,h.size,h.sorted,fun t ht => ⟨hle.trans (h.bounds t ht).1,(h.bounds t ht).2⟩⟩

theorem WellFormed.lt_key (h : WellFormed low half lo back) (hp : p∈back) : lo < p.key := by
  induction back generalizing lo with
  | nil => simp at hp
  | cons q back ih =>
    obtain rfl | hp := mem_cons.mp hp
    · exact h.1.lt_key
    · exact h.1.lt_key.trans (ih h.2 hp)

theorem WellFormed.lt_lastKey (h : WellFormed low half lo back) (hne : back≠[]) :
    lo < lastKey lo back := by
  induction back generalizing lo with
  | nil => exact absurd rfl hne
  | cons p back ih =>
    cases back with
    | nil => exact h.1.lt_key
    | cons q back => exact h.1.lt_key.trans (ih h.2 (by simp))

theorem WellFormed.pairwise (h : WellFormed low half lo back) : back.Pairwise fun a b =>
    a.key < b.key := by
  induction back generalizing lo with
  | nil => exact .nil
  | cons p back ih => exact .cons (fun _ hq => h.2.lt_key hq) (ih h.2)

theorem WellFormed.pageOk (h : WellFormed low half lo back) (hp : p∈back) :
    ∃ lo', lo ≤ lo' ∧ PageOk low half lo' p := by
  induction back generalizing lo with
  | nil => simp at hp
  | cons q back ih =>
    obtain rfl | hp := mem_cons.mp hp
    · exact ⟨lo,le_rfl,h.1⟩
    · obtain ⟨lo',hle,hok⟩ := ih h.2 hp
      exact ⟨lo',h.1.lt_key.le.trans hle,hok⟩

theorem WellFormed.le_low (h : WellFormed low half lo back) {t : τ} (ht : t∈allItems back) :
    lo ≤ low t := by
  obtain ⟨p,hp,ht⟩ := mem_flatMap.mp ht
  obtain ⟨lo',hle,hok⟩ := h.pageOk hp
  exact hle.trans (hok.bounds t ht).1

theorem WellFormed.allItems_pairwise (h : WellFormed low half lo back) :
    (allItems back).Pairwise fun a b => low a < low b := by
  induction back generalizing lo with
  | nil => exact .nil
  | cons p back ih =>
    refine pairwise_append.mpr ⟨h.1.sorted,ih h.2,fun x hx y hy => ?_⟩
    exact (h.1.bounds x hx).2.trans_le (h.2.le_low hy)

theorem WellFormed.key_le_lastKey (h : WellFormed low half lo back) (hp : p∈back) :
    p.key ≤ lastKey lo back := by
  induction back generalizing lo with
  | nil => simp at hp
  | cons q back ih =>
    obtain rfl | hp := mem_cons.mp hp
    · cases back with
      | nil => exact le_rfl
      | cons r back => exact (h.2.lt_lastKey (by simp)).le
    · exact ih h.2 hp

theorem WellFormedBefore.low_lt (h : WellFormedBefore low half lo front) {t : τ}
    (ht : t∈allItems front) : ∃ q∈front, low t < q.key := by
  induction front with
  | nil => simp at ht
  | cons q front ih =>
    obtain ht | ht := mem_append.mp ht
    · exact ⟨q,by simp,(h.1.bounds t ht).2⟩
    · obtain ⟨r,hr,hlt⟩ := ih h.2 ht
      exact ⟨r,by simp [hr],hlt⟩

theorem exists_focus {pages : List (Page κ τ)} (h : WellFormed low half lo pages) {k : κ}
    (hk : lo ≤ k) :
    ∃ front back, pages=front.reverse++back ∧ (∀ p∈front, p.key ≤ k) ∧ bound lo front ≤ k ∧
      ∀ p∈back, k < p.key := by
  induction pages generalizing lo with
  | nil => exact ⟨[],[],rfl,by simp,hk,by simp⟩
  | cons q pages ih =>
    by_cases hq : q.key ≤ k
    · obtain ⟨front,back,rfl,hfront,hbound,hback⟩ := ih h.2 hq
      refine ⟨front++[q],back,by simp,?_,?_,hback⟩
      · intro p hp
        obtain hp | hp := mem_append.mp hp
        · exact hfront p hp
        · rw [mem_singleton.mp hp]
          exact hq
      · cases front with
        | nil => exact hq
        | cons p front => exact hbound
    · refine ⟨[],q::pages,rfl,by simp,hk,fun p hp => ?_⟩
      obtain rfl | hp := mem_cons.mp hp
      · exact not_le.mp hq
      · exact (not_le.mp hq).trans (h.2.lt_key hp)

end

/-! ## Placing an item -/

/-- An item takes its place before the first one with a higher key. -/
def place (t : τ) : List τ → List τ
  | [] => [t]
  | x::items => if low t < low x then t::x::items else x::place t items

section

variable {low} {t : τ} {items : List τ}

theorem place_perm : (place low t items).Perm (t::items) := by
  induction items with
  | nil => exact .refl _
  | cons x items ih =>
    simp only [place]
    split
    · exact .refl _
    · exact (ih.cons x).trans (.swap t x items)

theorem mem_place {x : τ} : x∈place low t items ↔ x=t ∨ x∈items := by
  rw [place_perm.mem_iff,mem_cons]

theorem length_place : (place low t items).length=items.length+1 := by
  rw [place_perm.length_eq,length_cons]

theorem place_ne_nil : place low t items≠[] := by
  intro h
  have := congrArg length h
  rw [length_place] at this
  simp at this

theorem place_sorted (h : items.Pairwise fun a b => low a < low b) (hne : ∀ x∈items, low x≠low t) :
    (place low t items).Pairwise fun a b => low a < low b := by
  induction items with
  | nil => exact pairwise_singleton ..
  | cons x items ih =>
    obtain ⟨hx,hitems⟩ := pairwise_cons.mp h
    simp only [place]
    split
    · rename_i hlt
      refine .cons (fun y hy => ?_) h
      obtain rfl | hy := mem_cons.mp hy
      · exact hlt
      · exact hlt.trans (hx y hy)
    · rename_i hlt
      have hxt : low x < low t := lt_of_le_of_ne (not_lt.mp hlt) (hne x (by simp))
      refine .cons (fun y hy => ?_) (ih hitems fun y hy => hne y (by simp [hy]))
      obtain rfl | hy := mem_place.mp hy
      · exact hxt
      · exact hx y hy

end

/-! ## Insertion -/

/-- The two pages that a full page becomes when an item comes in. The lower one has the key of the
first item above the middle. -/
def split (t : τ) (p : Page κ τ) : List (Page κ τ) :=
  match p.items.drop half with
  | [] => [p]
  | m::upper =>
    if low t < low m then [⟨low m,place low t (p.items.take half)⟩,⟨p.key,m::upper⟩]
    else [⟨low m,p.items.take half⟩,⟨p.key,place low t (m::upper)⟩]

/-- A page with an item put in, or the pages it is split into. -/
def insertPage (t : τ) (p : Page κ τ) : List (Page κ τ) :=
  if p.items.length < 2*half then [⟨p.key,place low t p.items⟩] else split low half t p

section

variable {low half} {lo : κ} {p : Page κ τ} {t : τ}

theorem PageOk.place (h : PageOk low half lo p) (hroom : p.items.length < 2*half) (hlo : lo ≤ low t)
    (hkey : low t < p.key) (hne : ∀ x∈p.items, low x≠low t) :
      PageOk low half lo ⟨p.key,place low t p.items⟩ where
  nonempty := place_ne_nil
  size := by
    rw [length_place]
    omega
  sorted := place_sorted h.sorted hne
  bounds := by
    intro x hx
    obtain rfl | hx := mem_place.mp hx
    · exact ⟨hlo,hkey⟩
    · exact h.bounds x hx

/-- The halves of a full page, with the first item above the middle. -/
theorem PageOk.halves (h : PageOk low half lo p) (hhalf : 0 < half)
    (hfull : 2*half ≤ p.items.length) :
    ∃ m upper, p.items.drop half=m::upper ∧ PageOk low half lo ⟨low m,p.items.take half⟩ ∧
      PageOk low half (low m) ⟨p.key,m::upper⟩ ∧ (p.items.take half).length=half ∧
        (m::upper).length=half := by
  have hlen : p.items.length=2*half := le_antisymm h.size hfull
  obtain ⟨m,upper,hdrop⟩ : ∃ m upper, p.items.drop half=m::upper := by
    cases hd : p.items.drop half with
    | nil =>
      have := congrArg length hd
      rw [length_drop,length_nil] at this
      omega
    | cons m upper => exact ⟨m,upper,rfl⟩
  have hsplit : p.items=p.items.take half++m::upper := by rw [← hdrop,take_append_drop]
  have hsorted := h.sorted
  rw [hsplit,pairwise_append] at hsorted
  obtain ⟨hlower,hupper,hacross⟩ := hsorted
  have htake : (p.items.take half).length=half := by rw [length_take]; omega
  have hupperLength : (m::upper).length=half := by rw [← hdrop,length_drop]; omega
  refine ⟨m,upper,hdrop,⟨?_,?_,hlower,?_⟩,⟨by simp,?_,hupper,?_⟩,htake,hupperLength⟩
  · intro hnil
    have hzero := congrArg length hnil
    simp only [length_nil] at hzero
    omega
  · show (p.items.take half).length ≤ 2*half
    omega
  · intro x hx
    exact ⟨(h.bounds x (mem_of_mem_take hx)).1,hacross x hx m (by simp)⟩
  · show (m::upper).length ≤ 2*half
    omega
  intro x hx
  have hmem : x∈p.items := by
    rw [hsplit]
    exact mem_append_right _ hx
  refine ⟨?_,(h.bounds x hmem).2⟩
  obtain rfl | hx := mem_cons.mp hx
  · exact le_rfl
  · exact ((pairwise_cons.mp hupper).1 x hx).le

/-- What comes of a page is well-formed, ends in the key of the page, and holds the new item as
well. -/
theorem insertPage_spec (h : PageOk low half lo p) (hhalf : 0 < half) (hlo : lo ≤ low t)
    (hkey : low t < p.key) (hne : ∀ x∈p.items, low x≠low t) {back : List (Page κ τ)}
    (hback : WellFormed low half p.key back) :
    WellFormed low half lo (insertPage low half t p++back) ∧
      (allItems (insertPage low half t p)).Perm (t::p.items) ∧
      lastKey lo (insertPage low half t p++back)=lastKey p.key back := by
  rw [insertPage]
  split
  · rename_i hroom
    exact ⟨⟨h.place hroom hlo hkey hne,hback⟩,by simpa [allItems] using place_perm,rfl⟩
  rename_i hfull
  obtain ⟨m,upper,hdrop,hlower,hupper,hlowerLength,hupperLength⟩ := h.halves hhalf (not_lt.mp hfull)
  have hitems : p.items=p.items.take half++m::upper := by rw [← hdrop,take_append_drop]
  have hne' : ∀ x∈p.items.take half++m::upper, low x≠low t := by rwa [← hitems]
  rw [PagedChain.split,hdrop]
  dsimp only
  split
  · rename_i hlt
    refine ⟨⟨hlower.place (by dsimp only; omega) hlo hlt fun x hx => ?_,hupper,hback⟩,?_,rfl⟩
    · exact hne' x (mem_append_left _ hx)
    have hperm : (place low t (p.items.take half)++m::upper).Perm
      (t::p.items.take half++m::upper) :=
      place_perm.append_right _
    rw [cons_append,← hitems] at hperm
    simpa [allItems] using hperm
  · rename_i hlt
    refine ⟨⟨hlower,hupper.place (by dsimp only; omega) (not_lt.mp hlt) hkey fun x hx => ?_,hback⟩,
      ?_,rfl⟩
    · exact hne' x (mem_append_right _ hx)
    have hperm : (p.items.take half++place low t (m::upper)).Perm
      (p.items.take half++t::m::upper) :=
      place_perm.append_left _
    have hmiddle := hperm.trans perm_middle
    rw [← hitems] at hmiddle
    simpa [allItems] using hmiddle

end

/-! ## Removal -/

section

variable {κ τ : Type} (half : ℕ)

/-- Two neighbours as one page, if their items fit. -/
def mergePair (a b : Page κ τ) : Option (Page κ τ) :=
  if a.items.length+b.items.length ≤ 2*half then some ⟨b.key,a.items++b.items⟩ else none

/-- The pages before a focus and the page at it, after an attempt to merge it with the one before.
-/
def mergeBefore (front : List (Page κ τ)) (p : Page κ τ) : List (Page κ τ) × Page κ τ :=
  match front with
  | [] => ([],p)
  | prev::front =>
    match mergePair half prev p with
    | some q => (front,q)
    | none => (prev::front,p)

/-- The page at a focus and the pages after it, after an attempt to merge it with the next one. -/
def mergeAfter (p : Page κ τ) (back : List (Page κ τ)) : List (Page κ τ) :=
  match back with
  | [] => [p]
  | next::back =>
    match mergePair half p next with
    | some q => q::back
    | none => p::next::back

/-- A page at a focus whose items have become `items`, at least one. -/
def shrink (front : List (Page κ τ)) (key : κ) (items : List τ) (back : List (Page κ τ)) :
    List (Page κ τ) :=
  let merged := mergeBefore half front ⟨key,items⟩
  merged.1.reverse++mergeAfter half merged.2 back

/-- A page at a focus that has become empty. -/
def dropPage (front : List (Page κ τ)) (key : κ) (back : List (Page κ τ)) : List (Page κ τ) :=
  match front, back with
  | [], back => back
  | prev::front, [] => front.reverse++[⟨key,prev.items⟩]
  | prev::front, next::back => front.reverse++mergeAfter half prev (next::back)

/-- A page at a focus without one of its items. -/
def removePage (front : List (Page κ τ)) (key : κ) (items : List τ) (back : List (Page κ τ)) :
    List (Page κ τ) :=
  match items with
  | [] => dropPage half front key back
  | x::items => shrink half front key (x::items) back

variable {half}

theorem mergePair_eq_some {a b q : Page κ τ} (h : mergePair half a b=some q) :
    a.items.length+b.items.length ≤ 2*half ∧ q=⟨b.key,a.items++b.items⟩ := by
  rw [mergePair] at h
  split_ifs at h with hfit
  exact ⟨hfit,(Option.some.inj h).symm⟩

theorem keys_mergeAfter_subset {p : Page κ τ} {back : List (Page κ τ)} :
    (mergeAfter half p back).map Page.key⊆(p::back).map Page.key := by
  cases back with
  | nil => exact List.Subset.refl _
  | cons next back =>
    rw [mergeAfter]
    cases hm : mergePair half p next with
    | none => exact List.Subset.refl _
    | some q =>
      obtain ⟨-,rfl⟩ := mergePair_eq_some hm
      exact subset_cons_self ..

theorem mergeBefore_focus {prev p : Page κ τ} {front back : List (Page κ τ)} :
    (mergeBefore half (prev::front) p).1.reverse++(mergeBefore half (prev::front) p).2::back =
      front.reverse++mergeAfter half prev (p::back) := by
  rw [mergeBefore,mergeAfter]
  cases mergePair half prev p <;> simp

theorem keys_mergeBefore_subset (half : ℕ) (front : List (Page κ τ)) (p : Page κ τ)
    (back : List (Page κ τ)) :
    ((mergeBefore half front p).1.reverse++(mergeBefore half front p).2::back).map Page.key ⊆
      (front.reverse++p::back).map Page.key := by
  cases front with
  | nil => exact List.Subset.refl _
  | cons prev front =>
    rw [mergeBefore_focus]
    intro k hk
    obtain hk | hk := mem_keys_focus.mp hk
    · exact mem_keys_focus.mpr (.inl (mem_cons_of_mem _ hk))
    · have hk := keys_mergeAfter_subset hk
      simp only [mem_keys_focus,map_cons,mem_cons] at hk ⊢
      tauto

end

section

variable {low half} {lo : κ} {a b p : Page κ τ} {front back : List (Page κ τ)} {key : κ}
  {items : List τ}

theorem PageOk.merge (ha : PageOk low half lo a) (hb : PageOk low half a.key b)
    (hfit : a.items.length+b.items.length ≤ 2*half) :
      PageOk low half lo ⟨b.key,a.items++b.items⟩ where
  nonempty := by simp [ha.nonempty]
  size := by rwa [length_append]
  sorted := by
    refine pairwise_append.mpr ⟨ha.sorted,hb.sorted,fun x hx y hy => ?_⟩
    exact (ha.bounds x hx).2.trans_le (hb.bounds y hy).1
  bounds := by
    intro x hx
    obtain hx | hx := mem_append.mp hx
    · exact ⟨(ha.bounds x hx).1,(ha.bounds x hx).2.trans hb.lt_key⟩
    · exact ⟨ha.lt_key.le.trans (hb.bounds x hx).1,(hb.bounds x hx).2⟩

theorem PageOk.sublist (h : PageOk low half lo p) (hsub : items.Sublist p.items) (hne : items≠[]) :
    PageOk low half lo ⟨p.key,items⟩ :=
  ⟨hne,hsub.length_le.trans h.size,h.sorted.sublist hsub,fun t ht => h.bounds t (hsub.subset ht)⟩

theorem mergeBefore_spec (hfront : WellFormedBefore low half lo front)
    (hp : PageOk low half (bound lo front) p) :
    WellFormedBefore low half lo (mergeBefore half front p).1 ∧
      PageOk low half (bound lo (mergeBefore half front p).1) (mergeBefore half front p).2 ∧
      (mergeBefore half front p).2.key=p.key ∧
      (allItems (mergeBefore half front p).1++(mergeBefore half front p).2.items).Perm
        (allItems front++p.items) := by
  cases front with
  | nil => exact ⟨hfront,hp,rfl,.refl _⟩
  | cons prev front =>
    rw [mergeBefore]
    cases hm : mergePair half prev p with
    | none => exact ⟨hfront,hp,rfl,.refl _⟩
    | some q =>
      obtain ⟨hfit,rfl⟩ := mergePair_eq_some hm
      refine ⟨hfront.2,hfront.1.merge hp hfit,rfl,?_⟩
      dsimp only
      rw [allItems_cons,← append_assoc]
      exact perm_append_comm.append_right _

theorem mergeAfter_spec (hp : PageOk low half lo p) (hback : WellFormed low half p.key back) :
    WellFormed low half lo (mergeAfter half p back) ∧
      allItems (mergeAfter half p back)=p.items++allItems back ∧
      lastKey lo (mergeAfter half p back)=lastKey p.key back := by
  cases back with
  | nil => exact ⟨⟨hp,trivial⟩,rfl,rfl⟩
  | cons next back =>
    rw [mergeAfter]
    cases hm : mergePair half p next with
    | none => exact ⟨⟨hp,hback⟩,rfl,rfl⟩
    | some q =>
      obtain ⟨hfit,rfl⟩ := mergePair_eq_some hm
      exact ⟨⟨hp.merge hback.1 hfit,hback.2⟩,by simp,rfl⟩

theorem shrink_spec (hfront : WellFormedBefore low half lo front)
    (hp : PageOk low half (bound lo front) ⟨key,items⟩) (hback : WellFormed low half key back) :
      WellFormed low half lo (shrink half front key items back) ∧
      (allItems (shrink half front key items back)).Perm (allItems front++(items++allItems back)) ∧
      lastKey lo (shrink half front key items back)=lastKey key back := by
  obtain ⟨hfront',hp',hkey,hperm⟩ := mergeBefore_spec hfront hp
  rw [shrink]
  generalize mergeBefore half front ⟨key,items⟩=merged at hfront' hp' hkey hperm
  obtain ⟨front',q⟩ := merged
  dsimp only at hfront' hp' hkey hperm ⊢
  obtain ⟨hafter,hitems,hlast⟩ := mergeAfter_spec hp' (hkey ▸ hback)
  refine ⟨wellFormed_focus.mpr ⟨hfront',hafter⟩,?_,?_⟩
  · refine allItems_focus.trans ?_
    rw [hitems,← append_assoc,← append_assoc]
    exact hperm.append_right _
  · rw [lastKey_focus,hlast,hkey]

/-- An emptied page goes, or takes the items of the page before it when it is the last one. -/
theorem dropPage_spec (hfront : WellFormedBefore low half lo front) (hkey : bound lo front < key)
    (hback : WellFormed low half key back) :
    WellFormed low half lo (dropPage half front key back) ∧
      (allItems (dropPage half front key back)).Perm (allItems front++allItems back) ∧
      (dropPage half front key back≠[] →
        lastKey lo (dropPage half front key back)=lastKey key back) := by
  rcases front with _ | ⟨prev,front⟩ <;> rcases back with _ | ⟨next,back⟩
  · exact ⟨trivial,.refl _,fun h => absurd rfl h⟩
  · exact ⟨⟨hback.1.mono hkey.le,hback.2⟩,.refl _,fun _ => rfl⟩
  · have hpage : PageOk low half (bound lo front) ⟨key,prev.items⟩ :=
      ⟨hfront.1.nonempty,hfront.1.size,hfront.1.sorted,
        fun t ht => ⟨(hfront.1.bounds t ht).1,(hfront.1.bounds t ht).2.trans hkey⟩⟩
    refine ⟨wellFormed_focus.mpr ⟨hfront.2,hpage,trivial⟩,?_,fun _ => lastKey_focus⟩
    refine allItems_focus.trans ?_
    rw [allItems_cons,allItems_cons,allItems_nil,append_nil,append_nil]
    exact perm_append_comm
  · have hnext : WellFormed low half prev.key (next::back) := ⟨hback.1.mono hkey.le,hback.2⟩
    obtain ⟨hafter,hitems,hlast⟩ := mergeAfter_spec hfront.1 hnext
    refine ⟨wellFormed_focus.mpr ⟨hfront.2,hafter⟩,?_,fun _ => ?_⟩
    · refine allItems_focus.trans ?_
      rw [hitems,allItems_cons,← append_assoc]
      exact perm_append_comm.append_right _
    · rw [dropPage,lastKey_focus,hlast]
      rfl

theorem removePage_spec (hchain : WellFormed low half lo (front.reverse++p::back)) {x : τ}
    (hperm : p.items.Perm (x::items)) (hsub : items.Sublist p.items) :
    WellFormed low half lo (removePage half front p.key items back) ∧
      (x::allItems (removePage half front p.key items back)).Perm
        (allItems (front.reverse++p::back)) ∧
      (removePage half front p.key items back≠[] →
        lastKey lo (removePage half front p.key items back)=lastKey lo
          (front.reverse++p::back)) := by
  obtain ⟨hfront,hp,hback⟩ := wellFormed_focus.mp hchain
  have hall : (allItems (front.reverse++p::back)).Perm
    (x::(allItems front++(items++allItems back))) := by
    refine allItems_focus.trans ?_
    rw [allItems_cons]
    refine ((hperm.append_right _).append_left _).trans ?_
    exact perm_middle
  have hlast : lastKey lo (front.reverse++p::back)=lastKey p.key back := lastKey_focus
  rw [hlast]
  cases items with
  | nil =>
    obtain ⟨hwf,hitems,hkey⟩ := dropPage_spec hfront hp.lt_key hback
    exact ⟨hwf,(hitems.cons x).trans hall.symm,hkey⟩
  | cons y items =>
    obtain ⟨hwf,hitems,hkey⟩ := shrink_spec hfront (hp.sublist hsub (by simp)) hback
    exact ⟨hwf,(hitems.cons x).trans hall.symm,fun _ => hkey⟩

end

end PagedChain
