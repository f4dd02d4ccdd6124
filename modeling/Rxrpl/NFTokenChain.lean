import Rxrpl.NFTokenPages

/-!
# The chain of an owner's NFToken pages

What the pages of an owner stand for is a chain of pages in the sense of `PagedChain`: a token's key
is the page key that its low 96 bits give, and a page holds at most 32 tokens. `insert_token` and
`remove_token` do to the entries of the ledger what the operations of the same purpose do to the
chain, and to no other entry.
-/

namespace Rxrpl.Tx

open Codec (AccountId)
open Keylet PagedChain Function List

/-! ## Tokens -/

structure NFToken where
  id : Hash256
  entry : Json
  entry_id : (entryNFTokenId entry).bind hashFromHex=some id

namespace NFToken

variable (owner : AccountId)

def low (t : NFToken) : Hash256 := nftokenPage owner t.id

theorem entryId_eq (t : NFToken) : nftokenEntryId t.entry=hashText t.id := by
  obtain ⟨s,hs,hid⟩ := Option.bind_eq_some_iff.mp t.entry_id
  rw [nftokenEntryId,hs]
  exact upper_of_hashFromHex hid

theorem compare_eq_gt {owner : AccountId} {t x : NFToken} (hne : x.low owner≠t.low owner) :
    compareTokenIds (nftokenEntryId x.entry) (hashText t.id)=.gt ↔ t.low owner < x.low owner := by
  rw [entryId_eq,compareTokenIds_hashText hne]
  constructor
  · intro h
    split_ifs at h with hlt
    exact lt_of_le_of_ne (not_lt.mp hlt) hne.symm
  · intro h
    exact if_neg (not_lt.mpr h.le)

end NFToken

def entries (items : List NFToken) : List Json := items.map NFToken.entry

@[simp] theorem length_entries (items : List NFToken) : (entries items).length=items.length :=
    length_map _

theorem placeEntry_cons (x : Json) (tokens : List Json) (entry : Json) (idHex : String) :
    placeEntry (x::tokens) entry idHex=if compareTokenIds
      (nftokenEntryId x) idHex=.gt then entry::x::tokens
      else x::placeEntry tokens entry idHex := by
  rw [placeEntry,findIdx?_cons]
  split
  · rename_i h
    rw [if_pos (by simpa using h)]
    rfl
  · rename_i h
    rw [if_neg (by simpa using h),placeEntry]
    cases tokens.findIdx? fun t => compareTokenIds (nftokenEntryId t) idHex == .gt <;> rfl

variable {items : List NFToken} {owner : AccountId}

theorem placeEntry_entries {t : NFToken} (hne : ∀ x∈items, x.low owner≠t.low owner) :
    placeEntry (entries items) t.entry (hashText t.id)=entries
      (place (NFToken.low owner) t items) := by
  induction items with
  | nil => rfl
  | cons x items ih =>
    have hx := NFToken.compare_eq_gt (hne x (by simp))
    rw [entries,map_cons,placeEntry_cons,place]
    by_cases hlt : t.low owner < x.low owner
    · rw [if_pos (hx.mpr hlt),if_pos hlt]
      rfl
    · rw [if_neg (fun h => hlt (hx.mp h)),if_neg hlt]
      exact congrArg (x.entry :: ·) (ih fun y hy => hne y (by simp [hy]))

theorem sortTokens_entries (hsorted : items.Pairwise fun a b => a.low owner < b.low owner) :
    sortTokens (entries items)=entries items := by
  refine List.Pairwise.insertionSort_eq ?_
  rw [entries,pairwise_map]
  refine hsorted.imp fun {a b} hlt => ?_
  rw [NFToken.entryId_eq b]
  exact fun h => lt_asymm hlt ((NFToken.compare_eq_gt hlt.ne).mp h)

/-! ## Pages of a chain -/

abbrev TokenPage := Page Hash256 NFToken

def linkText (key : Hash256) : Json := .str (hashText key)

/-- A page of the ledger with its tokens and links. -/
def IsPage (read : Hash256 → Option Data) (p : TokenPage) (prev next : Option Hash256) : Prop :=
  ∃ page, read p.key=some (.json page) ∧ page.get "NFTokens"=some (.arr (entries p.items)) ∧
    page.get "PreviousPageMin"=prev.map linkText ∧ page.get "NextPageMin"=next.map linkText

/-- The pages before a focus, nearest first. -/
def LinksBefore (read : Hash256 → Option Data) (next : Hash256) : List TokenPage → Prop
  | [] => True
  | p::front => IsPage read p (front.head?.map Page.key) (some next) ∧ LinksBefore read p.key front

/-- The pages after a focus. -/
def LinksAfter (read : Hash256 → Option Data) (prev : Hash256) : List TokenPage → Prop
  | [] => True
  | p::back => IsPage read p (some prev) (back.head?.map Page.key) ∧ LinksAfter read p.key back

def Linked (read : Hash256 → Option Data) : List TokenPage → Prop
  | [] => True
  | p::back => IsPage read p none (back.head?.map Page.key) ∧ LinksAfter read p.key back

section

variable {read read' : Hash256 → Option Data} {p : TokenPage} {front back : List TokenPage}
  {prev next : Option Hash256} {k : Hash256}

theorem linked_focus : Linked read (front.reverse++p::back) ↔ LinksBefore read p.key front ∧
      IsPage read p (front.head?.map Page.key) (back.head?.map Page.key) ∧
        LinksAfter read p.key back := by
  induction front generalizing p back with
  | nil => simp [Linked,LinksBefore]
  | cons q front ih =>
    rw [reverse_cons,append_assoc,singleton_append,ih]
    simp only [LinksBefore,LinksAfter,head?_cons,Option.map_some]
    tauto

theorem IsPage.congr (h : IsPage read p prev next) (hr : read' p.key=read p.key) :
    IsPage read' p prev next := by
  obtain ⟨page,hpage,hfields⟩ := h
  exact ⟨page,hr.trans hpage,hfields⟩

theorem LinksBefore.congr (h : LinksBefore read k front) (hr : ∀ q∈front, read' q.key=read q.key) :
    LinksBefore read' k front := by
  induction front generalizing k with
  | nil => exact trivial
  | cons q front ih => exact ⟨h.1.congr (hr q (by simp)),ih h.2 fun q' hq' => hr q' (by simp [hq'])⟩

theorem LinksAfter.congr (h : LinksAfter read k back) (hr : ∀ q∈back, read' q.key=read q.key) :
    LinksAfter read' k back := by
  induction back generalizing k with
  | nil => exact trivial
  | cons q back ih => exact ⟨h.1.congr (hr q (by simp)),ih h.2 fun q' hq' => hr q' (by simp [hq'])⟩

theorem IsPage.isSome (h : IsPage read p prev next) : (read p.key).isSome := by
  obtain ⟨page,hpage,-⟩ := h
  rw [hpage]
  rfl

@[simp] theorem asStr_linkText (key : Hash256) : (linkText key).asStr=some (hashText key) := rfl

variable {page : Json}

theorem pageLink_eq {field : String} {link : Option Hash256}
    (h : page.get field=link.map linkText) : pageLink page field=link := by
  rw [pageLink,strField,h]
  cases link <;> simp

theorem pageTokens_eq {items : List NFToken} (h : page.get "NFTokens"=some (.arr (entries items))) :
    pageTokens page=entries items := by
  rw [pageTokens,h]
  rfl

theorem get_setLink (page : Json) (field : String) (link : Option Hash256) (field' : String) :
    (setLink page field link).get field'=if field'=field then link.map linkText
      else page.get field' := by
  cases link <;> simp [setLink,linkText]

theorem IsPage.setNext (h : IsPage read p prev next) (hpage : read p.key=some (.json page))
    (next' : Option Hash256) :
    IsPage (update read p.key (some (.json (setLink page "NextPageMin" next')))) p prev next' := by
  obtain ⟨page',hpage',htokens,hprev,-⟩ := h
  cases hpage.symm.trans hpage'
  exact ⟨_,update_self ..,by simp [get_setLink,htokens],by simp [get_setLink,hprev],by
    simp [get_setLink]⟩

end

/-! ## Rewriting a chain -/

/-- The entries of a chain have become those of another, and no other entry has changed. -/
structure Rewrites (read read' : Hash256 → Option Data) (chain chain' : List TokenPage) : Prop where
  linked : Linked read' chain'
  same : ∀ k∉chain.map Page.key, k∉chain'.map Page.key → read' k=read k
  gone : ∀ k∈chain.map Page.key, k∉chain'.map Page.key → read' k=none

section

variable {read read' read'' : Hash256 → Option Data} {chain chain' chain'' : List TokenPage}

theorem Rewrites.refl (h : Linked read chain) : Rewrites read read chain chain :=
  ⟨h,fun _ _ _ => rfl,fun _ hk hk' => absurd hk hk'⟩

theorem Rewrites.trans (h : Rewrites read read' chain chain')
    (h' : Rewrites read' read'' chain' chain'') (hkeys : chain'.map Page.key⊆chain.map Page.key) :
    Rewrites read read'' chain chain'' := by
  refine ⟨h'.linked,fun k hk hk'' => ?_,fun k hk hk'' => ?_⟩
  · have hk' : k∉chain'.map Page.key := fun hmem => hk (hkeys hmem)
    rw [h'.same k hk' hk'',h.same k hk hk']
  · by_cases hk' : k∈chain'.map Page.key
    · exact h'.gone k hk' hk''
    · rw [h'.same k hk' hk'',h.gone k hk hk']

end

/-- The chain of an owner's pages, without its links. -/
def Wf (owner : AccountId) (chain : List TokenPage) : Prop :=
  WellFormed (NFToken.low owner) 16 (nftokenPageMin owner) chain

section

variable {below : ReadView} {s : Sandbox below} {owner : AccountId} {p lo hi : TokenPage}
  {front back : List TokenPage}

theorem Wf.keys_focus (h : Wf owner (front.reverse++p::back)) :
    (∀ q∈front, q.key < p.key) ∧ ∀ q∈back, p.key < q.key := by
  obtain ⟨-,hback,hacross⟩ := pairwise_append.mp h.pairwise
  exact ⟨fun q hq => hacross q (mem_reverse.mpr hq) p (by simp),(pairwise_cons.mp hback).1⟩

theorem Wf.front_pairwise (h : Wf owner (front.reverse++back)) : front.Pairwise fun a b =>
    b.key < a.key :=
  pairwise_reverse.mp (pairwise_append.mp h.pairwise).1

theorem focus_next : front.reverse++lo::hi::back=(lo::front).reverse++hi::back := by simp

variable {next : Hash256} {page : Json} {read : Hash256 → Option Data}

theorem does_unlinkBefore (next' : Hash256) (hfront : LinksBefore s.read next front)
    (hkeys : front.Pairwise fun a b => b.key < a.key) :
    ∃ content, (unlink (front.head?.map Page.key) "NextPageMin" (some next')).Does s () content ∧
      LinksBefore content next' front ∧ ∀ k∉front.map Page.key, content k=s.read k := by
  cases front with
  | nil => exact ⟨s.read,ViewM.does_pure rfl (),trivial,fun _ _ => rfl⟩
  | cons q front =>
    obtain ⟨page,hpage,-⟩ := id hfront.1
    refine ⟨_,.bind_same (ViewM.readEntry_ok hpage _) (ViewM.does_update rfl hfront.1.isSome _),
      ⟨?_,?_⟩,?_⟩
    · exact hfront.1.setNext hpage (some next')
    · refine hfront.2.congr fun r hr => update_of_ne ?_ ..
      exact ((pairwise_cons.mp hkeys).1 r hr).ne
    intro k hk
    refine update_of_ne ?_ ..
    rintro rfl
    simp at hk

theorem rethread_eq (loPage : Json) (hiKey : Hash256) (hiPage : Json) :
    (rethread loPage hiKey hiPage : ViewM below Json) =
      unlink (pageLink loPage "PreviousPageMin") "NextPageMin" (some hiKey) >>= fun _ =>
      pure (setLink hiPage "PreviousPageMin" (pageLink loPage "PreviousPageMin")) := by
  rw [rethread]
  cases pageLink loPage "PreviousPageMin" <;> simp [unlink,setLink]

variable {items : List NFToken}

/-- A page goes and the next one takes its place behind the pages before. -/
theorem rewrites_drop {content : Hash256 → Option Data}
    (hwf : Wf owner (front.reverse++lo::hi::back))
    (hlinked : Linked read (front.reverse++lo::hi::back))
    (hfront : LinksBefore content hi.key front) (hsame : ∀ k∉front.map Page.key, content k=read k)
    (htokens : page.get "NFTokens"=some (.arr (entries items)))
    (hprev : page.get "PreviousPageMin"=(front.head?.map Page.key).map linkText)
    (hnext : page.get "NextPageMin"=(back.head?.map Page.key).map linkText) :
    Rewrites read (update (update content hi.key (some (.json page))) lo.key none)
      (front.reverse++lo::hi::back) (front.reverse++⟨hi.key,items⟩::back) := by
  obtain ⟨-,-,-,hback⟩ := linked_focus.mp hlinked
  obtain ⟨hfrontLo,hloBack⟩ := hwf.keys_focus
  have hlohi : lo.key < hi.key := hloBack hi (by simp)
  have hhiBack := (Wf.keys_focus (focus_next ▸ hwf)).2
  refine ⟨linked_focus.mpr ⟨?_,?_,?_⟩,?_,?_⟩
  · refine hfront.congr fun q hq => ?_
    have hlt := hfrontLo q hq
    rw [update_of_ne hlt.ne,update_of_ne (hlt.trans hlohi).ne]
  · exact ⟨page,(update_of_ne hlohi.ne' ..).trans (update_self ..),htokens,hprev,hnext⟩
  · refine hback.congr fun q hq => ?_
    have hlt := hhiBack q hq
    rw [update_of_ne (hlohi.trans hlt).ne',update_of_ne hlt.ne',hsame]
    exact not_mem_keys fun r hr => (((hfrontLo r hr).trans hlohi).trans hlt).ne
  · intro k hk _
    simp only [mem_keys_focus,map_cons,mem_cons,not_or] at hk
    rw [update_of_ne hk.2.1,update_of_ne hk.2.2.1,hsame k hk.1]
  · intro k hk hk'
    simp only [mem_keys_focus,map_cons,mem_cons] at hk hk'
    have hlo : k=lo.key := by tauto
    rw [hlo,update_self]

/-- A page goes and the next one gets its tokens. -/
theorem does_absorb {loPage hiPage : Json} (hwf : Wf owner (front.reverse++lo::hi::back))
    (hlinked : Linked s.read (front.reverse++lo::hi::back))
    (hloPage : s.read lo.key=some (.json loPage)) (hhiPage : s.read hi.key=some (.json hiPage))
    (items : List NFToken) :
    ∃ content,
      (rethread loPage hi.key (hiPage.set "NFTokens" (.arr (entries items))) >>= fun page =>
        writePage hi.key page >>= fun _ => ViewM.erase lo.key).Does s () content ∧
      Rewrites s.read content (front.reverse++lo::hi::back)
        (front.reverse++⟨hi.key,items⟩::back) := by
  obtain ⟨hfront,⟨page,hpage,-,hloPrev,-⟩,⟨page',hpage',-,-,hhiNext⟩,-⟩ := linked_focus.mp hlinked
  cases hloPage.symm.trans hpage
  cases hhiPage.symm.trans hpage'
  obtain ⟨hfrontLo,hloBack⟩ := hwf.keys_focus
  have hlohi : lo.key < hi.key := hloBack hi (by simp)
  obtain ⟨content,hunlink,hfront',hsame⟩ := does_unlinkBefore hi.key hfront hwf.front_pairwise
  have hhiFront : hi.key∉front.map Page.key := not_mem_keys fun q hq =>
    ((hfrontLo q hq).trans hlohi).ne
  have hloFront : lo.key∉front.map Page.key := not_mem_keys fun q hq => (hfrontLo q hq).ne
  rw [rethread_eq,pageLink_eq hloPrev,bind_assoc]
  refine ⟨_,.bind hunlink fun s₁ hs₁ => .bind_same rfl
      (.bind (ViewM.does_update hs₁ ?_ _) fun s₂ hs₂ => ViewM.does_erase hs₂ ?_),
    rewrites_drop hwf hlinked hfront' hsame ?_ ?_ ?_⟩
  · rw [hsame _ hhiFront,hhiPage]
    rfl
  · rw [update_of_ne hlohi.ne,hsame _ hloFront,hloPage]
    rfl
  all_goals simp [get_setLink,hhiNext]

theorem does_mergePages (hwf : Wf owner (front.reverse++lo::hi::back))
    (hlinked : Linked s.read (front.reverse++lo::hi::back)) :
    ∃ content merged, (mergePages lo.key hi.key).Does s merged content ∧
      Rewrites s.read content (front.reverse++lo::hi::back)
        (front.reverse++mergeAfter 16 lo (hi::back)) ∧
      ((front.reverse++mergeAfter 16 lo (hi::back)).length : ℤ)+(if merged then 1 else 0) =
        (front.reverse++lo::hi::back).length := by
  obtain ⟨-,⟨loPage,hloPage,hloTokens,-⟩,⟨hiPage,hhiPage,hhiTokens,-⟩,-⟩ := linked_focus.mp hlinked
  have hsorted : (lo.items++hi.items).Pairwise fun a b => a.low owner < b.low owner := by
    obtain ⟨-,hlo,hhi,-⟩ := wellFormed_focus.mp hwf
    refine pairwise_append.mpr ⟨hlo.sorted,hhi.sorted,fun x hx y hy => ?_⟩
    exact (hlo.bounds x hx).2.trans_le (hhi.bounds y hy).1
  have hreads {α : Type} {a : α} {f : Option Data → Option Data → ViewM below α}
    {content : Hash256 → Option Data}
      (h : (f (some (.json loPage)) (some (.json hiPage))).Does s a content) :
      (ViewM.read lo.key >>= fun loData => ViewM.read hi.key >>= fun hiData => f loData hiData).Does
        s a content :=
    .bind_same (ViewM.read_eq_ok.mpr ⟨hloPage,rfl⟩)
      (.bind_same (ViewM.read_eq_ok.mpr ⟨hhiPage,rfl⟩) h)
  rw [mergeAfter,mergePair]
  by_cases hfit : lo.items.length+hi.items.length ≤ 2*16
  · obtain ⟨content,hdoes,hrewrites⟩ := does_absorb hwf hlinked hloPage hhiPage (lo.items++hi.items)
    rw [if_pos hfit]
    refine ⟨content,true,hreads ?_,hrewrites,by simp; omega⟩
    refine .bind_same rfl (.bind_same rfl ?_)
    rw [pageTokens_eq hloTokens,pageTokens_eq hhiTokens,if_neg (by simp [maxPageEntries]; omega),
      show entries lo.items++entries hi.items=entries (lo.items++hi.items) by
        simp [entries],sortTokens_entries hsorted]
    have hend := ViewM.Does.bind hdoes (f := fun _ => pure true) fun s₁ hs₁ =>
      ViewM.does_pure hs₁ true
    simpa only [bind_assoc] using hend
  · rw [if_neg hfit]
    refine ⟨s.read,false,hreads ?_,.refl hlinked,by simp⟩
    refine .bind_same rfl (.bind_same rfl ?_)
    rw [pageTokens_eq hloTokens,pageTokens_eq hhiTokens,if_pos (by simp [maxPageEntries]; omega)]
    exact ViewM.does_pure rfl false

theorem rewrites_setTokens (hwf : Wf owner (front.reverse++p::back))
    (hlinked : Linked read (front.reverse++p::back)) (hpage : read p.key=some (.json page))
    (items : List NFToken) :
    Rewrites read (update read p.key (some (.json (page.set "NFTokens" (.arr (entries items))))))
      (front.reverse++p::back) (front.reverse++⟨p.key,items⟩::back) := by
  obtain ⟨hfront,⟨page',hpage',-,hprev,hnext⟩,hback⟩ := linked_focus.mp hlinked
  cases hpage.symm.trans hpage'
  obtain ⟨hfrontKey,hbackKey⟩ := hwf.keys_focus
  refine ⟨linked_focus.mpr ⟨?_,?_,?_⟩,?_,?_⟩
  · exact hfront.congr fun q hq => update_of_ne (hfrontKey q hq).ne ..
  · exact ⟨_,update_self ..,by simp,by simp [hprev],by simp [hnext]⟩
  · exact hback.congr fun q hq => update_of_ne (hbackKey q hq).ne' ..
  · intro k hk _
    simp only [mem_keys_focus,map_cons,mem_cons,not_or] at hk
    exact update_of_ne hk.2.1 ..
  · intro k hk hk'
    simp only [mem_keys_focus,map_cons,mem_cons] at hk hk'
    exact absurd hk hk'

theorem does_mergeAfter (hwf : Wf owner (front.reverse++p::back))
    (hlinked : Linked s.read (front.reverse++p::back)) :
    ∃ content n, (mergeWith (back.head?.map Page.key) (mergePages p.key)).Does s n content ∧
      Rewrites s.read content (front.reverse++p::back) (front.reverse++mergeAfter 16 p back) ∧
      ((front.reverse++mergeAfter 16 p back).length : ℤ)+n=(front.reverse++p::back).length := by
  cases back with
  | nil => exact ⟨s.read,0,ViewM.does_pure rfl 0,.refl hlinked,by simp [mergeAfter]⟩
  | cons next back =>
    obtain ⟨content,merged,hdoes,hrewrites,hlength⟩ := does_mergePages hwf hlinked
    exact ⟨content,_,.bind hdoes fun s₁ hs₁ => ViewM.does_pure hs₁ _,hrewrites,hlength⟩

theorem does_mergeBefore (hwf : Wf owner (front.reverse++p::back))
    (hlinked : Linked s.read (front.reverse++p::back)) :
    ∃ content n, (mergeWith (front.head?.map Page.key) fun k => mergePages k p.key).Does s n
      content ∧
      Rewrites s.read content (front.reverse++p::back)
        ((mergeBefore 16 front p).1.reverse++(mergeBefore 16 front p).2::back) ∧
      (((mergeBefore 16 front p).1.reverse++(mergeBefore 16 front p).2::back).length : ℤ)+n =
        (front.reverse++p::back).length := by
  cases front with
  | nil => exact ⟨s.read,0,ViewM.does_pure rfl 0,.refl hlinked,by simp [mergeBefore]⟩
  | cons prev front =>
    rw [mergeBefore_focus]
    rw [← focus_next] at hwf hlinked ⊢
    obtain ⟨content,merged,hdoes,hrewrites,hlength⟩ := does_mergePages hwf hlinked
    exact ⟨content,_,.bind hdoes fun s₁ hs₁ => ViewM.does_pure hs₁ _,hrewrites,hlength⟩

theorem does_shrink (hwf : Wf owner (front.reverse++p::back))
    (hlinked : Linked s.read (front.reverse++p::back)) (hpage : s.read p.key=some (.json page))
    (hitems : PageOk (NFToken.low owner) 16 (bound (nftokenPageMin owner) front) ⟨p.key,items⟩)
    (removed : Json) :
    ∃ content delta, (writePage p.key (page.set "NFTokens" (.arr (entries items))) >>= fun _ =>
        mergeWith (front.head?.map Page.key) (fun k => mergePages k p.key) >>= fun before =>
        mergeWith (back.head?.map Page.key) (mergePages p.key) >>= fun after =>
        pure (some (removed,-before-after))).Does s (some (removed,delta)) content ∧
      Rewrites s.read content (front.reverse++p::back) (shrink 16 front p.key items back) ∧
      ((shrink 16 front p.key items back).length : ℤ)=(front.reverse++p::back).length+delta := by
  obtain ⟨hfront,hp,hback⟩ := wellFormed_focus.mp hwf
  have hwrite := rewrites_setTokens hwf hlinked hpage items
  have hwfWrite : Wf owner (front.reverse++⟨p.key,items⟩::back) :=
    wellFormed_focus.mpr ⟨hfront,hitems,hback⟩
  obtain ⟨s₁,hrun₁,hbecame₁⟩ := ViewM.does_update (k := p.key) (s := s) rfl (by rw [hpage]; rfl)
    (page.set "NFTokens" (.arr (entries items)))
  rw [← hbecame₁.read] at hwrite
  obtain ⟨content₂,before,⟨s₂,hrun₂,hbecame₂⟩,hmerge₂,hlength₂⟩ :=
    does_mergeBefore hwfWrite hwrite.linked
  obtain ⟨hfront',hp',hkey,-⟩ := mergeBefore_spec hfront hitems
  have hkeys := keys_mergeBefore_subset 16 front ⟨p.key,items⟩ back
  rw [shrink]
  generalize mergeBefore 16 front ⟨p.key,items⟩=merged at hfront' hp' hkey hmerge₂ hlength₂ hkeys ⊢
  have hwf₂ : Wf owner (merged.1.reverse++merged.2::back) :=
    wellFormed_focus.mpr ⟨hfront',hp',hkey ▸ hback⟩
  rw [← hbecame₂.read] at hmerge₂
  obtain ⟨content₃,after,⟨s₃,hrun₃,hbecame₃⟩,hmerge₃,hlength₃⟩ :=
    does_mergeAfter hwf₂ hmerge₂.linked
  rw [hkey] at hrun₃
  refine ⟨content₃,-before-after,.bind_run hrun₁ hbecame₁ (.bind_run hrun₂ hbecame₂
    (.bind_run hrun₃ hbecame₃ (ViewM.does_pure hbecame₃.read _))),?_,?_⟩
  · exact (hwrite.trans (hmerge₂.trans hmerge₃ hkeys) (by simp))
  · simp only [length_append,length_reverse,length_cons] at hlength₂ hlength₃ ⊢
    omega

theorem does_dropOut {next : TokenPage} (hwf : Wf owner (front.reverse++p::next::back))
    (hlinked : Linked s.read (front.reverse++p::next::back)) :
    ∃ content, (unlink (front.head?.map Page.key) "NextPageMin" (some next.key) >>= fun _ =>
        unlink (some next.key) "PreviousPageMin" (front.head?.map Page.key) >>= fun _ =>
        ViewM.erase p.key).Does s () content ∧
      Rewrites s.read content (front.reverse++p::next::back) (front.reverse++next::back) := by
  obtain ⟨hfront,hp,hnext,-⟩ := linked_focus.mp hlinked
  obtain ⟨hfrontKey,hbackKey⟩ := hwf.keys_focus
  have hlt : p.key < next.key := hbackKey next (by simp)
  obtain ⟨content,hunlink,hfront',hsame⟩ := does_unlinkBefore next.key hfront hwf.front_pairwise
  have hnext' := hnext.congr (hsame _ (not_mem_keys fun q hq => ((hfrontKey q hq).trans hlt).ne))
  obtain ⟨page,hpage,htokens,-,hnextLink⟩ := id hnext'
  refine ⟨_,.bind hunlink fun s₁ hs₁ => .bind (.bind_same (ViewM.readEntry_ok (hs₁ ▸ hpage) _)
      (ViewM.does_update hs₁ hnext'.isSome _)) fun s₂ hs₂ => ViewM.does_erase hs₂ ?_,
    rewrites_drop hwf hlinked hfront' hsame ?_ ?_ ?_⟩
  · rw [update_of_ne hlt.ne,hsame _ (not_mem_keys fun q hq => (hfrontKey q hq).ne)]
    exact hp.isSome
  all_goals simp [get_setLink,htokens,hnextLink]

theorem does_removeEmptied (hwf : Wf owner (front.reverse++p::back))
    (hlast : lastKey (nftokenPageMin owner) (front.reverse++p::back)=nftokenPageMax owner)
    (hlinked : Linked s.read (front.reverse++p::back)) (hpage : s.read p.key=some (.json page)) :
    ∃ content delta,
      (removeEmptied owner true p.key page (front.head?.map Page.key)
      (back.head?.map Page.key)).Does s delta
        content ∧ Rewrites s.read content (front.reverse++p::back)
          (PagedChain.dropPage 16 front p.key back) ∧
      ((PagedChain.dropPage 16 front p.key back).length :
        ℤ)=(front.reverse++p::back).length+delta := by
  match front, back with
  | [], [] =>
    refine ⟨_,-1,.bind_same rfl
      (.bind (ViewM.does_erase rfl (by rw [hpage]; rfl)) fun s₁ hs₁ => ViewM.does_pure hs₁ _),
      ⟨trivial,?_,?_⟩,by simp [PagedChain.dropPage]⟩
    · intro k hk _
      exact update_of_ne (by simpa using hk) ..
    · intro k hk _
      have hk : k=p.key := by simpa using hk
      rw [hk,update_self]
  | [], next::back =>
    have hwf' : Wf owner ([].reverse++p::next::back) := hwf
    obtain ⟨content,hdoes,hrewrites⟩ := does_dropOut hwf' hlinked
    refine ⟨content,-1,?_,hrewrites,by simp [PagedChain.dropPage]⟩
    have hend := ViewM.Does.bind hdoes (f := fun _ => pure (-1 : ℤ)) fun s₁ hs₁ =>
      ViewM.does_pure hs₁ _
    simpa [removeEmptied,unlink] using hend
  | prev::front, [] =>
    have hkey : p.key=nftokenPageMax owner := lastKey_focus.symm.trans hlast
    rw [← focus_next] at hwf hlinked ⊢
    obtain ⟨-,⟨prevPage,hprevPage,htokens,-⟩,-⟩ := linked_focus.mp hlinked
    obtain ⟨content,hdoes,hrewrites⟩ := does_absorb hwf hlinked hprevPage hpage prev.items
    refine ⟨content,-1,?_,hrewrites,by simp [PagedChain.dropPage]; omega⟩
    dsimp only [removeEmptied,head?_cons,Option.map_some]
    rw [if_pos ⟨rfl,hkey⟩,refillLast]
    rw [← pageTokens_eq htokens] at hdoes
    exact .bind (.bind_same (ViewM.readEntry_ok hprevPage _) hdoes) fun s₁ hs₁ =>
      ViewM.does_pure hs₁ _
  | prev::front, next::back =>
    obtain ⟨hfront,hp,hback⟩ := wellFormed_focus.mp hwf
    -- the last key is above, so this page is not the last one
    have hkey : p.key≠nftokenPageMax owner := by
      rw [← hlast,lastKey_focus]
      exact (hback.lt_lastKey (by simp)).ne
    have hwf₁ : Wf owner (front.reverse++prev::next::back) := by
      rw [focus_next]
      exact wellFormed_focus.mpr ⟨hfront,hback.1.mono hp.lt_key.le,hback.2⟩
    obtain ⟨content₁,hdrop,hrewrites₁⟩ := does_dropOut hwf hlinked
    obtain ⟨s₁,hrun₁,hbecame₁⟩ := hdrop
    rw [← hbecame₁.read,show (prev::front).reverse++next::back=front.reverse++prev::next::back from
      focus_next.symm] at hrewrites₁
    obtain ⟨content₂,merged,⟨s₂,hrun₂,hbecame₂⟩,hrewrites₂,hlength⟩ :=
      does_mergePages hwf₁ hrewrites₁.linked
    refine ⟨content₂,-(1+if merged then 1 else 0),?_,hrewrites₁.trans hrewrites₂ ?_,?_⟩
    · dsimp only [removeEmptied,head?_cons,Option.map_some]
      rw [if_neg (fun h => hkey h.2)]
      have hend := ViewM.Does.bind_run hrun₁ hbecame₁
        (f := fun _ => mergeWith (some next.key) (mergePages prev.key) >>=
          fun merged => pure (-(1+merged)))
        (.bind (.bind_run hrun₂ hbecame₂ (ViewM.does_pure hbecame₂.read _)) fun s₃ hs₃ =>
          ViewM.does_pure hs₃ _)
      simpa only [bind_assoc,head?_cons,Option.map_some] using hend
    · intro k hk
      simp only [mem_keys_focus,map_cons,mem_cons] at hk ⊢
      tauto
    · rw [PagedChain.dropPage]
      simp only [length_append,length_reverse,length_cons] at hlength ⊢
      omega

theorem relinkBefore_eq {oldPrev : Option String} (newKey : Hash256)
    (h : ∀ key∈oldPrev.bind hashFromHex, ∃ page, s.read key=some (.json page)) :
    relinkBefore oldPrev (pageKeyHex newKey) s =
      unlink (oldPrev.bind hashFromHex) "NextPageMin" (some newKey) s := by
  rw [relinkBefore]
  cases hkey : oldPrev.bind hashFromHex with
  | none => rfl
  | some key =>
    obtain ⟨page,hpage⟩ := h key hkey
    dsimp only [unlink]
    rw [ViewM.bind_of_ok (ViewM.read_eq_ok.mpr ⟨hpage,rfl⟩),
      ViewM.bind_of_ok (x := readPage key) (ViewM.readEntry_ok hpage _)]
    rfl

theorem strField_link {field : String} {link : Option Hash256}
    (h : page.get field=link.map linkText) : strField page field=link.map hashText := by
  rw [strField,h]
  cases link <;> rfl

theorem isPage_newTokenPage {prev : Option Hash256}
    (hread : read p.key=some
      (.json (newTokenPage (entries p.items) (("NextPageMin",.str (pageKeyHex next)) ::
      ((prev.map hashText).map fun l => ("PreviousPageMin",.str l)).toList)))) : IsPage read p prev
        (some next) := by
  refine ⟨_,hread,?_,?_,?_⟩
  all_goals cases prev <;> simp [newTokenPage,Json.get_object,Json.find,linkText]

theorem does_splitWrites (lower upper : List NFToken) {newKey : Hash256}
    (hwf : Wf owner (front.reverse++p::back)) (hlinked : Linked s.read (front.reverse++p::back))
    (hpage : s.read p.key=some (.json page)) (hkey : newKey < p.key)
    (hfrontKey : ∀ q∈front, q.key < newKey) (hfree : s.read newKey=none) :
    ∃ content,
      (ViewM.insert newKey
      (newTokenPage (entries lower) (("NextPageMin",.str (pageKeyHex p.key)) ::
          ((strField page "PreviousPageMin").map fun l => ("PreviousPageMin",.str l)).toList)) >>=
            fun _ =>
        ViewM.update p.key
          ((page.set "NFTokens" (.arr (entries upper))).set "PreviousPageMin"
            (.str (pageKeyHex newKey))) >>= fun _ =>
        relinkBefore (strField page "PreviousPageMin") (pageKeyHex newKey) >>= fun _ =>
        pure true).Does s true content ∧
      Rewrites s.read content (front.reverse++p::back)
        (front.reverse++⟨newKey,lower⟩::⟨p.key,upper⟩::back) := by
  obtain ⟨hfront,⟨page',hpage',-,hprev,hnext⟩,hback⟩ := linked_focus.mp hlinked
  cases hpage.symm.trans hpage'
  have hbackKey := hwf.keys_focus.2
  rw [strField_link hprev]
  obtain ⟨s₁,hrun₁,hbecame₁⟩ := ViewM.does_insert (s := s) rfl hfree (newTokenPage (entries lower)
    (("NextPageMin",.str (pageKeyHex p.key))::(((front.head?.map Page.key).map hashText).map
      fun l =>
      ("PreviousPageMin",.str l)).toList))
  obtain ⟨s₂,hrun₂,hbecame₂⟩ := ViewM.does_update (k := p.key) hbecame₁.read
    (by rw [update_of_ne hkey.ne',hpage]; rfl)
    ((page.set "NFTokens" (.arr (entries upper))).set "PreviousPageMin" (.str (pageKeyHex newKey)))
  have hread₂ : ∀ k, k≠newKey → k≠p.key → s₂.read k=s.read k := fun k hnew hp => by
    rw [hbecame₂.read,update_of_ne hp,update_of_ne hnew]
  have hfront₂ : LinksBefore s₂.read p.key front :=
    hfront.congr fun q hq => hread₂ q.key (hfrontKey q hq).ne ((hfrontKey q hq).trans hkey).ne
  obtain ⟨content,⟨s₃,hrun₃,hbecame₃⟩,hfront₃,hsame⟩ :=
    does_unlinkBefore newKey hfront₂ hwf.front_pairwise
  have hlink : ((front.head?.map Page.key).map hashText).bind hashFromHex =
      front.head?.map Page.key := by
    cases front <;> simp
  have hrelink : relinkBefore ((front.head?.map Page.key).map hashText) (pageKeyHex newKey) s₂ =
      .ok ((),s₃) := by
    rw [relinkBefore_eq,hlink,hrun₃]
    intro key hmem
    rw [hlink] at hmem
    cases front with
    | nil => cases hmem
    | cons q front =>
      cases hmem
      obtain ⟨page,hpage,-⟩ := hfront₂.1
      exact ⟨page,hpage⟩
  have hnew : newKey∉front.map Page.key := not_mem_keys fun q hq => (hfrontKey q hq).ne
  have hold : p.key∉front.map Page.key := not_mem_keys fun q hq => ((hfrontKey q hq).trans hkey).ne
  refine ⟨content,.bind_run hrun₁ hbecame₁ (.bind_run hrun₂ hbecame₂
    (.bind_run hrelink hbecame₃ (ViewM.does_pure hbecame₃.read true))),
      linked_focus.mpr ⟨hfront₃,?_,?_,?_⟩,?_,?_⟩
  · refine isPage_newTokenPage ?_
    rw [hsame _ hnew,hbecame₂.read,update_of_ne hkey.ne,update_self]
  · refine ⟨_,(hsame _ hold).trans (hbecame₂.read ▸ update_self ..),?_,?_,?_⟩
    · simp
    · simp [linkText]
    · simp [hnext]
  · refine hback.congr fun q hq => ?_
    have hq := hbackKey q hq
    rw [hsame,hread₂ _ (hkey.trans hq).ne' hq.ne']
    exact not_mem_keys fun r hr => (((hfrontKey r hr).trans hkey).trans hq).ne
  · intro k hk hk'
    simp only [mem_keys_focus,map_cons,mem_cons,not_or] at hk hk'
    rw [hsame k hk.1,hread₂ k hk'.2.1 hk.2.1]
  · intro k hk hk'
    simp only [mem_keys_focus,map_cons,mem_cons] at hk hk'
    tauto

theorem does_split {m t : NFToken} {upper : List NFToken} (hwf : Wf owner (front.reverse++p::back))
    (hlinked : Linked s.read (front.reverse++p::back)) (hpage : s.read p.key=some (.json page))
    (hdrop : p.items.drop 16=m::upper) (hkey : m.low owner < p.key)
    (hfrontKey : ∀ q∈front, q.key < m.low owner) (hfree : s.read (m.low owner)=none)
    (hne : ∀ x∈p.items, x.low owner≠t.low owner) :
    ∃ content, (splitPageAndInsert owner p.key page (entries p.items) t.entry).Does s true content ∧
      Rewrites s.read content (front.reverse++p::back)
        (front.reverse++(PagedChain.split (NFToken.low owner) 16 t p++back)) := by
  obtain ⟨text,htext,hid⟩ := Option.bind_eq_some_iff.mp m.entry_id
  have hmiddle : (entries p.items)[16]?=some m.entry := by
    have hhead := congrArg head? hdrop
    rw [head?_drop,head?_cons] at hhead
    rw [entries,getElem?_map,hhead,Option.map_some]
  have hm : m∈p.items := mem_of_mem_drop (hdrop ▸ mem_cons_self)
  have hboundary :
    ViewM.lift (okOr ((entries p.items)[maxPageEntries/2]?.bind entryNFTokenId) .tefInternal) s =
      .ok (text,s) := by
    refine ViewM.lift_eq_ok.mpr ⟨okOr_eq_ok.mpr ?_,rfl⟩
    rw [show maxPageEntries/2=16 from rfl,hmiddle,Option.bind_some,htext]
  have hhash : ViewM.lift (okOr (hashFromHex text) .tefInternal) s=.ok (m.id,s) :=
    ViewM.lift_eq_ok.mpr ⟨okOr_eq_ok.mpr hid,rfl⟩
  have hlower : (compareTokenIds (hashText t.id) (hashText m.id) == .lt)=decide
    (t.low owner < m.low owner) := by
    rw [compareTokenIds_hashText (hne m hm).symm]
    change ((if t.low owner < m.low owner then Ordering.lt else .gt) == .lt)=_
    by_cases hlt : t.low owner < m.low owner <;> simp [hlt]
  have htake : (entries p.items).take (maxPageEntries/2)=entries (p.items.take 16) := by
    simp [entries,maxPageEntries]
  have hrest : (entries p.items).drop (maxPageEntries/2)=entries (m::upper) := by
    rw [← hdrop]
    simp [entries,maxPageEntries]
  rw [PagedChain.split,hdrop]
  dsimp only
  -- the new token goes to the half on its side of the boundary
  by_cases hlt : t.low owner < m.low owner
  · obtain ⟨content,hdoes,hrewrites⟩ :=
      does_splitWrites (place (NFToken.low owner) t (p.items.take 16)) (m::upper)
      hwf hlinked hpage hkey hfrontKey hfree
    rw [if_pos hlt]
    refine ⟨content,.bind_same hboundary (.bind_same hhash ?_),hrewrites⟩
    have hplace := placeEntry_entries fun x (hx : x∈p.items.take 16) => hne x (mem_of_mem_take hx)
    dsimp only
    rw [t.entryId_eq,upper_of_hashFromHex hid,hlower,decide_eq_true hlt,if_pos rfl,if_pos rfl,htake,
      hrest,hplace]
    exact hdoes
  · obtain ⟨content,hdoes,hrewrites⟩ :=
      does_splitWrites (p.items.take 16) (place (NFToken.low owner) t (m::upper))
      hwf hlinked hpage hkey hfrontKey hfree
    rw [if_neg hlt]
    refine ⟨content,.bind_same hboundary (.bind_same hhash ?_),hrewrites⟩
    have hplace := placeEntry_entries fun x (hx : x∈m::upper) =>
      hne x (mem_of_mem_drop (hdrop ▸ hx))
    dsimp only
    rw [t.entryId_eq,upper_of_hashFromHex hid,hlower,decide_eq_false hlt,if_neg Bool.false_ne_true,
      if_neg Bool.false_ne_true,htake,hrest,hplace]
    exact hdoes

end

end Rxrpl.Tx
