import Rxrpl.EntryKeys
import Rxrpl.NumberRing

/-!
# Chains of directory pages

A directory as the pages that its numbers lead to, each with its keys and links. The pages are a
ring in the order of their numbers, the root behind the last one. A new entry comes on the last
page or on a new one behind it, and an emptied page is taken out of the ring; an entry stays on
the page where it was put.
-/

namespace Rxrpl.Tx

open Keylet NumberRing ViewM Function List

/-! ## Directories -/

/-- The keys of a page and its links, to the next page and to the one before. -/
structure DirPage where
  entries : List Hash256
  link : Bool → ℕ

def DirPage.setLink (page : DirPage) (forward : Bool) (p : ℕ) : DirPage :=
  { page with link := Function.update page.link forward p }

abbrev Directory := ℕ → Option DirPage

namespace Directory

def links (D : Directory) : Links :=
    Option.map (fun page : DirPage => (page.link true,page.link false)) ∘ D

def pages (D : Directory) : ℕ → Option (List Hash256) := Option.map DirPage.entries ∘ D

def setLink (D : Directory) (p : ℕ) (forward : Bool) (q : ℕ) : Directory :=
  Function.update D p ((D p).map (·.setLink forward q))

/-- Another page behind `a`, and another one before `b`. -/
def patch (D : Directory) (a next b prev : ℕ) : Directory :=
    (D.setLink a true next).setLink b false prev

variable {D : Directory} {a b m n p : ℕ} {e : Hash256} {page : DirPage} {x : Option DirPage}

theorem pages_update : pages (update D p x)=update D.pages p (x.map DirPage.entries) :=
    comp_update ..

theorem links_update : links (update D p x) =
    update D.links p (x.map fun page => (page.link true,page.link false)) := comp_update ..

theorem pages_setLink (p : ℕ) (forward : Bool) (q : ℕ) : (D.setLink p forward q).pages=D.pages := by
  rw [setLink,pages_update,Option.map_map]
  exact update_eq_self p D.pages

theorem pages_patch : (D.patch a m b n).pages=D.pages := by
  rw [patch,pages_setLink,pages_setLink]

theorem links_patch : (D.patch a m b n).links=D.links.patch a m b n := by
  have hnext : ∀ D : Directory,
    (D.setLink a true m).links=update D.links a ((D.links a).map fun l => (m,l.2)) := by
    intro D
    rw [setLink,links_update,Option.map_map,links,comp_apply,Option.map_map]
    simp [DirPage.setLink,comp_def]
  have hprev : ∀ D : Directory, (D.setLink b false n).links =
      update D.links b ((D.links b).map fun l => (l.1,n)) := by
    intro D
    rw [setLink,links_update,Option.map_map,links,comp_apply,Option.map_map]
    simp [DirPage.setLink,comp_def]
  rw [patch,hprev,hnext]
  rfl

theorem setLink_eq (h : D p=some page) (forward : Bool) (q : ℕ) :
    D.setLink p forward q=update D p (some (page.setLink forward q)) := by
  rw [setLink,h]
  rfl

theorem isSome_setLink (p : ℕ) (forward : Bool) (q r : ℕ) :
    (D.setLink p forward q r).isSome=(D r).isSome := by
  by_cases hr : r=p <;> simp [setLink,hr]

theorem links_setEntries (h : D p=some page) (es : List Hash256) :
    links (update D p (some { page with entries := es }))=D.links := by
  rw [links_update,update_eq_self_iff,links,comp_apply,h]
  rfl

theorem mem_live : p∈D.links.live ↔ ∃ page, D p=some page := by
  rw [← Option.isSome_iff_exists]
  simp [Links.live,links]

theorem eq_none_of_last (hlast : Follows D.links.live a 0) : D (a+1)=none := by
  rw [← Option.not_isSome_iff_eq_none,Option.isSome_iff_exists,← mem_live]
  intro hmem
  rcases hlast.gap with ⟨hlt,-⟩ | ⟨-,hmax⟩
  · omega
  · exact absurd (hmax _ hmem) (by omega)

/-! ## Entries and their pages -/

/-- The entries that were put on a page. -/
def onPage (hints : List (Hash256 × ℕ)) (p : ℕ) : List Hash256 := (hints.filter (·.2=p)).map (·.1)

variable {hints : List (Hash256 × ℕ)} {q : ℕ}

theorem onPage_cons : onPage ((e,p)::hints) q=if p=q then e::onPage hints q
    else onPage hints q := by
  by_cases hp : p=q <;> simp [onPage,hp]

theorem mem_onPage : e∈onPage hints p ↔ (e,p)∈hints := by simp [onPage]

theorem onPage_without_ne (hq : q≠p) : onPage (hints.filter (· ≠ (e,p))) q=onPage hints q := by
  rw [onPage,filter_filter,onPage]
  congr 1
  refine filter_congr fun h _ => ?_
  by_cases hh : h.2=q
  · have hne : h≠(e,p) := fun heq => hq (hh.symm.trans (congrArg Prod.snd heq))
    simp [hh,hne]
  · simp [hh]

theorem onPage_without (hnodup : (hints.map (·.1)).Nodup) :
    onPage (hints.filter (· ≠ (e,p))) p=(onPage hints p).erase e := by
  rw [onPage,onPage,(hnodup.sublist (filter_sublist.map _)).erase_eq_filter,filter_map,
    filter_filter,filter_filter]
  congr 1
  refine filter_congr fun h _ => ?_
  by_cases hh : h.2=p <;> by_cases he : h.1=e <;> simp [hh,he,Prod.ext_iff]

/-- Each page lists the entries that were put on it, and no entry was put on two pages. -/
structure Lists (pages : ℕ → Option (List Hash256)) (hints : List (Hash256 × ℕ)) : Prop where
  entries : ∀ p es, pages p=some es → es.Perm (onPage hints p)
  nodup : (hints.map (·.1)).Nodup
  size : ∀ p, (onPage hints p).length ≤ maxEntriesPerPage
  live : ∀ h∈hints, (pages h.2).isSome

variable {pages : ℕ → Option (List Hash256)} {es : List Hash256}

theorem Lists.insert (h : Lists pages hints) (he : e∉hints.map (·.1))
    (hroom : (onPage hints p).length < maxEntriesPerPage) (hes : es.Perm (e::onPage hints p)) :
    Lists (update pages p (some es)) ((e,p)::hints) := by
  refine ⟨fun q es' hes' => ?_,nodup_cons.mpr ⟨he,h.nodup⟩,fun q => ?_,
    forall_mem_cons.mpr ⟨by simp,fun hint hhint => ?_⟩⟩
  · rw [update_apply] at hes'
    rw [onPage_cons]
    by_cases hq : q=p
    · subst hq
      rw [if_pos rfl] at hes' ⊢
      cases hes'
      exact hes
    · rw [if_neg hq] at hes'
      rw [if_neg (Ne.symm hq)]
      exact h.entries q es' hes'
  · rw [onPage_cons]
    split
    · exact ‹p=q› ▸ hroom
    · exact h.size q
  · rw [update_apply]
    split
    · rfl
    · exact h.live hint hhint

theorem Lists.erase (h : Lists pages hints) {x : Option (List Hash256)}
    (hx : ∀ es, x=some es → es.Perm ((onPage hints p).erase e))
    (hnone : x=none → onPage hints p=[e]) :
      Lists (update pages p x) (hints.filter (· ≠ (e,p))) := by
  refine ⟨fun q es hes => ?_,h.nodup.sublist (filter_sublist.map _),fun q => ?_,fun hint hhint =>
    ?_⟩
  · rw [update_apply] at hes
    split at hes
    · rename_i hq
      rw [hq,onPage_without h.nodup]
      exact hx es hes
    · rw [onPage_without_ne ‹_›]
      exact h.entries q es hes
  · exact ((filter_sublist.filter _).map _).length_le.trans (h.size q)
  · obtain ⟨hhint,hne⟩ := mem_filter.mp hhint
    rw [update_apply]
    split
    · rename_i hp
      cases x with
      | some es => rfl
      | none =>
        have hmem := mem_onPage.mpr (hp ▸ hhint : (hint.1,p)∈hints)
        rw [hnone rfl,mem_singleton] at hmem
        simp [Prod.ext_iff,hmem,hp] at hne
    · exact h.live hint hhint

/-- No page is empty but a root with other pages behind it. -/
def Tight (D : Directory) : Prop := ∀ p page, D p=some page → page.entries=[] → p=0 ∧
    page.link true≠0

/-- The pages are a ring, and they list the entries. -/
structure Sound (D : Directory) (hints : List (Hash256 × ℕ)) (tight : Prop) : Prop where
  ring : D.links.Ring
  lists : Lists D.pages hints
  tight : tight → D.Tight

theorem setLink_eq_some {forward : Bool} (h : D.setLink a forward b p=some page) :
    ∃ page', D p=some page' ∧ page=if p=a then page'.setLink forward b else page' := by
  rw [setLink,update_apply] at h
  split at h
  · rename_i hp
    obtain ⟨page',hpage',rfl⟩ := Option.map_eq_some_iff.mp h
    exact ⟨page',hp ▸ hpage',(if_pos hp).symm⟩
  · exact ⟨page,h,(if_neg ‹_›).symm⟩

theorem exists_of_patch (h : D.patch a m b n p=some page) : ∃ page', D p=some page' ∧
    page.entries=page'.entries ∧
    page.link true=if p=a then m else page'.link true := by
  obtain ⟨_,h',rfl⟩ := setLink_eq_some h
  obtain ⟨page',hpage',rfl⟩ := setLink_eq_some h'
  refine ⟨page',hpage',?_,?_⟩ <;> split_ifs <;> simp [DirPage.setLink]

section

variable {tight : Prop} (h : D.Sound hints tight)
include h

theorem Sound.entries (hpage : D p=some page) : page.entries.Perm (onPage hints p) :=
  h.lists.entries p _ (by rw [Directory.pages,comp_apply,hpage]; rfl)

theorem Sound.next (hpage : D p=some page) : Follows D.links.live p (page.link true) :=
  h.ring.next p (page.link true,page.link false) (by rw [links,comp_apply,hpage]; rfl)

theorem Sound.prev (hpage : D p=some page) : Follows D.links.live (page.link false) p :=
  h.ring.prev p (page.link true,page.link false) (by rw [links,comp_apply,hpage]; rfl)

theorem Sound.loosen : D.Sound hints False := ⟨h.ring,h.lists,False.elim⟩

theorem Sound.exists_page (hmem : (e,p)∈hints) : ∃ page, D p=some page ∧ e∈page.entries := by
  have hlive := h.lists.live _ hmem
  rw [Directory.pages,comp_apply,Option.isSome_map] at hlive
  obtain ⟨page,hpage⟩ := Option.isSome_iff_exists.mp hlive
  exact ⟨page,hpage,(h.entries hpage).mem_iff.mpr (mem_onPage.mpr hmem)⟩

/-- Behind a page comes the next one that is there, or none at all. -/
theorem Sound.next_cases (hpage : D p=some page) : (page.link true=0 ∧ ∀ hint∈hints, hint.2 ≤ p) ∨
    (page.link true≠0 ∧ p < page.link true ∧ (∃ next, D (page.link true)=some next) ∧
      ∀ hint∈hints, hint.2 ≤ p ∨ page.link true ≤ hint.2) := by
  have hlive : ∀ hint∈hints, hint.2∈D.links.live := fun hint hhint =>
    mem_live.mpr ((h.exists_page hhint).imp fun _ => And.left)
  have hnext := h.next hpage
  rcases hnext.gap with ⟨hlt,hgap⟩ | ⟨hzero,hmax⟩
  · exact .inr ⟨by omega,hlt,mem_live.mp hnext.right,fun hint hhint => hgap _ (hlive hint hhint)⟩
  · exact .inl ⟨hzero,fun hint hhint => hmax _ (hlive hint hhint)⟩

theorem Sound.hints_eq_nil (hempty : ∀ p page, D p=some page → page.entries=[]) : hints=[] := by
  refine eq_nil_iff_forall_not_mem.mpr fun hint hhint => ?_
  obtain ⟨page,hpage,hmem⟩ := h.exists_page hhint
  rw [hempty _ page hpage] at hmem
  cases hmem

theorem Sound.onPage_eq_nil (hp : D p=none) : onPage hints p=[] := by
  refine eq_nil_iff_forall_not_mem.mpr fun e he => ?_
  obtain ⟨page,hpage,-⟩ := h.exists_page (mem_onPage.mp he)
  cases hp.symm.trans hpage

/-- A directory without a root has no page. -/
theorem Sound.absent (hD : D 0=none) : D=(fun _ => none) ∧ hints=[] := by
  have hall : D=fun _ => none := funext fun q => by
    by_contra hq
    obtain ⟨page,hpage⟩ :=
      mem_live.mp (h.ring.root q (mem_live.mpr (Option.ne_none_iff_exists'.mp hq)))
    cases hD.symm.trans hpage
  exact ⟨hall,h.hints_eq_nil (by rw [hall]; nofun)⟩

theorem Sound.setEntries {hints' : List (Hash256 × ℕ)} (hpage : D p=some page)
    (hlists : Lists (update D.pages p (some es)) hints')
    (ht : tight → es=[] → p=0 ∧ page.link true≠0) :
    Sound (update D p (some { page with entries := es })) hints' tight := by
  refine ⟨by rw [links_setEntries hpage]; exact h.ring,by
    rwa [pages_update],fun htight q page' hq hempty => ?_⟩
  rw [update_apply] at hq
  split at hq
  · cases hq
    exact ‹q=p› ▸ ht htight hempty
  · exact h.tight htight q page' hq hempty

theorem Sound.add (hpage : D p=some page) (he : e∉hints.map (·.1))
    (hroom : page.entries.length < maxEntriesPerPage) (hes : es.Perm (e::page.entries)) :
    Sound (update D p (some { page with entries := es })) ((e,p)::hints) tight := by
  have hperm := h.entries hpage
  refine h.setEntries hpage (h.lists.insert he (hperm.length_eq ▸ hroom) (hes.trans (hperm.cons e)))
    fun _ hnil => ?_
  rw [hnil] at hes
  exact absurd hes.length_eq (by simp)

theorem Sound.take (hpage : D p=some page) (hes : es.Perm (page.entries.erase e))
    (ht : tight → es=[] → p=0 ∧ page.link true≠0) :
    Sound (update D p (some { page with entries := es })) (hints.filter (· ≠ (e,p))) tight := by
  refine h.setEntries hpage (h.lists.erase (fun es' hes' => ?_) nofun) ht
  cases hes'
  exact hes.trans ((h.entries hpage).erase e)

theorem Sound.append (hlast : Follows D.links.live a 0) (he : e∉hints.map (·.1)) :
    Sound
      (update (D.patch a (a+1) 0 (a+1)) (a+1) (some ⟨[e],fun forward => if forward then 0 else a⟩))
      ((e,a+1)::hints) tight := by
  have hnew : onPage hints (a+1)=[] := h.onPage_eq_nil (eq_none_of_last hlast)
  refine ⟨?_,?_,fun htight q page hq hempty => ?_⟩
  · rw [links_update,links_patch]
    exact h.ring.append hlast a.lt_succ_self
  · rw [pages_update,pages_patch]
    exact h.lists.insert he (by rw [hnew]; decide) (by rw [hnew])
  · rw [update_apply] at hq
    split at hq
    · cases hq
      cases hempty
    · obtain ⟨page',hpage',hentries,hlink⟩ := exists_of_patch hq
      obtain ⟨hzero,hne⟩ := h.tight htight q page' hpage' (hentries ▸ hempty)
      refine ⟨hzero,?_⟩
      rw [hlink]
      split
      · exact a.succ_ne_zero
      · exact hne

theorem Sound.unlink (hp : p≠0) (hpage : D p=some page) (hone : page.entries=[e]) :
    Sound (update (D.patch (page.link false) (page.link true) (page.link true) (page.link false)) p
      none)
      (hints.filter (· ≠ (e,p))) False := by
  refine ⟨?_,?_,False.elim⟩
  · rw [links_update,links_patch]
    exact h.ring.unlink hp (l := (page.link true,page.link false))
      (by rw [links,comp_apply,hpage]; rfl)
  · rw [pages_update,pages_patch]
    refine h.lists.erase nofun fun _ => ?_
    have hperm := h.entries hpage
    rw [hone] at hperm
    exact (singleton_perm.mp hperm).symm

end

theorem Sound.live_eq_empty {tight : Prop} (h : D.Sound [] tight) (ht : tight) :
    D.links.live=∅ := by
  have hroot : ∀ p∈D.links.live, p=0 ∧ ∃ q∈D.links.live, q≠0 := by
    intro p hp
    obtain ⟨page,hpage⟩ := mem_live.mp hp
    obtain ⟨hzero,hnext⟩ := h.tight ht p page hpage (perm_nil.mp (h.entries hpage))
    exact ⟨hzero,page.link true,(h.next hpage).right,hnext⟩
  refine Set.eq_empty_of_forall_notMem fun p hp => ?_
  obtain ⟨-,q,hq,hne⟩ := hroot p hp
  exact hne (hroot q hq).1

theorem sound_empty (tight : Prop) : Sound (fun _ => none) [] tight :=
  ⟨⟨fun _ hp => hp,nofun,nofun⟩,⟨nofun,nodup_nil,fun _ => by simp [onPage],nofun⟩,fun _ => nofun⟩

/-- An empty root that stands alone. -/
theorem Sound.dropRoot {tight : Prop} (h : D.Sound hints tight) (hroot : D 0=some page)
    (hempty : page.entries=[]) (hnext : page.link true=0) (tight' : Prop) :
    Sound (update D 0 none) hints tight' := by
  have halone : ∀ q page, D q=some page → q=0 := by
    intro q page' hq
    have hfollows := h.next hroot
    rw [hnext] at hfollows
    rcases hfollows.gap with ⟨hlt,-⟩ | ⟨-,hmax⟩
    · omega
    · exact Nat.le_zero.mp (hmax q (mem_live.mpr ⟨page',hq⟩))
  have hD : update D 0 none=fun _ => none := funext fun q => by
    rw [update_apply]
    split
    · rfl
    · exact Option.eq_none_iff_forall_not_mem.mpr fun page' hq => ‹q≠0› (halone q page' hq)
  have hhints : hints=[] := h.hints_eq_nil fun q page' hq => by
    cases halone q page' hq
    cases hroot.symm.trans hq
    exact hempty
  rw [hD,hhints]
  exact sound_empty tight'

theorem sound_root (e : Hash256) (tight : Prop) :
    Sound (update (fun _ => none) 0 (some ⟨[e],fun _ => 0⟩)) [(e,0)] tight := by
  refine ⟨?_,?_,fun _ q page hq hempty => ?_⟩
  · rw [links_update]
    exact Links.ring_zero
  · rw [pages_update]
    exact (sound_empty tight).lists.insert (by simp) (by decide) (.refl _)
  · rw [update_apply] at hq
    split at hq <;> cases hq
    cases hempty

end Directory

/-! ## The pages of the ledger -/

def linkName (forward : Bool) : String := if forward then "IndexNext" else "IndexPrevious"

structure DirPage.Shown (page : DirPage) (node : Json) : Prop where
  entries : dirPage node=page.entries.map hashText
  link : ∀ forward, readU64Field node (linkName forward)=page.link forward

section

variable {page : DirPage} {node : Json} {v : ℕ}

theorem DirPage.Shown.next (h : page.Shown node) : readU64Field node "IndexNext"=page.link true :=
    h.link true

theorem DirPage.Shown.prev (h : page.Shown node) :
    readU64Field node "IndexPrevious"=page.link false := h.link false

theorem readU64Field_set (hv : v < 2^64) (node : Json) (field field' : String) :
    readU64Field (node.set field (.str (u64Hex v))) field'=if field'=field then v
      else readU64Field node field' := by
  have hparse : parseHexU64 (u64Hex v)=some v := by
    rw [parseHexU64,u64Hex,utf8_ascii fun _ hc => Codec.hexWord_lt hc,Codec.parseUnsigned,
      Codec.readRadix_hexWord hv]
    simpa using hv
  rw [readU64Field,strField,Json.get_set]
  split
  · simp [Json.asStr,hparse]
  · rfl

theorem DirPage.Shown.setLink (h : page.Shown node) (forward : Bool) (hv : v < 2^64) :
    (page.setLink forward v).Shown (node.set (linkName forward) (.str (u64Hex v))) := by
  constructor
  · rw [dirPage,Json.get_set_ne (by cases forward <;> decide)]
    exact h.entries
  · intro b
    rw [readU64Field_set hv,h.link]
    cases b <;> cases forward <;> simp [linkName,DirPage.setLink]

theorem DirPage.Shown.removeLink (h : page.Shown node) (forward : Bool) :
    (page.setLink forward 0).Shown (node.remove (linkName forward)) := by
  constructor
  · rw [dirPage,Json.get_remove,if_neg (by cases forward <;> decide)]
    exact h.entries
  · intro b
    rw [readU64Field,strField,Json.get_remove]
    cases b <;> cases forward <;> simp [linkName,DirPage.setLink,← h.link,readU64Field,strField]

theorem dirPage_setIndexes (node : Json) (es : List Hash256) :
    dirPage (node.set "Indexes" (indexesJson (es.map hashText)))=es.map hashText := by
  rw [dirPage,Json.get_set_self]
  simp [indexesJson,Json.asArray,Json.asStr,comp_def,upper_hashText]

theorem DirPage.Shown.setEntries (h : page.Shown node) (es : List Hash256) :
    DirPage.Shown { page with entries := es }
      (node.set "Indexes" (indexesJson (es.map hashText))) := by
  refine ⟨dirPage_setIndexes node es,fun b => ?_⟩
  rw [readU64Field,strField,Json.get_set_ne (by cases b <;> decide)]
  exact h.link b

theorem swapRemove_perm {α : Type} {l : List α} {pos : ℕ} (h : pos < l.length) :
    (swapRemove l pos).Perm (l.eraseIdx pos) := by
  obtain ⟨init,x,rfl⟩ := l.eq_nil_or_concat'.resolve_left (by rintro rfl; simp at h)
  rw [swapRemove,getLast?_concat]
  dsimp only
  rw [length_append,length_singleton] at h
  rcases Nat.lt_or_ge pos init.length with hlt | hge
  · rw [set_append_left _ _ hlt,dropLast_concat,eraseIdx_append_of_lt_length hlt]
    exact (set_perm_cons_eraseIdx hlt x).trans (perm_append_singleton ..).symm
  · obtain rfl : pos=init.length := by omega
    rw [set_append_right _ _ le_rfl,eraseIdx_append_of_length_le le_rfl]
    simp

theorem idxOf?_dirPage (h : page.Shown node) (e : Hash256) :
    (dirPage node).idxOf? (hashText e)=if e∈page.entries then some (page.entries.idxOf e)
      else none := by
  have hmap : (dirPage node).idxOf? (hashText e)=page.entries.idxOf? e := by
    rw [h.entries,idxOf?,findIdx?_map,idxOf?]
    congr 1
    funext x
    exact hashText_injective.beq_eq
  rw [hmap]
  split
  · exact findIdx?_eq_some_of_exists ⟨e,‹_›,by simp⟩
  · exact idxOf?_eq_none_iff.mpr ‹_›

/-- The texts of a page without the one of an entry. -/
theorem indexesWithout_eq (h : page.Shown node) {e : Hash256} (hmem : e∈page.entries)
    (sorted : Bool) :
    ∃ es : List Hash256, indexesWithout sorted node (page.entries.idxOf e)=es.map hashText ∧
      es.Perm (page.entries.erase e) := by
  rw [← eraseIdx_idxOf_eq_erase,indexesWithout,h.entries]
  split
  · exact ⟨_,eraseIdx_map ..,.refl _⟩
  · refine ⟨swapRemove page.entries (page.entries.idxOf e),?_,
      swapRemove_perm (idxOf_lt_length_iff.mpr hmem)⟩
    rw [swapRemove,swapRemove,getLast?_map]
    cases page.entries.getLast? with
    | none => rfl
    | some x => simp [map_set,map_dropLast]

/-- The fields that are written onto new pages set no links. -/
def SetsNoLink (describe : List (String × Json)) : Prop :=
    ∀ m∈describe, ∀ forward, m.1≠linkName forward

theorem shown_makePage {describe : List (String × Json)} (hd : SetsNoLink describe) (root : Hash256)
    (thread : Bool) (e : Hash256) (hv : v < 2^64) :
    DirPage.Shown ⟨[e],fun forward => if forward then 0 else v⟩
      (makePage root thread describe (if v≠0 then [("IndexPrevious",.str (u64Hex v))] else [])
        [hashText e]) := by
  have hnone : ∀ forward, Json.find (linkName forward) describe.reverse=none := fun forward =>
    Json.find_eq_none fun m hm => hd m (mem_reverse.mp hm) forward
  constructor
  · simp [dirPage,makePage,Json.get_object,Json.find,indexesJson,Json.asArray,Json.asStr,
      upper_hashText]
  · intro forward
    have hf := hnone forward
    have hset := readU64Field_set hv .null "IndexPrevious" "IndexPrevious"
    by_cases hz : v=0 <;> cases forward <;> cases thread <;>
      simp_all [makePage,Json.get_object,Json.find,Json.find_append,linkName,readU64Field,strField,
        Json.asStr]

end

/-! ## Programs on a directory -/

theorem Directory.Sound.hashText_notMem {D : Directory} {hints : List (Hash256 × ℕ)} {tight : Prop}
    (h : D.Sound hints tight) {p : ℕ} {page : DirPage} (hpage : D p=some page) {node : Json}
    (hnode : page.Shown node) {e : Hash256} (he : e∉hints.map (·.1)) : hashText e∉dirPage node := by
  rw [hnode.entries]
  intro hmem
  obtain ⟨e',he',heq⟩ := mem_map.mp hmem
  rw [hashText_injective heq,(h.entries hpage).mem_iff,mem_onPage] at he'
  exact he (mem_map_of_mem he')

/-- What lies under the key of a page. -/
inductive Depicts : Option Data → Option DirPage → Prop
  | none : Depicts none none
  | page {page : DirPage} {node : Json} (h : page.Shown node) :
    Depicts (some (.json node)) (some page)

/-- The directory lies under the keys of its pages. -/
structure Shows (crypto : Crypto) (root : Hash256) (content : Hash256 → Option Data)
    (D : Directory) : Prop where
  bound : ∀ p, 2^64 ≤ p → D p=none
  depicts : ∀ p < 2^64, Depicts (content (dirNode crypto root p)) (D p)

section

variable {crypto : Crypto} {root : Hash256} {below : ReadView} {D D' : Directory}
  {s : Sandbox below} {k : Hash256} {p : ℕ} {page page₀ : DirPage} {node : Json} {α β : Type}
  {a : α} {x : ViewM below α} {f : α → ViewM below β} {P : α → Directory → Prop}
  {Q : β → Directory → Prop} {hints : List (Hash256 × ℕ)} {tight : Prop} {e : Hash256}
  {keepRoot : Bool}

/-- The numbers of the pages that are there. -/
def pageNumbers (crypto : Crypto) (root : Hash256) (content : Hash256 → Option Data) : Set ℕ :=
  {p | p < 2^64 ∧ (content (dirNode crypto root p)).isSome}

section

variable {content : Hash256 → Option Data} (h : Shows crypto root content D)
include h

theorem Shows.exists_node (hD : D p=some page) :
    p < 2^64 ∧ ∃ node, content (dirNode crypto root p)=some (.json node) ∧ page.Shown node := by
  have hp : p < 2^64 := by
    by_contra hp
    cases hD.symm.trans (h.bound p (not_lt.mp hp))
  have hdepicts := h.depicts p hp
  rw [hD] at hdepicts
  generalize content (dirNode crypto root p)=d at hdepicts
  cases hdepicts with
  | page hnode => exact ⟨hp,_,rfl,hnode⟩

theorem Shows.read_eq_none (hp : p < 2^64) (hD : D p=none) :
    content (dirNode crypto root p)=none := by
  have hdepicts := h.depicts p hp
  rw [hD] at hdepicts
  generalize content (dirNode crypto root p)=d at hdepicts
  cases hdepicts
  rfl

theorem Shows.exists_page (hp : p < 2^64)
    (hread : content (dirNode crypto root p)=some (.json node)) : ∃ page, D p=some page ∧
      page.Shown node := by
  have hdepicts := h.depicts p hp
  rw [hread] at hdepicts
  generalize D p=x at hdepicts
  cases hdepicts with
  | page hnode => exact ⟨_,rfl,hnode⟩

theorem Shows.pageNumbers_eq : pageNumbers crypto root content=D.links.live := by
  ext p
  rw [Directory.mem_live]
  constructor
  · rintro ⟨hp,hread⟩
    by_contra hD
    rw [h.read_eq_none hp (Option.eq_none_iff_forall_ne_some.mpr fun page hpage => hD ⟨page,hpage⟩)]
      at hread
    cases hread
  · rintro ⟨page,hpage⟩
    obtain ⟨hp,node,hread,-⟩ := h.exists_node hpage
    exact ⟨hp,by rw [hread]; rfl⟩

end

/-- The program returns, and what it returns and the directory that it leaves are as stated. -/
def Leads (crypto : Crypto) (root : Hash256) (x : ViewM below α) (s : Sandbox below)
    (Q : α → Directory → Prop) : Prop :=
  ∃ a s' D, x s=.ok (a,s') ∧ s'.sortedDirectories=s.sortedDirectories ∧
    Shows crypto root s'.read D ∧ Q a D

theorem leads_pure {Q : α → Directory → Prop} (h : Shows crypto root s.read D) (hQ : Q a D) :
    Leads crypto root (pure a : ViewM below α) s Q := ⟨a,s,D,rfl,rfl,h,hQ⟩

theorem Leads.bind (hx : Leads crypto root x s P)
    (hf : ∀ a s₁ D, s₁.sortedDirectories=s.sortedDirectories →
    Shows crypto root s₁.read D → P a D → Leads crypto root (f a) s₁ Q) : Leads crypto root
      (x >>= f) s Q := by
  obtain ⟨a,s₁,D,hx,hs₁,hshows,hP⟩ := hx
  obtain ⟨b,s₂,D₂,hf,hs₂,hrest⟩ := hf a s₁ D hs₁ hshows hP
  exact ⟨b,s₂,D₂,bind_eq_ok.mpr ⟨a,s₁,hx,hf⟩,hs₂.trans hs₁,hrest⟩

theorem leads_bind_same (hx : x s=.ok (a,s)) (hf : Leads crypto root (f a) s Q) :
    Leads crypto root (x >>= f) s Q := by
  rwa [Leads,bind_of_ok hx]

theorem read_bind {f : Option Data → ViewM below β} {d : Option Data} (hread : s.read k=d) :
    (ViewM.read k >>= f) s=f d s := bind_of_ok (congrArg (fun d => Except.ok (d,s)) hread)

theorem leads_read_bind {f : Option Data → ViewM below β} {d : Option Data} (hread : s.read k=d)
    (hf : Leads crypto root (f d) s Q) : Leads crypto root (ViewM.read k >>= f) s Q := by
  rwa [Leads,read_bind hread]

theorem parse_json (node : Json) : lift (Data.parse (.json node)) s=.ok (node,s) := rfl

theorem dirNode_zero (crypto : Crypto) (root : Hash256) : dirNode crypto root 0=root := if_pos rfl

/-- `dir_insert` into a directory that is there. -/
theorem dirInsert_eq {describe : List (String × Json)} {r : DirPage} {rootPage : Json}
    (hread : s.read root=some (.json rootPage)) (hrnode : r.Shown rootPage)
    (hlread : s.read (dirNode crypto root (r.link false))=some (.json node))
    (hnew : hashText e∉dirPage node) (sorted : Bool) :
      dirInsert crypto root e sorted describe s=(if (dirPage node).length < maxEntriesPerPage then
      ViewM.update (dirNode crypto root (r.link false)) (node.set "Indexes" (indexesJson
        (if sorted then (dirPage node++[hashText e]).insertionSort (· ≤ ·)
          else dirPage node++[hashText e]))) >>=
          fun _ => pure (r.link false)
      else appendPage crypto root (hashText e) describe (r.link false) rootPage node) s := by
  have hlast : readLastPage crypto root (r.link false) rootPage s=.ok (node,s) := by
    rw [readLastPage]
    split
    · rename_i hzero
      rw [hzero,dirNode_zero,hread] at hlread
      cases hlread
      rfl
    · exact readEntry_ok hlread _
  rw [dirInsert,read_bind hread]
  dsimp only
  rw [bind_of_ok (parse_json rootPage),hrnode.prev,bind_of_ok hlast,if_neg hnew]

/-! ### Search and walk -/

section

variable (h : Shows crypto root s.read D) (hsound : D.Sound hints tight)
include h hsound

/-- The search ends on the page where the entry was put. -/
theorem findPage_run {fuel q : ℕ} (hq : D q=some page) (hfuel : 2^64 ≤ fuel+q) :
    ∃ found, findPage crypto root (hashText e) fuel q s=.ok (found,s) ∧
      (∀ p, found=some p → (e,p)∈hints) ∧ (found=none → ∀ p, (e,p)∈hints → p < q) := by
  induction fuel generalizing q page with
  | zero => exact absurd (h.exists_node hq).1 (by omega)
  | succ fuel ih =>
    obtain ⟨-,node,hread,hnode⟩ := h.exists_node hq
    have hlisted : hashText e∈dirPage node ↔ (e,q)∈hints := by
      rw [hnode.entries,mem_map_of_injective hashText_injective,(hsound.entries hq).mem_iff,
        Directory.mem_onPage]
    rw [findPage,read_bind hread]
    dsimp only
    rw [bind_of_ok (parse_json node),hnode.next]
    split
    · exact ⟨some q,rfl,fun p hp => by cases hp; exact hlisted.mp ‹_›,nofun⟩
    rename_i hnot
    have hne : ∀ p, (e,p)∈hints → p≠q := fun p hp heq => hnot (hlisted.mpr (heq ▸ hp))
    rcases hsound.next_cases hq with ⟨hzero,hmax⟩ | ⟨hzero,hlt,⟨next,hnext⟩,hgap⟩
    · rw [if_pos hzero]
      exact ⟨none,rfl,nofun,fun _ p hp => lt_of_le_of_ne (hmax _ hp) (hne p hp)⟩
    · rw [if_neg hzero]
      obtain ⟨found,hfound,hsome,hnone⟩ := ih hnext (by omega)
      refine ⟨found,hfound,hsome,fun hf p hp => lt_of_le_of_ne ?_ (hne p hp)⟩
      exact (hgap _ hp).resolve_right (not_le.mpr (hnone hf p hp))

theorem findPage_start : ∃ found, findPage crypto root (hashText e) (2^64) 0 s=.ok (found,s) ∧
    (∀ p, found=some p → (e,p)∈hints) ∧ (found=none → ∀ p, (e,p)∉hints) := by
  cases hD : D 0 with
  | none =>
    obtain ⟨-,rfl⟩ := hsound.absent hD
    rw [show (2^64 : ℕ)=2^64-1+1 from rfl,findPage,read_bind (h.read_eq_none (by simp) hD)]
    exact ⟨none,rfl,nofun,fun _ _ => not_mem_nil⟩
  | some page =>
    obtain ⟨found,hfound,hsome,hnone⟩ :=
      findPage_run (e := e) h hsound hD (Nat.le_add_right (2^64) 0)
    exact ⟨found,hfound,hsome,fun hf p hp => absurd (hnone hf p hp) (Nat.not_lt_zero p)⟩

/-- The removal by the page of an entry is the one by a search. -/
theorem dirRemove_eq (hmem : (e,p)∈hints) :
    dirRemove crypto root e keepRoot s=dirRemovePageImpl crypto root p e keepRoot s := by
  obtain ⟨found,hfound,hsome,hnone⟩ := findPage_start (e := e) h hsound
  rw [dirRemove,bind_of_ok hfound]
  cases found with
  | none => exact absurd hmem (hnone rfl p)
  | some q => cases inj_on_of_nodup_map hsound.lists.nodup (hsome q rfl) hmem rfl; rfl

/-- The walk over the next pages lists the entries of these pages. -/
theorem collectEntries_run {fuel q : ℕ} (hq : D q=some page) (hfuel : 2^64 ≤ fuel+q) :
    (collectEntries crypto s.read root fuel q).Perm
      ((hints.filter (q ≤ ·.2)).map fun hint => hashText hint.1) := by
  induction fuel generalizing q page with
  | zero => exact absurd (h.exists_node hq).1 (by omega)
  | succ fuel ih =>
    obtain ⟨-,node,hread,hnode⟩ := h.exists_node hq
    have hfirst : (dirPage node).Perm ((hints.filter (·.2=q)).map fun hint => hashText hint.1) := by
      rw [hnode.entries]
      refine ((hsound.entries hq).map hashText).trans (.of_eq ?_)
      rw [Directory.onPage,map_map]
      rfl
    rw [collectEntries,hread]
    dsimp only
    rw [hnode.next]
    rcases hsound.next_cases hq with ⟨hzero,hmax⟩ | ⟨hzero,hlt,⟨next,hnext⟩,hgap⟩
    · rw [if_pos hzero]
      refine hfirst.trans
        (.of_eq (congrArg _ (filter_congr fun hint hhint => decide_eq_decide.mpr ?_)))
      exact ⟨fun heq => heq.ge,fun hle => le_antisymm (hmax hint hhint) hle⟩
    · rw [if_neg hzero]
      refine (hfirst.append (ih hnext (by omega))).trans ?_
      rw [← map_append]
      refine .map _ (.trans (.of_eq ?_) (filter_append_perm (·.2=q) (hints.filter (q ≤ ·.2))))
      rw [filter_filter,filter_filter]
      congr 1 <;> refine filter_congr fun hint hhint => ?_
      · grind
      · have := hgap hint hhint
        grind

theorem collectEntries_perm :
    (collectEntries crypto s.read root (2^64) 0).Perm (hints.map fun hint => hashText hint.1) := by
  cases hD : D 0 with
  | none =>
    obtain ⟨-,rfl⟩ := hsound.absent hD
    rw [show (2^64 : ℕ)=2^64-1+1 from rfl,collectEntries,h.read_eq_none (by simp) hD]
    exact .nil
  | some page => simpa using collectEntries_run h hsound hD (Nat.le_add_right (2^64) 0)

end

section

variable (hkeys : Set.InjOn (dirNode crypto root) {p | p < 2^64})
include hkeys

theorem Shows.update {content : Hash256 → Option Data} (h : Shows crypto root content D)
    (hp : p < 2^64) {d : Option Data} {x : Option DirPage} (hd : Depicts d x) :
    Shows crypto root (Function.update content (dirNode crypto root p) d)
      (Function.update D p x) := by
  refine ⟨fun q hq => ?_,fun q hq => ?_⟩
  · rw [update_apply,if_neg (by omega)]
    exact h.bound q hq
  · rw [update_apply,update_apply]
    by_cases hqp : q=p
    · rwa [hqp,if_pos rfl,if_pos rfl]
    · rw [if_neg fun heq => hqp (hkeys hq hp heq),if_neg hqp]
      exact h.depicts q hq

/-- A program that changes one page. -/
theorem leads_of_does {x : ViewM below Unit} {d : Option Data} {page : Option DirPage}
    {Q : Unit → Directory → Prop} (h : Shows crypto root s.read D) (hp : p < 2^64)
    (hd : Depicts d page) (hx : x.Does s () (update s.read (dirNode crypto root p) d))
    (hQ : Q () (update D p page)) : Leads crypto root x s Q := by
  obtain ⟨s',hx,hs'⟩ := hx
  exact ⟨(),s',_,hx,hs'.sortedDirectories,hs'.read ▸ h.update hkeys hp hd,hQ⟩

section

variable {Q : Unit → Directory → Prop} (h : Shows crypto root s.read D)
  (hk : dirNode crypto root p=k)
include h hk

theorem leads_update (hp : D p=some page₀) (hnode : page.Shown node)
    (hQ : Q () (update D p (some page))) : Leads crypto root (ViewM.update k node) s Q := by
  subst hk
  obtain ⟨hlt,node₀,hread,-⟩ := h.exists_node hp
  exact leads_of_does hkeys h hlt (.page hnode) (does_update rfl (by rw [hread]; rfl) node) hQ

theorem leads_insert (hlt : p < 2^64) (hp : D p=none) (hnode : page.Shown node)
    (hQ : Q () (update D p (some page))) : Leads crypto root (ViewM.insert k node) s Q := by
  subst hk
  exact leads_of_does hkeys h hlt (.page hnode) (does_insert rfl (h.read_eq_none hlt hp) node) hQ

theorem leads_erase (hp : D p=some page₀) (hQ : Q () (update D p none)) :
    Leads crypto root (ViewM.erase k) s Q := by
  subst hk
  obtain ⟨hlt,node₀,hread,-⟩ := h.exists_node hp
  exact leads_of_does hkeys h hlt .none (does_erase rfl (by rw [hread]; rfl)) hQ

end

theorem leads_patchLink {Q : Unit → Directory → Prop} (h : Shows crypto root s.read D)
    (hp : D p=some page)
    (forward : Bool) {v : ℕ} (hv : v < 2^64) (hQ : Q () (D.setLink p forward v)) :
    Leads crypto root (patchLink crypto root p (linkName forward) v) s Q := by
  obtain ⟨-,node,hread,hnode⟩ := h.exists_node hp
  rw [Directory.setLink_eq hp] at hQ
  refine leads_read_bind hread (leads_update hkeys h rfl hp ?_ hQ)
  split
  · rename_i hzero
    rw [hzero.1]
    exact hnode.removeLink forward
  · exact hnode.setLink forward hv

/-! ### Insertion -/

section

variable {describe : List (String × Json)}

theorem leads_appendPage (h : Shows crypto root s.read D) (hd : SetsNoLink describe) {l : ℕ}
    {rootPage : Json} {r : DirPage} (hroot : D 0=some r) (hrnode : r.Shown rootPage)
    (hl : D l=some page) (hlnode : page.Shown node)
    (hnew : D (l+1)=none) (hroom : l+1 < 2^64) {Q : ℕ → Directory → Prop} (hQ : Q (l+1)
      (update (D.patch l (l+1) 0 (l+1)) (l+1)
        (some ⟨[e],fun forward => if forward then 0 else l⟩))) :
    Leads crypto root (appendPage crypto root (hashText e) describe l rootPage node) s Q := by
  have hmod : (l+1) % 2^64=l+1 := Nat.mod_eq_of_lt hroom
  have hextra :
    (if l+1≠1 then [("IndexPrevious",Json.str (u64Hex ((l+1+2^64-1) % 2^64)))] else []) =
      if l≠0 then [("IndexPrevious",.str (u64Hex l))] else [] := by
    rw [show (l+1+2^64-1) % 2^64=l by omega]
    simp
  rw [appendPage]
  simp only [hmod,hextra]
  refine Leads.bind (P := fun _ D' => D'=D.patch l (l+1) 0 (l+1)) ?_ ?_
  · rw [Directory.patch,Directory.setLink_eq hl]
    split
    · rename_i hzero
      subst hzero
      rw [Directory.setLink_eq (update_self ..),update_idem]
      exact leads_update hkeys h (dirNode_zero ..) hl
        ((hlnode.setLink true hroom).setLink false hroom) rfl
    · rename_i hzero
      have hroot' : update D l (some (page.setLink true (l+1))) 0=some r := by
        rwa [update_of_ne (Ne.symm hzero)]
      rw [Directory.setLink_eq hroot']
      refine (leads_update (Q := fun _ D' => D'=_) hkeys h rfl hl (hlnode.setLink true hroom)
        rfl).bind ?_
      rintro - s₁ _ - h₁ rfl
      exact leads_update hkeys h₁ (dirNode_zero ..) hroot' (hrnode.setLink false hroom) rfl
  · rintro - s₁ _ - h₁ rfl
    have hnone : D.patch l (l+1) 0 (l+1) (l+1)=none := by
      simp [Directory.patch,Directory.setLink,update_apply,hnew]
    refine leads_bind_same rfl ((leads_insert (Q := fun _ D' => D'=_) hkeys h₁ rfl hroom hnone
      (shown_makePage hd root _ e (by omega)) rfl).bind ?_)
    rintro - s₂ _ - h₂ rfl
    exact leads_pure h₂ hQ

theorem leads_dirInsert (h : Shows crypto root s.read D) (hsound : D.Sound hints tight)
    (he : e∉hints.map (·.1)) (hd : SetsNoLink describe) (sorted : Bool)
      (hroom : ∀ r page, D 0=some r → D (r.link false)=some page →
      page.entries.length < maxEntriesPerPage ∨ r.link false+1 < 2^64) :
    Leads crypto root (dirInsert crypto root e sorted describe) s fun p D' =>
      D'.Sound ((e,p)::hints) tight := by
  cases hD : D 0 with
  | none =>
    obtain ⟨hall,hhints⟩ := hsound.absent hD
    have hread : s.read root=none := dirNode_zero crypto root ▸ h.read_eq_none (p := 0) (by simp) hD
    have hpage := shown_makePage hd root s.threadDirectories e (v := 0) (by simp)
    simp only [ne_eq,not_true_eq_false,if_false,ite_self] at hpage
    refine leads_read_bind hread
      (leads_bind_same rfl ((leads_insert (Q := fun _ D' => D'=_) hkeys h (dirNode_zero ..)
      (by simp) hD hpage rfl).bind ?_))
    rintro - s₁ _ - h₁ rfl
    rw [hall,hhints] at *
    exact leads_pure h₁ (Directory.sound_root e tight)
  | some r =>
    obtain ⟨-,rootPage,hread,hrnode⟩ := h.exists_node hD
    rw [dirNode_zero] at hread
    obtain ⟨page,hpage⟩ := Directory.mem_live.mp (hsound.prev hD).left
    obtain ⟨hlt,node,hlread,hlnode⟩ := h.exists_node hpage
    rw [Leads,dirInsert_eq hread hrnode hlread (hsound.hashText_notMem hpage hlnode he),
      hlnode.entries,length_map]
    change Leads ..
    split
    · rename_i hfull
      obtain ⟨es,hes,hperm⟩ : ∃ es : List Hash256, (if sorted then
          (page.entries.map hashText++[hashText e]).insertionSort (· ≤ ·)
            else page.entries.map hashText++[hashText e]) =
            es.map hashText ∧ es.Perm (e::page.entries) := by
        rw [← map_singleton,← map_append]
        split
        · refine ⟨_,(map_insertionSort (fun a b => hashText a ≤ hashText b) _ _ _ (by simp)).symm,
            ?_⟩
          exact (perm_insertionSort _ _).trans (perm_append_singleton ..)
        · exact ⟨_,rfl,perm_append_singleton ..⟩
      rw [hes]
      refine (leads_update (Q := fun _ D' => D'=_) hkeys h rfl hpage (hlnode.setEntries es)
        rfl).bind ?_
      rintro - s₁ _ - h₁ rfl
      exact leads_pure h₁ (hsound.add hpage he hfull hperm)
    · rename_i hfull
      exact leads_appendPage hkeys h hd hD hrnode hpage hlnode
        (Directory.eq_none_of_last (hsound.prev hD))
        ((hroom r page hD hpage).resolve_left hfull) (hsound.append (hsound.prev hD) he)

end

/-! ### Removal -/

theorem leads_relink {m n : ℕ} (h : Shows crypto root s.read D) (hm : D m=some page)
    (hn : D n=some page₀) :
    Leads crypto root (relink crypto root m n) s fun _ D' => D'=D.patch m n n m := by
  refine (leads_patchLink (Q := fun _ D' => D'=_) hkeys h hm true (h.exists_node hn).1 rfl).bind ?_
  rintro - s₁ _ - h₁ rfl
  obtain ⟨page',hn'⟩ := Option.isSome_iff_exists.mp
    ((D.isSome_setLink m true n n).trans (Option.isSome_iff_exists.mpr ⟨page₀,hn⟩))
  exact leads_patchLink hkeys h₁ hn' false (h.exists_node hm).1 rfl

theorem leads_dropPage (h : Shows crypto root s.read D) (hsound : D.Sound hints tight) (hp : p≠0)
    (hpage : D p=some page) (hnode : page.Shown node) (hone : page.entries=[e])
    (ht : tight → s.sortedDirectories=true ∧ keepRoot=false) :
    Leads crypto root (dropPage crypto root p node keepRoot) s
      fun _ D' => D'.Sound (hints.filter (· ≠ (e,p))) tight := by
  obtain ⟨r,hroot⟩ :=
    Directory.mem_live.mp (hsound.ring.root p (Directory.mem_live.mpr ⟨page,hpage⟩))
  obtain ⟨-,rootPage,hread,hrnode⟩ := h.exists_node hroot
  rw [dirNode_zero] at hread
  have hprev := hsound.prev hpage
  have hnext := hsound.next hpage
  have hunlink := hsound.unlink hp hpage hone
  rw [dropPage]
  refine leads_bind_same rfl ?_
  rw [hnode.next,hnode.prev]
  split
  · rename_i hlast
    simp only [Bool.and_eq_true,Bool.not_eq_true',decide_eq_true_eq] at hlast
    have hsorted : ¬tight := fun htight => by simp [(ht htight).1] at hlast
    refine leads_read_bind hread ?_
    split
    -- the last page stays and is empty
    · refine leads_update hkeys h rfl hpage (hnode.setEntries [])
        (hsound.take hpage ?_ fun htight => absurd htight hsorted)
      rw [hone,erase_cons_head]
    -- the page goes with the root, the only other page
    · rename_i hcond
      simp only [rootHasEntries,hrnode.entries,Bool.or_eq_true,decide_eq_true_eq,not_or,not_not,
        Bool.not_eq_true',
        Bool.not_eq_false,List.isEmpty_iff,map_eq_nil_iff] at hcond
      obtain ⟨⟨-,hzero⟩,hempty⟩ := hcond
      refine (leads_erase (Q := fun _ D' => D'=_) hkeys h rfl hpage rfl).bind ?_
      rintro - s₁ _ - h₁ rfl
      refine leads_erase hkeys h₁ (dirNode_zero ..) (by rw [update_of_ne hp.symm,hroot]) ?_
      rw [hlast.2,hzero,Directory.patch,Directory.setLink_eq hroot,
        Directory.setLink_eq (update_self ..),
        update_idem] at hunlink
      have halone : update (update D 0 (some ((r.setLink true 0).setLink false 0))) p none 0 =
          some ((r.setLink true 0).setLink false 0) := by
        rw [update_of_ne hp.symm,update_self]
      have hdrop := hunlink.dropRoot halone hempty rfl tight
      rwa [update_comm hp,update_idem,update_comm hp.symm] at hdrop
  -- the page goes out of the ring; a root that is left alone and empty goes too
  · obtain ⟨prev,hDprev⟩ := Directory.mem_live.mp hprev.left
    obtain ⟨next,hDnext⟩ := Directory.mem_live.mp hnext.right
    refine (leads_relink hkeys h hDprev hDnext).bind ?_
    rintro - s₁ _ - h₁ rfl
    have hsome : ∀ {q page'}, D q=some page' →
        ∃ page'', D.patch (page.link false) (page.link true) (page.link true)
          (page.link false) q=some page'' := by
      intro q page' hq
      rw [← Option.isSome_iff_exists,Directory.patch,Directory.isSome_setLink,
        Directory.isSome_setLink,hq]
      rfl
    obtain ⟨page',hpage'⟩ := hsome hpage
    refine (leads_erase (Q := fun _ D' => D'=_) hkeys h₁ rfl hpage' rfl).bind ?_
    rintro - s₂ _ - h₂ rfl
    split
    · refine leads_pure h₂ ⟨hunlink.ring,hunlink.lists,fun htight => ?_⟩
      simp [(ht htight).2] at *
    · obtain ⟨r',hr'⟩ := hsome hroot
      have hroot' : update
        (D.patch (page.link false) (page.link true) (page.link true) (page.link false)) p none 0 =
          some r' := by
        rwa [update_of_ne hp.symm]
      obtain ⟨-,rootPage',hread',hrnode'⟩ := h₂.exists_node hroot'
      rw [dirNode_zero] at hread'
      refine leads_read_bind hread' ?_
      dsimp only
      rw [hrnode'.entries,hrnode'.next]
      split
      · rename_i hcond
        simp only [Bool.and_eq_true,List.isEmpty_iff,map_eq_nil_iff,decide_eq_true_eq] at hcond
        exact leads_erase hkeys h₂ (dirNode_zero ..) hroot'
          (hunlink.dropRoot hroot' hcond.1 hcond.2 tight)
      · rename_i hcond
        refine leads_pure h₂ ⟨hunlink.ring,hunlink.lists,fun htight q page'' hq hempty => ?_⟩
        have hqp : q≠p := by
          rintro rfl
          rw [update_self] at hq
          cases hq
        have hq' := hq
        rw [update_of_ne hqp] at hq'
        obtain ⟨page₁,hpage₁,hentries,-⟩ := Directory.exists_of_patch hq'
        obtain ⟨rfl,-⟩ := hsound.tight htight q page₁ hpage₁ (hentries ▸ hempty)
        cases hroot'.symm.trans hq
        exact ⟨rfl,fun hzero => hcond (by simp [hempty,hzero])⟩

theorem leads_dirRemovePageImpl (h : Shows crypto root s.read D) (hsound : D.Sound hints tight)
    (hp : p < 2^64) (ht : tight → s.sortedDirectories=true ∧ keepRoot=false) :
    Leads crypto root (dirRemovePageImpl crypto root p e keepRoot) s
      fun _ D' => D'.Sound (hints.filter (· ≠ (e,p))) tight := by
  have hself : (e,p)∉hints → hints.filter (· ≠ (e,p))=hints := fun hmem =>
    filter_eq_self.mpr fun hint hhint => decide_eq_true fun heq => hmem (heq ▸ hhint)
  cases hD : D p with
  | none =>
    refine leads_read_bind (h.read_eq_none hp hD) (leads_pure h ?_)
    rw [hself fun hmem => ?_]
    · exact hsound
    · have hnil := hsound.onPage_eq_nil hD
      rw [← Directory.mem_onPage,hnil] at hmem
      cases hmem
  | some page =>
    obtain ⟨-,node,hread,hnode⟩ := h.exists_node hD
    refine leads_read_bind hread (leads_bind_same rfl ?_)
    rw [idxOf?_dirPage hnode]
    by_cases hmem : e∈page.entries
    · obtain ⟨es,hes,hperm⟩ := indexesWithout_eq hnode hmem s.sortedDirectories
      have hone : es=[] → page.entries=[e] := fun hnil => by
        rw [hnil] at hperm
        exact (perm_cons_erase hmem).trans (hperm.symm.cons e) |>.eq_singleton
      rw [if_pos hmem]
      refine leads_bind_same rfl ?_
      rw [hes,hnode.next]
      dsimp only
      split
      · rename_i hcond
        simp only [Bool.and_eq_true,List.isEmpty_iff,map_eq_nil_iff,decide_eq_true_eq] at hcond
        exact leads_dropPage hkeys h hsound hcond.2 hD hnode (hone hcond.1) ht
      rename_i hdrop
      split
      · rename_i hcond
        simp only [Bool.and_eq_true,List.isEmpty_iff,map_eq_nil_iff,decide_eq_true_eq] at hcond
        obtain ⟨⟨⟨rfl,rfl⟩,hnext⟩,-⟩ := hcond
        have htake := (hsound.loosen.take hD hperm False.elim).dropRoot
          (update_self ..) rfl hnext tight
        rw [update_idem] at htake
        exact leads_erase hkeys h rfl hD htake
      · rename_i hcond
        refine leads_update hkeys h rfl hD (hnode.setEntries es)
          (hsound.take hD hperm fun htight hnil => ?_)
        simp [hnil,(ht htight).2] at hdrop hcond
        exact ⟨hdrop,hcond hdrop⟩
    · rw [if_neg hmem]
      refine leads_pure h ?_
      rwa [hself]
      rwa [(hsound.entries hD).mem_iff,Directory.mem_onPage] at hmem

theorem leads_dirRemove (h : Shows crypto root s.read D) (hsound : D.Sound hints tight)
    (ht : tight → s.sortedDirectories=true ∧ keepRoot=false) :
    Leads crypto root (dirRemove crypto root e keepRoot) s fun _ D' =>
      D'.Sound (hints.filter (·.1≠e)) tight := by
  by_cases hmem : ∃ p, (e,p)∈hints
  · obtain ⟨p,hp⟩ := hmem
    obtain ⟨page,hpage,-⟩ := hsound.exists_page hp
    have hfilter : hints.filter (·.1≠e)=hints.filter (· ≠ (e,p)) := by
      refine filter_congr fun hint hhint =>
        decide_eq_decide.mpr (not_congr ⟨fun heq => ?_,fun heq => by rw [heq]⟩)
      exact inj_on_of_nodup_map hsound.lists.nodup hhint hp heq
    rw [Leads,dirRemove_eq h hsound hp,hfilter]
    exact leads_dirRemovePageImpl hkeys h hsound (h.exists_node hpage).1 ht
  · obtain ⟨found,hfound,hsome,-⟩ := findPage_start (e := e) h hsound
    refine leads_bind_same hfound ?_
    cases found with
    | some p => exact absurd ⟨p,hsome p rfl⟩ hmem
    | none =>
      have hself : hints.filter (·.1≠e)=hints :=
        filter_eq_self.mpr fun hint hhint => decide_eq_true fun heq => hmem ⟨hint.2,heq ▸ hhint⟩
      exact leads_pure h (by rwa [hself])

end

/-! ## Runs -/

/-- A sandbox after calls on one directory, which was absent at first, with the entries that are
listed and the pages that `dir_insert` returned for them. The calls are made with one setting of
`sorted_directories`, and the root is kept only if `keeps` says so. -/
inductive Reaches (crypto : Crypto) (root : Hash256) (keeps : Prop) :
    {below : ReadView} → Sandbox below → List (Hash256 × ℕ) → Prop
  | start {below : ReadView} {s : Sandbox below}
    (h : ∀ p < 2^64, s.read (dirNode crypto root p)=none) : Reaches crypto root keeps s []
  | insert {below : ReadView} {s s' : Sandbox below} {hints : List (Hash256 × ℕ)} {e : Hash256}
      {sorted : Bool} {describe : List (String × Json)} {p : ℕ}
      (h : Reaches crypto root keeps s hints) (he : e∉hints.map (·.1)) (hd : SetsNoLink describe)
      (hcall : dirInsert crypto root e sorted describe s=.ok (p,s')) :
    Reaches crypto root keeps s' ((e,p)::hints)
  | remove {below : ReadView} {s s' : Sandbox below} {hints : List (Hash256 × ℕ)} {e : Hash256}
      {keepRoot : Bool} (h : Reaches crypto root keeps s hints) (hkeep : keepRoot=true → keeps)
      (hcall : dirRemove crypto root e keepRoot s=.ok ((),s')) :
    Reaches crypto root keeps s' (hints.filter (·.1≠e))
  | removePage {below : ReadView} {s s' : Sandbox below} {hints : List (Hash256 × ℕ)} {e : Hash256}
      {keepRoot : Bool} {p : ℕ} (h : Reaches crypto root keeps s hints) (hp : p < 2^64)
      (hkeep : keepRoot=true → keeps)
      (hcall : dirRemovePageImpl crypto root p e keepRoot s=.ok ((),s')) :
    Reaches crypto root keeps s' (hints.filter (· ≠ (e,p)))
  -- whatever happens between two calls leaves the pages alone, also when the sandbox is applied
  -- and the next one stands on another ledger
  | between {below below' : ReadView} {s : Sandbox below} {s' : Sandbox below'}
      {hints : List (Hash256 × ℕ)} (h : Reaches crypto root keeps s hints)
      (hread : ∀ p < 2^64, s'.read (dirNode crypto root p)=s.read (dirNode crypto root p))
      (hsorted : s'.sortedDirectories=s.sortedDirectories) :
    Reaches crypto root keeps s' hints

variable {keeps : Prop}

/-- Behind the last page number there is no room. -/
theorem appendPage_ne_ok {l : ℕ} (hl : l+1=2^64) (entryHex : String)
    (describe : List (String × Json)) (rootPage : Json) (p : ℕ) (s' : Sandbox below) :
      appendPage crypto root entryHex describe l rootPage node s≠.ok (p,s') := by
  intro hcall
  rw [appendPage,if_neg (by omega)] at hcall
  obtain ⟨_,s₁,hupdates,hcall⟩ := bind_eq_ok.mp hcall
  obtain ⟨_,s₂,hthread,hcall⟩ := bind_eq_ok.mp hcall
  obtain ⟨_,s₃,hinsert,-⟩ := bind_eq_ok.mp hcall
  obtain ⟨_,s₀,-,hupdate⟩ := bind_eq_ok.mp hupdates
  cases hthread
  have hnone := (insert_eq_ok hinsert).1
  rw [hl,Nat.mod_self,dirNode_zero,(update_eq_ok hupdate).2.read,update_self] at hnone
  cases hnone

theorem Leads.of_ok {Q : α → Directory → Prop} {s' : Sandbox below} (h : Leads crypto root x s Q)
    (hx : x s=.ok (a,s')) :
    s'.sortedDirectories=s.sortedDirectories ∧ ∃ D, Shows crypto root s'.read D ∧ Q a D := by
  obtain ⟨a',s'',D,hx',hs'',h⟩ := h
  cases hx.symm.trans hx'
  exact ⟨hs'',D,h⟩

section

variable (hkeys : Set.InjOn (dirNode crypto root) {p | p < 2^64})
include hkeys

theorem Reaches.sound (h : Reaches crypto root keeps s hints) :
    ∃ D, Shows crypto root s.read D ∧ D.Sound hints (s.sortedDirectories=true ∧ ¬keeps) := by
  induction h with
  | start h =>
    refine ⟨fun _ => none,⟨fun _ _ => rfl,fun p hp => ?_⟩,Directory.sound_empty _⟩
    rw [h p hp]
    exact .none
  | @insert _ s s' hints e sorted describe p _ he hd hcall ih =>
    obtain ⟨D,hD,hsound⟩ := ih
    by_cases hroom : ∀ r page, D 0=some r → D (r.link false)=some page →
        page.entries.length < maxEntriesPerPage ∨ r.link false+1 < 2^64
    · obtain ⟨hs,hD'⟩ := (leads_dirInsert hkeys hD hsound he hd sorted hroom).of_ok hcall
      rwa [hs]
    · push Not at hroom
      obtain ⟨r,page,hr,hpage,hfull,hlast⟩ := hroom
      obtain ⟨-,rootPage,hread,hrnode⟩ := hD.exists_node hr
      obtain ⟨hlt,node,hlread,hlnode⟩ := hD.exists_node hpage
      rw [dirNode_zero] at hread
      rw [dirInsert_eq hread hrnode hlread (hsound.hashText_notMem hpage hlnode he),hlnode.entries,
        length_map,
        if_neg (not_lt.mpr hfull)] at hcall
      exact (appendPage_ne_ok (Nat.le_antisymm hlt hlast) _ _ _ _ _ hcall).elim
  | @remove _ s s' hints e keepRoot _ hkeep hcall ih =>
    obtain ⟨D,hD,hsound⟩ := ih
    obtain ⟨hs,hD'⟩ := (leads_dirRemove hkeys hD hsound
      fun htight => ⟨htight.1,by simpa using mt hkeep htight.2⟩).of_ok hcall
    rwa [hs]
  | @removePage _ s s' hints e keepRoot p _ hp hkeep hcall ih =>
    obtain ⟨D,hD,hsound⟩ := ih
    obtain ⟨hs,hD'⟩ := (leads_dirRemovePageImpl hkeys hD hsound hp
      fun htight => ⟨htight.1,by simpa using mt hkeep htight.2⟩).of_ok hcall
    rwa [hs]
  | between _ hread hsorted ih =>
    obtain ⟨D,hD,hsound⟩ := ih
    refine ⟨D,⟨hD.bound,fun p hp => ?_⟩,by rwa [hsorted]⟩
    rw [hread p hp]
    exact hD.depicts p hp

/-- An entry that is not removed stays on the page that `dir_insert` returned, and stands on no
other page; the removal by this page does what the removal by a search does, and neither fails. -/
theorem page_hint_valid (h : Reaches crypto root keeps s hints) (hmem : (e,p)∈hints) :
    (∀ q < 2^64,
      (∃ node, s.read (dirNode crypto root q)=some (.json node) ∧ hashText e∈dirPage node) ↔ q=p) ∧
      ∀ keepRoot, (∃ s', dirRemove crypto root e keepRoot s=.ok ((),s')) ∧
        dirRemovePageImpl crypto root p e keepRoot s=dirRemove crypto root e keepRoot s := by
  obtain ⟨D,hD,hsound⟩ := h.sound hkeys
  refine ⟨fun q hq => ⟨?_,?_⟩,fun keepRoot => ⟨?_,(dirRemove_eq hD hsound hmem).symm⟩⟩
  · rintro ⟨node,hread,hlisted⟩
    obtain ⟨page,hpage,hnode⟩ := hD.exists_page hq hread
    rw [hnode.entries,mem_map_of_injective hashText_injective,(hsound.entries hpage).mem_iff,
      Directory.mem_onPage] at hlisted
    exact congrArg Prod.snd (inj_on_of_nodup_map hsound.lists.nodup hlisted hmem rfl)
  · rintro rfl
    obtain ⟨page,hpage,he⟩ := hsound.exists_page hmem
    obtain ⟨-,node,hread,hnode⟩ := hD.exists_node hpage
    exact ⟨node,hread,hnode.entries ▸ mem_map_of_mem he⟩
  · obtain ⟨_,s',_,hcall,-⟩ : Leads crypto root (dirRemove crypto root e keepRoot) s _ :=
      leads_dirRemove hkeys hD hsound.loosen False.elim
    exact ⟨s',hcall⟩

/-- The pages of a directory are a doubly linked list in the order of their numbers, of at most
`maxEntriesPerPage` entries each, and the walk from the root ends and lists each entry once. With
sorted directories, and without calls that keep the root, no page is left when all entries are
removed. -/
theorem pages_chained (h : Reaches crypto root keeps s hints) :
    (∀ p∈pageNumbers crypto root s.read, 0∈pageNumbers crypto root s.read ∧
      ∃ node, s.read (dirNode crypto root p)=some (.json node) ∧
        Follows (pageNumbers crypto root s.read) p (readU64Field node "IndexNext") ∧
        Follows (pageNumbers crypto root s.read) (readU64Field node "IndexPrevious") p ∧
        (dirPage node).length ≤ maxEntriesPerPage) ∧
    (∀ e, ∃ found, findPage crypto root (hashText e) (2^64) 0 s=.ok (found,s)) ∧
    (collectEntries crypto s.read root (2^64) 0).Perm (hints.map fun hint => hashText hint.1) ∧
    (hints.map (·.1)).Nodup ∧
    (s.sortedDirectories=true → ¬keeps → hints=[] → pageNumbers crypto root s.read=∅) := by
  obtain ⟨D,hD,hsound⟩ := h.sound hkeys
  rw [hD.pageNumbers_eq]
  refine ⟨fun p hp => ⟨hsound.ring.root p hp,?_⟩,fun e => ?_,collectEntries_perm hD hsound,
    hsound.lists.nodup,?_⟩
  · obtain ⟨page,hpage⟩ := Directory.mem_live.mp hp
    obtain ⟨-,node,hread,hnode⟩ := hD.exists_node hpage
    refine ⟨node,hread,hnode.next ▸ hsound.next hpage,hnode.prev ▸ hsound.prev hpage,?_⟩
    rw [hnode.entries,length_map,(hsound.entries hpage).length_eq]
    exact hsound.lists.size p
  · obtain ⟨found,hfound,-⟩ := findPage_start (e := e) hD hsound
    exact ⟨found,hfound⟩
  · rintro hsorted hkeeps rfl
    exact hsound.live_eq_empty ⟨hsorted,hkeeps⟩

end

end

/-! ## A directory after a removal -/

def sampleOwner : Hash256 := ownerDir paddedCrypto (party 1)

theorem sampleOwner_keys : Set.InjOn (dirNode paddedCrypto sampleOwner) {p | p < 2^64} :=
  separated_paddedCrypto.dirNode_injOn (party 1)

def sampleEntry (n : UInt8) : Hash256 := account paddedCrypto (party n)

/-- Three entries are put in, and the second one is taken out again. -/
def sampleCallsOn : ViewM emptyView (ℕ × ℕ × ℕ) :=
  dirInsert paddedCrypto sampleOwner (sampleEntry 2) true [] >>= fun p =>
  dirInsert paddedCrypto sampleOwner (sampleEntry 3) true [] >>= fun q =>
  dirInsert paddedCrypto sampleOwner (sampleEntry 4) true [] >>= fun r =>
  dirRemove paddedCrypto sampleOwner (sampleEntry 3) false >>= fun _ => pure (p,q,r)

def sampleHints : List (Hash256 × ℕ) := [(sampleEntry 4,0),(sampleEntry 2,0)]

theorem sampleOwner_reaches : ∃ s : Sandbox emptyView, s.sortedDirectories=true ∧
    Reaches paddedCrypto sampleOwner False s sampleHints := by
  have hrun : (sampleCallsOn { Sandbox.new emptyView with sortedDirectories := true }).toOption.map
      (fun r => (r.1,r.2.sortedDirectories))=some ((0,0,0),true) := by
    decide +kernel
  cases hcalls : sampleCallsOn { Sandbox.new emptyView with sortedDirectories := true } with
  | error => rw [hcalls] at hrun; cases hrun
  | ok r =>
    rw [hcalls] at hrun
    obtain ⟨pages,s⟩ := r
    obtain ⟨rfl,hsorted⟩ := Prod.mk.inj (Option.some.inj hrun)
    obtain ⟨p,s₁,hfirst,hcalls⟩ := bind_eq_ok.mp hcalls
    obtain ⟨q,s₂,hsecond,hcalls⟩ := bind_eq_ok.mp hcalls
    obtain ⟨r,s₃,hthird,hcalls⟩ := bind_eq_ok.mp hcalls
    obtain ⟨_,s₄,hremove,hcalls⟩ := bind_eq_ok.mp hcalls
    cases hcalls
    have hd : SetsNoLink [] := by simp [SetsNoLink]
    have hfour : Reaches paddedCrypto sampleOwner False s₃
        [(sampleEntry 4,0),(sampleEntry 3,0),(sampleEntry 2,0)] :=
      .insert (.insert (.insert (.start fun _ _ => rfl) (by simp) hd hfirst) (by decide) hd hsecond)
        (by decide) hd hthird
    have hremoved := Reaches.remove hfour (by simp) hremove
    have h₂ : sampleEntry 2≠sampleEntry 3 := by decide
    have h₄ : sampleEntry 4≠sampleEntry 3 := by decide
    exact ⟨s,hsorted,by simpa [sampleHints,h₂,h₄] using hremoved⟩

/-- The hint of the first entry is still good after the removal of the second. -/
theorem kept_hint_valid : ∃ s : Sandbox emptyView,
    Reaches paddedCrypto sampleOwner False s sampleHints ∧
      (∃ s', dirRemove paddedCrypto sampleOwner (sampleEntry 2) false s=.ok ((),s')) ∧
      dirRemovePageImpl paddedCrypto sampleOwner 0 (sampleEntry 2) false s =
        dirRemove paddedCrypto sampleOwner (sampleEntry 2) false s := by
  obtain ⟨s,-,hs⟩ := sampleOwner_reaches
  exact ⟨s,hs,(page_hint_valid sampleOwner_keys hs (by simp [sampleHints])).2 false⟩

theorem kept_entries_walked : ∃ s : Sandbox emptyView,
    Reaches paddedCrypto sampleOwner False s sampleHints ∧
      (collectEntries paddedCrypto s.read sampleOwner (2^64) 0).Perm
        [hashText (sampleEntry 4),hashText (sampleEntry 2)] := by
  obtain ⟨s,-,hs⟩ := sampleOwner_reaches
  exact ⟨s,hs,(pages_chained sampleOwner_keys hs).2.2.1⟩

end Rxrpl.Tx
