import Rxrpl.NFTokenChain
import Mathlib.Data.Set.Card

/-!
# Runs of insertions and removals of tokens

A view holds a chain of an owner when the chain is well-formed, ends in the owner's last page, and
lies in the view with its links, and no other entry has a key in the owner's range. `insert_token`
and `remove_token` keep such a chain, and what they return is the change of the number of pages.
-/

namespace Rxrpl.Tx

open Codec (AccountId)
open Keylet PagedChain List

def InPageRange (owner : AccountId) (k : Hash256) : Prop := nftokenPageMin owner < k ∧
    k ≤ nftokenPageMax owner

/-- The chain of pages that an owner has in a view. -/
structure Holds (owner : AccountId) (read : Hash256 → Option Data) (chain : List TokenPage) :
    Prop where
  wf : Wf owner chain
  last : chain≠[] → lastKey (nftokenPageMin owner) chain=nftokenPageMax owner
  linked : Linked read chain
  only : ∀ k, InPageRange owner k → k∉chain.map Page.key → read k=none

section

variable {owner : AccountId} {read read' : Hash256 → Option Data} {chain chain' : List TokenPage}

theorem Holds.inRange (h : Holds owner read chain) {p : TokenPage} (hp : p∈chain) :
    InPageRange owner p.key := by
  refine ⟨h.wf.lt_key hp,?_⟩
  rw [← h.last (ne_nil_of_mem hp)]
  exact h.wf.key_le_lastKey hp

variable {k : Hash256}

theorem Holds.mem_keys_inRange (h : Holds owner read chain) (hk : k∈chain.map Page.key) :
    InPageRange owner k := by
  obtain ⟨p,hp,rfl⟩ := mem_map.mp hk
  exact h.inRange hp

theorem Holds.rewrite (h : Holds owner read chain) (hr : Rewrites read read' chain chain')
    (hwf : Wf owner chain')
    (hlast : chain'≠[] → lastKey (nftokenPageMin owner) chain'=nftokenPageMax owner) :
      Holds owner read' chain' := by
  refine ⟨hwf,hlast,hr.linked,fun k hk hk' => ?_⟩
  by_cases hmem : k∈chain.map Page.key
  · exact hr.gone k hmem hk'
  · rw [hr.same k hmem hk',h.only k hk hmem]

theorem Linked.present (h : Linked read chain) (hk : k∈chain.map Page.key) : Present read k := by
  obtain ⟨p,hp,rfl⟩ := mem_map.mp hk
  obtain ⟨front,back,rfl⟩ := append_of_mem hp
  rw [← reverse_reverse front] at h
  obtain ⟨-,⟨page,hpage,-⟩,-⟩ := linked_focus.mp h
  rw [Present,hpage]
  exact Option.some_ne_none _

theorem Holds.present_iff (h : Holds owner read chain) (hk : InPageRange owner k) :
    Present read k ↔ k∈chain.map Page.key := by
  constructor
  · intro hp
    by_contra hmem
    exact hp (h.only k hk hmem)
  · exact h.linked.present

end

noncomputable def pageCount (owner : AccountId) (read : Hash256 → Option Data) : ℕ :=
  Set.ncard {k | InPageRange owner k ∧ Present read k}

theorem Holds.pageCount_eq {owner : AccountId} {read : Hash256 → Option Data}
    {chain : List TokenPage} (h : Holds owner read chain) : pageCount owner read=chain.length := by
  have hset :
    {k | InPageRange owner k ∧ Present read k}=((chain.map Page.key).toFinset : Set Hash256) := by
    ext k
    rw [Set.mem_ofPred_eq,coe_toFinset,Set.mem_ofPred_eq]
    constructor
    · intro hk
      exact (h.present_iff hk.1).mp hk.2
    · intro hk
      have hrange := h.mem_keys_inRange hk
      exact ⟨hrange,(h.present_iff hrange).mpr hk⟩
  have hnodup : (chain.map Page.key).Nodup := pairwise_map.mpr (h.wf.pairwise.imp fun hlt => hlt.ne)
  rw [pageCount,hset,Set.ncard_coe_finset,toFinset_card_of_nodup hnodup,length_map]

section

variable {below : ReadView} {s : Sandbox below} {owner : AccountId}
  {chain front back : List TokenPage} {id : Hash256}

theorem findOwnerPage_run (hbelow : below.Ordered) (h : Holds owner s.read (front.reverse++back))
    (hfront : ∀ q∈front, q.key ≤ nftokenPage owner id)
      (hback : ∀ q∈back, nftokenPage owner id < q.key) :
    findOwnerPage owner id s=.ok (back.head?.map Page.key,s) := by
  have hnext := s.ordered_toReadView hbelow (nftokenPage owner id)
  have hmin := nftokenPageMin_le owner id
  -- what is above the token and not after the focus
  have habsent : ∀ k, nftokenPage owner id < k → k ≤ nftokenPageMax owner → k∉back.map Page.key →
      ¬ Present s.read k := by
    intro k hlt hle hk hp
    obtain hmem | hmem := mem_keys_focus.mp ((h.present_iff ⟨hmin.trans_lt hlt,hle⟩).mp hp)
    · obtain ⟨q,hq,rfl⟩ := mem_map.mp hmem
      exact absurd hlt (not_lt.mpr (hfront q hq))
    · exact hk hmem
  refine ViewM.bind_eq_ok.mpr ⟨_,s,rfl,?_⟩
  cases back with
  | nil =>
    cases hsucc : s.toReadView.succ (nftokenPage owner id) with
    | none => rfl
    | some k =>
      rw [hsucc] at hnext
      refine ViewM.pure_eq_ok.mpr ⟨if_neg fun hin => ?_,rfl⟩
      exact habsent k hnext.1 hin.1 (by simp) hnext.2.1
  | cons p back =>
    have hp := h.inRange (p := p) (by simp)
    have hpairwise := (h.wf.keys_focus).2
    have hsucc : s.toReadView.succ (nftokenPage owner id)=some p.key := by
      refine hnext.unique ⟨hback p (by simp),h.linked.present (by simp),fun k hlt hltp => ?_⟩
      refine habsent k hlt (hltp.le.trans hp.2) ?_
      simp only [map_cons,mem_cons,mem_map,not_or,not_exists,not_and]
      exact ⟨hltp.ne,fun q hq hkey => absurd (hpairwise q hq) (by rw [hkey]; exact lt_asymm hltp)⟩
    rw [hsucc]
    exact ViewM.pure_eq_ok.mpr ⟨if_pos ⟨hp.2,take_of_page_range hp.1.le hp.2⟩,rfl⟩

variable {p : TokenPage} {page : Json} {t : NFToken}

/-- A token can only lie on the page of the focus of its id. -/
theorem Wf.mem_focus (hwf : Wf owner (front.reverse++back))
    (hfront : ∀ q∈front, q.key ≤ nftokenPage owner id)
      (hback : ∀ q∈back, nftokenPage owner id < q.key)
    (ht : t∈allItems (front.reverse++back)) (hid : t.id=id) :
    ∃ p back', back=p::back' ∧ t∈p.items := by
  have hlow : t.low owner=nftokenPage owner id := by rw [NFToken.low,hid]
  obtain ⟨hwfFront,hwfBack⟩ := wellFormed_focus.mp hwf
  obtain ht | ht := mem_append.mp (allItems_focus.mem_iff.mp ht)
  · obtain ⟨q,hq,hlt⟩ := hwfFront.low_lt ht
    exact absurd (hlow ▸ hlt) (not_lt.mpr (hfront q hq))
  cases back with
  | nil => simp at ht
  | cons p back =>
    obtain ht | ht := mem_append.mp ht
    · exact ⟨p,back,rfl,ht⟩
    · have hle := hwfBack.2.le_low ht
      exact absurd (hlow ▸ hle) (not_le.mpr (hback p (by simp)))

/-- What `remove_token` says of the tokens and the number of pages. -/
def Removed (id : Hash256) (chain chain' : List TokenPage) : Option (Json × ℤ) → Prop
  | none => chain'=chain ∧ ∀ t∈allItems chain, t.id≠id
  | some (entry,delta) =>
    (∃ t : NFToken, t.id=id ∧ t.entry=entry ∧ (t::allItems chain').Perm (allItems chain)) ∧
      (chain'.length : ℤ)=chain.length+delta

theorem findIdx?_entries (items : List NFToken) (id : Hash256) :
    ((entries items).findIdx? fun t => nftokenEntryId t == upper (hashText id)) =
      items.findIdx? fun t => t.id == id := by
  rw [entries,findIdx?_map]
  congr 1
  funext t
  rw [Function.comp_apply,t.entryId_eq,upper_hashText,Bool.eq_iff_iff,beq_iff_eq,beq_iff_eq,
    hashText_injective.eq_iff]

theorem does_removeFound (h : Holds owner s.read (front.reverse++p::back))
    (hpage : s.read p.key=some (.json page)) (pos : ℕ) (removed : Json) :
    ∃ content delta, (if (entries (p.items.eraseIdx pos)).isEmpty then
          removeEmptied owner true p.key page (front.head?.map Page.key)
            (back.head?.map Page.key) >>= fun delta =>
          pure (some (removed,delta)) else
          writePage p.key (page.set "NFTokens" (.arr (entries (p.items.eraseIdx pos)))) >>= fun _ =>
          mergeWith (front.head?.map Page.key) (fun k => mergePages k p.key) >>= fun before =>
          mergeWith (back.head?.map Page.key) (mergePages p.key) >>= fun after =>
          pure (some (removed,-before-after))).Does s (some (removed,delta)) content ∧
      Rewrites s.read content (front.reverse++p::back)
        (removePage 16 front p.key (p.items.eraseIdx pos) back) ∧
      ((removePage 16 front p.key (p.items.eraseIdx pos) back).length :
        ℤ)=(front.reverse++p::back).length+delta := by
  obtain ⟨-,hp,-⟩ := wellFormed_focus.mp h.wf
  have hsub : (p.items.eraseIdx pos).Sublist p.items := eraseIdx_sublist ..
  cases hitems : p.items.eraseIdx pos with
  | nil =>
    obtain ⟨content,delta,hdoes,hrewrites,hlength⟩ :=
      does_removeEmptied h.wf (h.last (by simp)) h.linked hpage
    exact ⟨content,delta,.bind hdoes fun s₁ hs₁ => ViewM.does_pure hs₁ _,hrewrites,hlength⟩
  | cons x items =>
    rw [hitems] at hsub
    exact does_shrink h.wf h.linked hpage (hp.sublist hsub (by simp)) removed

theorem does_removeToken (hbelow : below.Ordered) (h : Holds owner s.read chain) (id : Hash256) :
    ∃ content r chain', (removeToken owner id true).Does s r content ∧
      Rewrites s.read content chain chain' ∧
      Holds owner content chain' ∧ Removed id chain chain' r := by
  obtain ⟨front,back,rfl,hfront,-,hback⟩ := exists_focus h.wf (nftokenPageMin_le owner id)
  have hfind := findOwnerPage_run hbelow h hfront hback
  have hfocus := fun t ht hid => h.wf.mem_focus hfront hback (t := t) ht hid
  cases back with
  | nil =>
    refine ⟨s.read,none,_,.bind_same hfind (ViewM.does_pure rfl none),.refl h.linked,h,rfl,
      fun t ht hid => ?_⟩
    obtain ⟨p,back,hnil,-⟩ := hfocus t ht hid
    cases hnil
  | cons p back =>
    obtain ⟨-,⟨page,hpage,htokens,hprev,hnext⟩,-⟩ := linked_focus.mp h.linked
    cases hpos : p.items.findIdx? fun t => t.id == id with
    | none =>
      refine ⟨s.read,none,_,.bind_same hfind (.bind_same (ViewM.readEntry_ok hpage _) ?_),
        .refl h.linked,h,rfl,
        fun t ht hid => ?_⟩
      · dsimp only
        rw [pageTokens_eq htokens,findIdx?_entries,hpos]
        exact ViewM.does_pure rfl none
      · obtain ⟨p',back',hcons,hmem⟩ := hfocus t ht hid
        cases hcons
        simpa [hid] using findIdx?_eq_none_iff.mp hpos t hmem
    | some pos =>
      obtain ⟨hlt,hid,-⟩ := findIdx?_eq_some_iff_getElem.mp hpos
      obtain ⟨content,delta,hdoes,hrewrites,hlength⟩ :=
        does_removeFound h hpage pos p.items[pos].entry
      have hperm : p.items.Perm (p.items[pos]::p.items.eraseIdx pos) :=
        (getElem_cons_eraseIdx_perm hlt).symm
      obtain ⟨hwf,hall,hlast⟩ := removePage_spec h.wf hperm (eraseIdx_sublist ..)
      refine ⟨content,some (p.items[pos].entry,delta),_,
        .bind_same hfind (.bind_same (ViewM.readEntry_ok hpage _) ?_),hrewrites,
        h.rewrite hrewrites hwf fun hne => (hlast hne).trans (h.last (by simp)),
        ⟨p.items[pos],by simpa using hid,rfl,hall⟩,hlength⟩
      have hremoved : (entries p.items).getD pos .null=p.items[pos].entry := by simp [entries,hlt]
      have hrest : (entries p.items).eraseIdx pos=entries (p.items.eraseIdx pos) := by
        simp [entries,eraseIdx_map]
      dsimp only
      rw [pageTokens_eq htokens,findIdx?_entries,hpos,pageLink_eq hprev,pageLink_eq hnext]
      dsimp only
      rw [hremoved,hrest]
      exact hdoes

theorem does_insertFirst (h : Holds owner s.read []) (hones : t.low owner≠nftokenPageMax owner) :
    ∃ content, (ViewM.insert (nftokenPageMax owner) (newTokenPage [t.entry] [])).Does s () content ∧
      Rewrites s.read content [] [⟨nftokenPageMax owner,[t]⟩] ∧
        Holds owner content [⟨nftokenPageMax owner,[t]⟩] := by
  have hmin := nftokenPageMin_le owner t.id
  have hlt : t.low owner < nftokenPageMax owner :=
    lt_of_le_of_ne (le_nftokenPageMax owner t.id) hones
  have hfree : s.read (nftokenPageMax owner)=none := h.only _ ⟨hmin.trans_lt hlt,le_rfl⟩ (by simp)
  have hrewrites : Rewrites s.read
    (Function.update s.read (nftokenPageMax owner) (some (.json (newTokenPage [t.entry] []))))
      [] [⟨nftokenPageMax owner,[t]⟩] := by
    refine ⟨⟨⟨_,Function.update_self ..,?_,?_,?_⟩,trivial⟩,fun k _ hk => ?_,by simp⟩
    · simp [newTokenPage,Json.get_object,Json.find,entries]
    · simp [newTokenPage,Json.get_object,Json.find]
    · simp [newTokenPage,Json.get_object,Json.find]
    · exact Function.update_of_ne (by simpa using hk) ..
  refine ⟨_,ViewM.does_insert rfl hfree _,hrewrites,
    h.rewrite hrewrites ⟨⟨?_,?_,?_,?_⟩,trivial⟩ fun _ => rfl⟩
  · simp
  · simp
  · simp
  · intro x hx
    rw [mem_singleton.mp hx]
    exact ⟨hmin,hlt⟩

theorem does_insertAt (h : Holds owner s.read (front.reverse++p::back))
    (hpage : s.read p.key=some (.json page)) (hne : ∀ x∈p.items, x.low owner≠t.low owner) :
    ∃ content created, (if maxPageEntries ≤ (entries p.items).length then
          splitPageAndInsert owner p.key page (entries p.items) t.entry else
          ViewM.update p.key
            (page.set "NFTokens" (.arr (placeEntry (entries p.items) t.entry (hashText t.id)))) >>=
            fun _ =>
          pure false).Does s created content ∧ Rewrites s.read content (front.reverse++p::back)
        (front.reverse++(insertPage (NFToken.low owner) 16 t p++back)) ∧
      (insertPage (NFToken.low owner) 16 t p).length=1+created.toNat := by
  obtain ⟨-,hp,-⟩ := wellFormed_focus.mp h.wf
  rw [insertPage,length_entries]
  by_cases hroom : p.items.length < 2*16
  · rw [if_neg (by rw [maxPageEntries]; omega),if_pos hroom,placeEntry_entries hne]
    refine ⟨_,false,.bind (ViewM.does_update rfl (by rw [hpage]; rfl) _) fun s₁ hs₁ =>
      ViewM.does_pure hs₁ false,?_,rfl⟩
    exact rewrites_setTokens h.wf h.linked hpage _
  · obtain ⟨m,upper,hdrop,hlower,hupper,hlowerLength,hupperLength⟩ :=
      hp.halves (by omega) (not_lt.mp hroom)
    have hm : m∈p.items := mem_of_mem_drop (hdrop ▸ mem_cons_self)
    -- the boundary lies between the page before and this one
    have hkey : m.low owner < p.key := (hp.bounds m hm).2
    have hbound : bound (nftokenPageMin owner) front < m.low owner := hlower.lt_key
    have hfrontKey : ∀ q∈front, q.key < m.low owner := by
      intro q hq
      cases front with
      | nil => simp at hq
      | cons r front =>
        obtain rfl | hq := mem_cons.mp hq
        · exact hbound
        · exact ((pairwise_cons.mp h.wf.front_pairwise).1 q hq).trans hbound
    have hfree : s.read (m.low owner)=none := by
      refine h.only _ ⟨?_,hkey.le.trans (h.inRange (by simp)).2⟩ ?_
      · cases front with
        | nil => exact hbound
        | cons r front => exact (h.wf.lt_key (by simp)).trans hbound
      · rw [mem_keys_focus,map_cons,mem_cons]
        rintro (hmem | heq | hmem)
        · exact not_mem_keys (fun q hq => (hfrontKey q hq).ne) hmem
        · exact hkey.ne heq
        · exact not_mem_keys (fun q hq => (hkey.trans (h.wf.keys_focus.2 q hq)).ne') hmem
    obtain ⟨content,hdoes,hrewrites⟩ :=
      does_split h.wf h.linked hpage hdrop hkey hfrontKey hfree hne
    rw [if_pos (by rw [maxPageEntries]; omega),if_neg hroom]
    refine ⟨content,true,hdoes,hrewrites,?_⟩
    rw [PagedChain.split,hdrop]
    dsimp only
    split <;> rfl

theorem does_insertToken (hbelow : below.Ordered) (h : Holds owner s.read chain)
    (hne : ∀ x∈allItems chain, x.low owner≠t.low owner) (hones : t.low owner≠nftokenPageMax owner) :
    ∃ content created chain', (insertToken owner t.id t.entry).Does s created content ∧
      Rewrites s.read content chain chain' ∧
      Holds owner content chain' ∧ (allItems chain').Perm (t::allItems chain) ∧
      chain'.length=chain.length+created.toNat := by
  obtain ⟨front,back,rfl,hfront,hbound,hback⟩ := exists_focus h.wf (nftokenPageMin_le owner t.id)
  have hfind := findOwnerPage_run hbelow h hfront hback
  have hmax : t.low owner < nftokenPageMax owner :=
    lt_of_le_of_ne (le_nftokenPageMax owner t.id) hones
  cases back with
  | nil =>
    cases front with
    | nil =>
      obtain ⟨content,hdoes,hrewrites,hholds⟩ := does_insertFirst h hones
      exact ⟨content,true,_,.bind_same hfind (.bind hdoes fun s₁ hs₁ => ViewM.does_pure hs₁ true),
        hrewrites,hholds,
        .refl _,rfl⟩
    | cons q front =>
      -- the last page has the highest key of all
      have hlast : q.key=nftokenPageMax owner := lastKey_focus.symm.trans (h.last (by simp))
      exact absurd (hfront q (by simp)) (not_le.mpr (hlast ▸ hmax))
  | cons p back =>
    obtain ⟨-,⟨page,hpage,htokens,-,-⟩,-⟩ := linked_focus.mp h.linked
    obtain ⟨hwfFront,hp,hwfBack⟩ := wellFormed_focus.mp h.wf
    have hnep : ∀ x∈p.items, x.low owner≠t.low owner := fun x hx =>
      hne x (allItems_focus.mem_iff.mpr (by simp [hx]))
    obtain ⟨content,created,hdoes,hrewrites,hlength⟩ := does_insertAt h hpage hnep
    obtain ⟨hwf,hperm,hlast⟩ :=
      insertPage_spec hp (by omega) hbound (hback p (by simp)) hnep hwfBack
    refine ⟨content,created,_,.bind_same hfind (.bind_same (ViewM.readEntry_ok hpage _) ?_),
      hrewrites,
      h.rewrite hrewrites (wellFormed_focus.mpr ⟨hwfFront,hwf⟩) fun _ => ?_,?_,?_⟩
    · rw [pageTokens_eq htokens,upper_hashText]
      exact hdoes
    · rw [lastKey_focus,hlast,← h.last (by simp),lastKey_focus]
      rfl
    · refine allItems_focus.trans (.trans ?_ (allItems_focus.symm.cons t))
      rw [allItems_append]
      exact ((hperm.append_right _).append_left _).trans perm_middle
    · simp only [length_append,length_cons,hlength]
      omega

end

/-! ## Runs -/

inductive TokenCall where
  | insert (t : NFToken)
  | remove (id : Hash256)

namespace TokenCall

variable {below : ReadView} (owner : AccountId)

/-- A call with the change of the number of pages that it returns. -/
def run : TokenCall → ViewM below ℤ
  | .insert t => insertToken owner t.id t.entry >>= fun created => pure (if created then 1 else 0)
  | .remove id => removeToken owner id true >>= fun removed => pure ((removed.map Prod.snd).getD 0)

def after (held : List NFToken) : TokenCall → List NFToken
  | .insert t => t::held
  | .remove id => held.filter fun t => t.id≠id

/-- A token comes in with low bits of its own, which are not all ones. -/
def Allowed (held : List NFToken) : TokenCall → Prop
  | .insert t => (∀ x∈held, x.id.asBytes.drop 20≠t.id.asBytes.drop 20) ∧
    t.id.asBytes.drop 20≠List.replicate 12 0xff
  | .remove _ => True

def runAll : List TokenCall → ViewM below Unit
  | [] => pure ()
  | call::calls => run owner call >>= fun _ => runAll calls

def afterAll (held : List NFToken) (calls : List TokenCall) : List NFToken := calls.foldl after held

/-- Every call of a sequence is allowed when its turn comes. -/
def AllAllowed : List NFToken → List TokenCall → Prop
  | _, [] => True
  | held, call::calls => Allowed held call ∧ AllAllowed (after held call) calls

end TokenCall

section

variable {below : ReadView} {s : Sandbox below} {owner : AccountId} {chain : List TokenPage}
  {held : List NFToken}

theorem does_call (hbelow : below.Ordered) (h : Holds owner s.read chain)
    (hheld : (allItems chain).Perm held) {call : TokenCall} (hallowed : call.Allowed held) :
    ∃ content delta chain', (call.run owner).Does s delta content ∧ Holds owner content chain' ∧
      (allItems chain').Perm (call.after held) ∧ (chain'.length : ℤ)=chain.length+delta := by
  cases call with
  | insert t =>
    have hne : ∀ x∈allItems chain, x.low owner≠t.low owner := fun x hx heq =>
      hallowed.1 x (hheld.mem_iff.mp hx) (nftokenPage_eq_iff.mp heq)
    have hones : t.low owner≠nftokenPageMax owner := fun heq =>
      hallowed.2 (append_cancel_left (congrArg Hash256.asBytes heq))
    obtain ⟨content,created,chain',hdoes,-,hholds,hperm,hlength⟩ :=
      does_insertToken hbelow h hne hones
    refine ⟨content,_,chain',.bind hdoes fun s₁ hs₁ => ViewM.does_pure hs₁ _,hholds,
      hperm.trans (hheld.cons t),?_⟩
    rw [hlength]
    cases created <;> simp
  | remove id =>
    obtain ⟨content,r,chain',hdoes,-,hholds,hremoved⟩ := does_removeToken hbelow h id
    refine ⟨content,_,chain',.bind hdoes fun s₁ hs₁ => ViewM.does_pure hs₁ _,hholds,?_,?_⟩
    · refine .trans ?_ (hheld.filter _)
      cases r with
      | none =>
        obtain ⟨rfl,hnone⟩ := hremoved
        rw [filter_eq_self.mpr fun t ht => by simpa using hnone t ht]
      | some r =>
        obtain ⟨⟨t,hid,-,hperm⟩,-⟩ := hremoved
        have hdistinct :=
          (hperm.symm.pairwise (h.wf.allItems_pairwise.imp fun hlt => hlt.ne) fun hne => hne.symm)
        refine .trans ?_ (hperm.filter _)
        rw [filter_cons_of_neg (by simpa using hid),filter_eq_self.mpr]
        intro x hx
        have hne := (pairwise_cons.mp hdistinct).1 x hx
        rw [decide_eq_true_iff]
        rintro hxid
        exact hne (by rw [NFToken.low,NFToken.low,hid,hxid])
    · cases r with
      | none =>
        obtain ⟨rfl,-⟩ := hremoved
        simp
      | some r => exact hremoved.2

theorem does_runAll (hbelow : below.Ordered) (h : Holds owner s.read chain)
    (hheld : (allItems chain).Perm held) {calls : List TokenCall}
    (hallowed : TokenCall.AllAllowed held calls) :
    ∃ content chain', (TokenCall.runAll owner calls).Does s () content ∧
      Holds owner content chain' ∧
      (allItems chain').Perm (TokenCall.afterAll held calls) := by
  induction calls generalizing s chain held with
  | nil => exact ⟨s.read,chain,ViewM.does_pure rfl (),h,hheld⟩
  | cons call calls ih =>
    obtain ⟨content₁,delta,chain₁,⟨s₁,hrun₁,hbecame₁⟩,hholds₁,hheld₁,-⟩ :=
      does_call hbelow h hheld hallowed.1
    obtain ⟨content,chain',hdoes,hholds,hheld'⟩ :=
      ih (hbecame₁.read.symm ▸ hholds₁) hheld₁ hallowed.2
    exact ⟨content,chain',.bind_run hrun₁ hbecame₁ hdoes,hholds,hheld'⟩

theorem Wf.compare_pairwise (h : Wf owner chain) {p : TokenPage} (hp : p∈chain) :
    p.items.Pairwise fun a b =>
      compareTokenIds (nftokenEntryId a.entry) (nftokenEntryId b.entry)=.lt := by
  obtain ⟨lo,-,hok⟩ := h.pageOk hp
  refine hok.sorted.imp fun {a b} hlt => ?_
  rw [a.entryId_eq,b.entryId_eq,compareTokenIds_hashText hlt.ne]
  exact if_pos hlt

/-- From a view in which the owner has no pages, every sequence of `insert_token` and `remove_token`
runs to its end and leaves a chain of pages with the tokens put in and not taken out. The pages are
linked both ways, their keys ascend up to the last page of the owner, each has from one to 32 tokens
in the order of `compare_token_ids`, and a token's low bits are below the key of its page and not
below that of the page before. Each further call changes the number of pages by what it returns. -/
theorem token_calls_keep_chain (hbelow : below.Ordered)
    (hnone : ∀ k, InPageRange owner k → s.read k=none) {calls : List TokenCall}
    (hallowed : TokenCall.AllAllowed [] calls) :
    ∃ s' chain, TokenCall.runAll owner calls s=.ok ((),s') ∧ Holds owner s'.read chain ∧
      (∀ p∈chain, p.items.Pairwise fun a b =>
        compareTokenIds (nftokenEntryId a.entry) (nftokenEntryId b.entry)=.lt) ∧
      (allItems chain).Perm (TokenCall.afterAll [] calls) ∧
      ∀ call : TokenCall, call.Allowed (TokenCall.afterAll [] calls) →
        ∃ delta s'', call.run owner s'=.ok (delta,s'') ∧
          (pageCount owner s''.read : ℤ)=pageCount owner s'.read+delta := by
  have hnil : Holds owner s.read [] :=
    ⟨trivial,fun hne => absurd rfl hne,trivial,fun k hk _ => hnone k hk⟩
  obtain ⟨content,chain,⟨s',hrun,hbecame⟩,hholds,hheld⟩ :=
    does_runAll hbelow hnil (.refl _) hallowed
  rw [← hbecame.read] at hholds
  refine ⟨s',chain,hrun,hholds,fun p hp => hholds.wf.compare_pairwise hp,hheld,fun call hcall => ?_⟩
  obtain ⟨content',delta,chain',⟨s'',hrun',hbecame'⟩,hholds',-,hlength⟩ :=
    does_call hbelow hholds hheld hcall
  refine ⟨delta,s'',hrun',?_⟩
  rw [hbecame'.read,hholds'.pageCount_eq,hholds.pageCount_eq,hlength]

end

def bareToken (id : Hash256) : NFToken where
  id := id
  entry := .object [("NFToken",.object [("NFTokenID",.str (hashText id))])]
  entry_id := by simp [entryNFTokenId,Json.get_object,Json.find,Json.asStr]

def sampleHolder : AccountId := ⟨List.replicate 20 7,rfl⟩

def sampleCalls : List TokenCall :=
    [.insert (bareToken (.ofNat 1)),.insert (bareToken (.ofNat 2)),.remove (.ofNat 1)]

theorem sampleCalls_allowed : TokenCall.AllAllowed [] sampleCalls := by
  have hones : ∀ n∈[1,2], (Hash256.ofNat n).asBytes.drop 20≠replicate 12 0xff := by decide
  have hne : (Hash256.ofNat 1).asBytes.drop 20≠(Hash256.ofNat 2).asBytes.drop 20 := by decide
  refine ⟨⟨by simp,hones 1 (by simp)⟩,⟨?_,hones 2 (by simp)⟩,trivial,trivial⟩
  intro x hx
  rw [mem_singleton.mp hx]
  exact hne

theorem afterAll_sampleCalls : TokenCall.afterAll [] sampleCalls=[bareToken (.ofNat 2)] := by
  have h1 : (Hash256.ofNat 1≠.ofNat 1)=False := by simp
  have h2 : (Hash256.ofNat 2≠.ofNat 1)=True := eq_true (by decide)
  simp only [TokenCall.afterAll,sampleCalls,foldl_cons,foldl_nil,TokenCall.after,bareToken,
    filter_cons,h1,h2,decide_true,decide_false,filter_nil]
  rfl

theorem ordered_emptyView : emptyView.Ordered := fun _ _ _ hp => hp rfl

theorem sampleCalls_keep_chain :
    ∃ (s' : Sandbox emptyView) (chain : List TokenPage),
      TokenCall.runAll sampleHolder sampleCalls (.new emptyView)=.ok ((),s') ∧
      Holds sampleHolder s'.read chain ∧
      (allItems chain).Perm [bareToken (.ofNat 2)] := by
  obtain ⟨s',chain,hrun,hholds,-,hheld,-⟩ :=
    token_calls_keep_chain (s := .new emptyView) ordered_emptyView
      (fun _ _ => rfl) sampleCalls_allowed
  rw [afterAll_sampleCalls] at hheld
  exact ⟨s',chain,hrun,hholds,hheld⟩

end Rxrpl.Tx
