import Rxrpl.DirectoryChain
import Rxrpl.EntryInvariants
import Rxrpl.TxFates

/-!
# All or claim

A transaction that is not claimed leaves the ledger as it is. A claimed failure is recorded, pays
its fee and spends its sequence or ticket, and changes nothing else. The engine keeps to this except
where a claimed code is returned before the commit, a `tec` of preflight or the rejection by a hook,
where a counter cannot be moved by one, and where a ticket names another page of its owner's
directory than the one that lists it.
-/

namespace Rxrpl.Tx

open Codec (AccountId)
open Function

/-! ## The property -/

/-- The number in `TicketCount`, which is absent when there are no tickets. -/
def ticketCount (account : Json) : ℕ := (u64Field account "TicketCount").getD 0

/-- An entry is taken out of the list of an owner's directory. -/
def Unlinked (crypto : Crypto) (id : AccountId) (entry : Hash256)
    (read read' : Hash256 → Option Data) : Prop :=
  hashText entry∉collectOwnerDirEntries crypto read' id ∧
    (collectOwnerDirEntries crypto read' id).Perm
      ((collectOwnerDirEntries crypto read id).erase (hashText entry))

/-- A page after an entry was taken out of a directory: it is gone if it listed nothing else, and
otherwise it lists the other entries, and only its links and stamps differ. -/
def PageWithout (entry : Hash256) (d : Option Data) : Option Data → Prop
  | none => d=none ∨ ∃ v, d=some (.json v) ∧ ∀ x∈dirPage v, x=hashText entry
  | some d' => ∃ v v', d=some (.json v) ∧ d'=.json v' ∧
    FieldsAgree (linkFields++stampFields) v v' ∧
      (dirPage v').Perm ((dirPage v).erase (hashText entry))

/-- The sender's sequence is spent and nothing but the account root is touched. -/
structure SequenceSpent (crypto : Crypto) (id : AccountId) (account account' : Json)
    (l l' : Ledger) : Prop where
  sequence : getSequence account'=getSequence account+1
  fields : FieldsAgree ("Balance"::"Sequence"::stampFields) account account'
  others : ∀ k≠Keylet.account crypto id, l'.read k=l.read k

/-- The sender's ticket is spent: erased, unlinked and no longer counted. -/
structure TicketSpent (crypto : Crypto) (id : AccountId) (n : ℕ) (account account' : Json)
    (l l' : Ledger) : Prop where
  erased : l'.read (Keylet.ticket crypto id n)=none
  unlinked : Unlinked crypto id (Keylet.ticket crypto id n) l.read l'.read
  ownerCount : getOwnerCount account'+1=getOwnerCount account
  ticketCount : ticketCount account'+1=ticketCount account
  fields : FieldsAgree ("Balance"::"OwnerCount"::"TicketCount"::stampFields) account account'
  pages : ∀ p < 2^64, PageWithout (Keylet.ticket crypto id n)
    (l.read (Keylet.dirNode crypto (Keylet.ownerDir crypto id) p))
    (l'.read (Keylet.dirNode crypto (Keylet.ownerDir crypto id) p))
  others : ∀ k≠Keylet.account crypto id, k≠Keylet.ticket crypto id n →
    k∉pageKeys crypto (Keylet.ownerDir crypto id) → l'.read k=l.read k

/-- A transaction that is recorded, pays its fee and spends its sequence or ticket, and does nothing
else. -/
structure FeeClaimed (crypto : Crypto) (tx : Json) (l l' : Ledger) (id : AccountId)
    (account account' : Json) : Prop where
  sender : senderId crypto tx=some id
  before : l.read (Keylet.account crypto id)=some (.json account)
  after : l'.read (Keylet.account crypto id)=some (.json account')
  recorded : ∃ hash leaf, computeTxHash crypto tx=.ok hash ∧ l'.txMap=l.txMap.insert hash leaf
  balance : getBalance account'+getFee tx=getBalance account
  destroyed : l'.destroyedDrops=l.destroyedDrops+getFee tx
  proxy : match getU32Field tx "TicketSequence" with
    | none => SequenceSpent crypto id account account' l l'
    | some n => TicketSpent crypto id n account account' l l'

structure AllOrClaim (env : Env) (engine : TxEngine) (tx : Json) (l : Ledger) (rules : Rules)
    (fees : FeeSettings) : Prop where
  all : ∀ r l', apply env engine tx l rules fees=(r,l') → (∀ t, r=.ok t → t.isClaimed=false) → l'=l
  claim : ∀ t l', apply env engine tx l rules fees=(.ok t,l') → t.isTec=true →
    ∃ id account account', FeeClaimed env.crypto tx l l' id account account'
  retry : ∀ t l', applyRetriable env engine tx l rules fees=(.ok t,l') → t.isRetryableTec=true →
    l'=l

/-! ## The condition -/

/-- The owner's directory is one that insertions and removals build. -/
def OwnerDirSound (crypto : Crypto) (id : AccountId) (read : Hash256 → Option Data) : Prop :=
  ∃ D hints, Shows crypto (Keylet.ownerDir crypto id) read D ∧ D.Sound hints False

/-- A page of the owner's directory lists an entry. -/
def ListedOn (crypto : Crypto) (id : AccountId) (read : Hash256 → Option Data) (entry : Hash256)
    (p : ℕ) : Prop :=
  p < 2^64 ∧ ∃ node, read (Keylet.dirNode crypto (Keylet.ownerDir crypto id) p)=some (.json node) ∧
    hashText entry∈dirPage node

/-- The page that a ticket names, if it names one, is the one that lists it. -/
def NamesItsPage (crypto : Crypto) (id : AccountId) (read : Hash256 → Option Data) (key : Hash256) :
    Prop :=
  ∀ ticket p, read key=some ticket → ListedOn crypto id read key p →
    ∀ q, ticketPage ticket=some q → q=p

/-- The counters of the sender can be moved by one, and the ticket names its page. -/
structure CountersFit (crypto : Crypto) (tx : Json) (l : Ledger) (id : AccountId) (account : Json) :
    Prop where
  destroyed : getFee tx=0 ∨ l.destroyedDrops+getFee tx < 2^64
  proxy : match getU32Field tx "TicketSequence" with
    | none => getSequence account+1 < 2^32
    | some n => 0 < getOwnerCount account ∧ getOwnerCount account ≤ 2^31 ∧ 0 < ticketCount account ∧
      NamesItsPage crypto id l.read (Keylet.ticket crypto id n)

/-- The handler succeeds and a hook of the destination then rolls the transaction back. -/
def HookRejects (env : Env) (engine : TxEngine) (t : Transactor) (txType : TransactionType)
    (tx : Json) (l : Ledger) (rules : Rules) (fees : FeeSettings) : Prop :=
  gates env engine t txType tx (l.view fees) rules fees false=.ok none ∧
    ∃ s child, Charged env tx (l.view fees) rules s ∧
      handler env engine t txType tx rules fees s.child=.ok (.tesSuccess,child) ∧
      hooksRollBack env tx child.read=true

/-- No claimed code is returned before the commit, and a claimed failure finds counters that fit. -/
structure Claimable (env : Env) (engine : TxEngine) (tx : Json) (l : Ledger) (rules : Rules)
    (fees : FeeSettings) : Prop where
  preflight : ∀ txType t, transactorOf engine tx=some (txType,t) →
    ∀ r, t.preflight tx rules fees=.error r → r.isTec=false
  hooks : ∀ txType t, transactorOf engine tx=some (txType,t) →
    ¬ HookRejects env engine t txType tx l rules fees
  counters : ∀ t l', apply env engine tx l rules fees=(.ok t,l') → t.isTec=true → ∀ id account,
    senderId env.crypto tx=some id → l.read (Keylet.account env.crypto id)=some (.json account) →
    CountersFit env.crypto tx l id account

/-! ## Directories and stamps -/

section

variable {crypto : Crypto} {read read' : Hash256 → Option Data} {root : Hash256}

/-- Two states whose directory pages differ in the stamps at most. -/
def PagesAgree (crypto : Crypto) (root : Hash256) (read read' : Hash256 → Option Data) : Prop :=
  ∀ p < 2^64,
    (read (Keylet.dirNode crypto root p)=none ∧ read' (Keylet.dirNode crypto root p)=none) ∨
    ∃ d d', read (Keylet.dirNode crypto root p)=some d ∧
      read' (Keylet.dirNode crypto root p)=some d' ∧
      d.AgreeOff stampFields d'

theorem dirPage_of_fieldsAgree {v v' : Json} (h : FieldsAgree stampFields v v') :
    dirPage v'=dirPage v := by
  simp only [dirPage,h "Indexes" (by decide)]

theorem readU64Field_of_fieldsAgree {v v' : Json} (h : FieldsAgree stampFields v v') :
    readU64Field v' "IndexNext"=readU64Field v "IndexNext" := by
  simp only [readU64Field,strField,h "IndexNext" (by decide)]

theorem collectEntries_of_pagesAgree (h : PagesAgree crypto root read read') {fuel page : ℕ}
    (hp : page < 2^64) :
    collectEntries crypto read' root fuel page=collectEntries crypto read root fuel page := by
  induction fuel generalizing page with
  | zero => rfl
  | succ fuel ih =>
    rw [collectEntries,collectEntries]
    obtain ⟨hn,hn'⟩ | ⟨d,d',hd,hd',rfl | ⟨v,v',rfl,rfl,ha⟩⟩ := h page hp
    · rw [hn,hn']
    · rw [hd,hd']
      cases d' with
      | raw bs => rfl
      | json v => simp only [ih (readU64Field_lt v "IndexNext")]
    · rw [hd,hd']
      dsimp only
      rw [dirPage_of_fieldsAgree ha,readU64Field_of_fieldsAgree ha,
        ih (readU64Field_lt v "IndexNext")]

theorem Unlinked.congr {id : AccountId} {entry : Hash256} {read₁ : Hash256 → Option Data}
    (h : PagesAgree crypto (Keylet.ownerDir crypto id) read' read₁) :
    Unlinked crypto id entry read read₁ ↔ Unlinked crypto id entry read read' := by
  simp only [Unlinked,collectOwnerDirEntries,collectEntries_of_pagesAgree h (by simp : 0 < 2^64)]

end

theorem PageWithout.congr {entry : Hash256} {d d' d'' : Option Data} (h : PageWithout entry d d')
    (hstamp : (d'=none ∧ d''=none) ∨ ∃ e e', d'=some e ∧ d''=some e' ∧ e.AgreeOff stampFields e') :
    PageWithout entry d d'' := by
  obtain ⟨rfl,rfl⟩ | ⟨e,e',rfl,rfl,rfl | ⟨w,w',rfl,rfl,hw⟩⟩ := hstamp
  · exact h
  · exact h
  · obtain ⟨v,v',hd,he,hfields,hperm⟩ := h
    cases he
    refine ⟨v,w',hd,rfl,hfields.trans (hw.mono (by simp)),?_⟩
    rwa [dirPage_of_fieldsAgree hw]

/-! ## The directory without the ticket -/

section

variable {crypto : Crypto} {below : ReadView} {s s' : Sandbox below} {id : AccountId}
  {D D' : Directory} {hints hints' : List (Hash256 × ℕ)} {e : Hash256} {p : ℕ} {ticket : Data}
  {read : Hash256 → Option Data}

open Keylet

theorem listedOn_iff (h : Shows crypto (ownerDir crypto id) read D) (hsound : D.Sound hints False) :
    ListedOn crypto id read e p ↔ (e,p)∈hints := by
  constructor
  · rintro ⟨hp,node,hread,hlisted⟩
    obtain ⟨page,hpage,hnode⟩ := h.exists_page hp hread
    rwa [hnode.entries,List.mem_map_of_injective hashText_injective,(hsound.entries hpage).mem_iff,
      Directory.mem_onPage] at hlisted
  · intro hmem
    obtain ⟨page,hpage,he⟩ := hsound.exists_page hmem
    obtain ⟨hp,node,hread,hnode⟩ := h.exists_node hpage
    exact ⟨hp,node,hread,hnode.entries ▸ List.mem_map_of_mem he⟩

/-- What is listed after the removal of a ticket: it stays only where the page that it names is
another one. -/
theorem unlinkTicket_sound (hsep : crypto.Separated)
    (h : Shows crypto (ownerDir crypto id) s.read D) (hsound : D.Sound hints False)
    (hrun : unlinkTicket crypto id e ticket s=.ok ((),s')) :
    ∃ D' hints', Shows crypto (ownerDir crypto id) s'.read D' ∧ D'.Sound hints' False ∧
      ((∀ p, (e,p)∈hints → ∀ q∈ticketPage ticket, q=p) → hints'=hints.filter (·.1≠e)) ∧
      ((∃ p, (e,p)∈hints ∧ ∃ q∈ticketPage ticket, q≠p) → hints'=hints) := by
  have hkeys := hsep.dirNode_injOn id
  cases hq : ticketPage ticket with
  | some q =>
    rw [unlinkTicket,hq] at hrun
    obtain ⟨-,D',hD',hsound'⟩ :=
      (leads_dirRemovePageImpl hkeys h hsound (ticketPage_lt hq) False.elim).of_ok hrun
    refine ⟨D',_,hD',hsound',fun hall => ?_,?_⟩
    · refine List.filter_congr fun hint hmem =>
        decide_eq_decide.mpr (not_congr ⟨fun heq => by rw [heq],fun heq => ?_⟩)
      obtain ⟨e',p⟩ := hint
      cases heq
      rw [hall p hmem q rfl]
    · rintro ⟨p,hmem,q',hq',hne⟩
      cases hq'
      refine List.filter_eq_self.mpr fun hint hhint => decide_eq_true ?_
      rintro rfl
      exact hne (congrArg Prod.snd (List.inj_on_of_nodup_map hsound.lists.nodup hhint hmem rfl))
  | none =>
    rw [unlinkTicket,hq] at hrun
    obtain ⟨-,D',hD',hsound'⟩ := (leads_dirRemove hkeys h hsound False.elim).of_ok hrun
    refine ⟨D',_,hD',hsound',fun _ => rfl,?_⟩
    rintro ⟨p,-,q,hq,-⟩
    cases hq

theorem map_hashText_without (hnodup : (hints.map (·.1)).Nodup) :
    (hints.filter (·.1≠e)).map (fun hint => hashText hint.1) =
      (hints.map fun hint => hashText hint.1).erase (hashText e) := by
  have hmap : ∀ l : List (Hash256 × ℕ),
    (l.map fun hint => hashText hint.1)=(l.map (·.1)).map hashText := by
    intro l
    rw [List.map_map]
    rfl
  rw [hmap,hmap,← List.map_erase hashText_injective,hnodup.erase_eq_filter,List.filter_map]
  congr 2
  refine List.filter_congr fun hint _ => ?_
  by_cases he : hint.1=e <;> simp [he]

/-- A ticket is taken out of the list exactly when the page that it names, if any, is the one that
lists it. -/
theorem unlinked_iff (hsep : crypto.Separated) (hdir : OwnerDirSound crypto id s.read)
    (hrun : unlinkTicket crypto id e ticket s=.ok ((),s')) :
    Unlinked crypto id e s.read s'.read ↔ ∀ p, ListedOn crypto id s.read e p →
      ∀ q∈ticketPage ticket, q=p := by
  obtain ⟨D,hints,h,hsound⟩ := hdir
  obtain ⟨D',hints',h',hsound',hgone,hstays⟩ := unlinkTicket_sound hsep h hsound hrun
  simp only [listedOn_iff h hsound]
  have hbefore := collectEntries_perm h hsound
  have hafter := collectEntries_perm h' hsound'
  constructor
  · intro hunlinked p hmem q hq
    by_contra hne
    rw [hstays ⟨p,hmem,q,hq,hne⟩] at hafter
    exact hunlinked.1 (hafter.mem_iff.mpr (List.mem_map_of_mem hmem))
  · intro hnamed
    rw [hgone hnamed,map_hashText_without hsound.lists.nodup] at hafter
    have hnodup := hsound.lists.nodup.map hashText_injective
    rw [List.map_map] at hnodup
    exact ⟨fun hmem => hnodup.not_mem_erase (hafter.mem_iff.mp hmem),
      hafter.trans (hbefore.symm.erase _)⟩

theorem unlinkTicket_pages (hsep : crypto.Separated) (hdir : OwnerDirSound crypto id s.read)
    (hrun : unlinkTicket crypto id e ticket s=.ok ((),s'))
    (hnamed : ∀ p, ListedOn crypto id s.read e p → ∀ q∈ticketPage ticket, q=p) (hp : p < 2^64) :
    PageWithout e (s.read (dirNode crypto (ownerDir crypto id) p))
      (s'.read (dirNode crypto (ownerDir crypto id) p)) := by
  obtain ⟨D,hints,h,hsound⟩ := hdir
  obtain ⟨D',hints',h',hsound',hgone,-⟩ := unlinkTicket_sound hsep h hsound hrun
  simp only [listedOn_iff h hsound] at hnamed
  rw [hgone hnamed] at hsound'
  have hwithout : Directory.onPage (hints.filter (·.1≠e)) p=(Directory.onPage hints p).erase e := by
    rw [← Directory.onPage_without hsound.lists.nodup,Directory.onPage,Directory.onPage,
      List.filter_filter,List.filter_filter]
    congr 1
    refine List.filter_congr fun hint _ => ?_
    by_cases hhint : hint.2=p <;> simp [hhint,Prod.ext_iff]
  cases hD' : D' p with
  | none =>
    rw [h'.read_eq_none hp hD']
    cases hD : D p with
    | none => exact .inl (h.read_eq_none hp hD)
    | some page =>
      obtain ⟨-,node,hread,hnode⟩ := h.exists_node hD
      refine .inr ⟨node,hread,fun x hx => ?_⟩
      rw [hnode.entries] at hx
      obtain ⟨e',he',rfl⟩ := List.mem_map.mp hx
      have hnil := hsound'.onPage_eq_nil hD'
      by_contra hne
      have hmem : e'∈(Directory.onPage hints p).erase e :=
        (List.mem_erase_of_ne fun heq => hne (by rw [heq])).mpr ((hsound.entries hD).mem_iff.mp he')
      rw [← hwithout,hnil] at hmem
      cases hmem
  | some page' =>
    obtain ⟨-,node',hread',hnode'⟩ := h'.exists_node hD'
    -- every page that is there was there before, with the same other fields
    let P : Hash256 → Json → Prop := fun k v' => ∃ v, s.read k=some (.json v) ∧
      FieldsAgree linkFields v v'
    have hP : RewriteClosed crypto (ownerDir crypto id) P := by
      refine ⟨?_⟩
      rintro q hq v v' hv ⟨w,hw,hfields⟩
      exact ⟨w,hw,hfields.trans hv⟩
    have hall : AllEntries P s'.read :=
      (maintains_unlinkTicket hP _ _ hrun fun k v hv => ⟨v,hv,fun _ _ => rfl⟩).1
    obtain ⟨node,hread,hfields⟩ := hall _ _ hread'
    obtain ⟨page,hD,hnode⟩ := h.exists_page hp hread
    rw [hread']
    refine ⟨node,node',hread,rfl,hfields.mono (by simp),?_⟩
    rw [hnode'.entries,hnode.entries,← List.map_erase hashText_injective]
    refine ((hsound'.entries hD').trans ?_).map hashText
    rw [hwithout]
    exact (hsound.entries hD).symm.erase e

end

/-! ## Counters -/

section

variable {tx account v v' : Json}

theorem getBalance_congr (h : v'.get "Balance"=v.get "Balance") : getBalance v'=getBalance v := by
  simp only [getBalance,getU64StrField,strField,h]

theorem getSequence_congr (h : v'.get "Sequence"=v.get "Sequence") :
    getSequence v'=getSequence v := by
  simp only [getSequence,getU32Field,u64Field,h]

theorem getOwnerCount_congr (h : v'.get "OwnerCount"=v.get "OwnerCount") :
    getOwnerCount v'=getOwnerCount v := by
  simp only [getOwnerCount,getU32Field,u64Field,h]

theorem ticketCount_congr (h : v'.get "TicketCount"=v.get "TicketCount") :
    ticketCount v'=ticketCount v := by
  simp only [ticketCount,u64Field,h]

theorem feeCharged_fields (tx account : Json) :
    FieldsAgree ["Balance"] account (feeCharged tx account) := by
  unfold feeCharged
  split
  · exact fieldsAgree_set (by simp) _ _
  · exact fun _ _ => rfl

theorem getBalance_feeCharged (h : getFee tx ≤ getBalance account) :
    getBalance (feeCharged tx account)+getFee tx=getBalance account := by
  unfold feeCharged
  split
  · rw [getBalance_setBalance _ (lt_of_le_of_lt (Nat.sub_le _ _) (getBalance_lt account))]
    omega
  · omega

variable (account : Json)

theorem getSequence_incrementSequence :
    getSequence (incrementSequence account)=(getSequence account+1) % 2^32 := by
  have hlt : (getSequence account+1) % 2^32 < 2^64 := lt_trans (Nat.mod_lt _ (by simp)) (by simp)
  simp only [getSequence,incrementSequence,getU32Field,u64Field_set,if_true] at hlt ⊢
  rw [asU64_natCast hlt]
  simp

theorem incrementSequence_fields :
    FieldsAgree ["Sequence"] account (incrementSequence account) :=
  fieldsAgree_set (by simp) _ _

theorem getOwnerCount_lt : getOwnerCount account < 2^32 := by
  unfold getOwnerCount getU32Field
  cases u64Field account "OwnerCount" with
  | none => simp
  | some n => simpa using Nat.mod_lt n (by simp : 0 < 2^32)

theorem getOwnerCount_adjustOwnerCount (delta : ℤ) :
    (getOwnerCount (adjustOwnerCount account delta) : ℤ) =
      max (Int.bmod (Int.bmod (getOwnerCount account) (2^32)+delta) (2^32)) 0 := by
  generalize hz : max (Int.bmod (Int.bmod (getOwnerCount account) (2^32)+delta) (2^32)) 0=z
  have hlt : z < 2^31 := by
    have := Int.bmod_lt (x := Int.bmod (getOwnerCount account) (2^32)+delta) (m := 2^32) (by simp)
    omega
  have hnonneg : 0 ≤ z := by omega
  obtain ⟨n,rfl⟩ := Int.eq_ofNat_of_zero_le hnonneg
  have hn : n < 2^31 := by exact_mod_cast hlt
  rw [adjustOwnerCount,hz]
  have hu : u64Field (account.set "OwnerCount" (.int n)) "OwnerCount"=some n := by
    rw [u64Field_set,if_pos rfl,asU64_natCast (lt_trans hn (by simp))]
  simp only [getOwnerCount,getU32Field,hu,Option.map_some,Option.getD_some]
  rw [Nat.mod_eq_of_lt (lt_trans hn (by simp))]

theorem getOwnerCount_decrement_iff :
    getOwnerCount (adjustOwnerCount account (-1))+1=getOwnerCount account ↔
      0 < getOwnerCount account ∧ getOwnerCount account ≤ 2^31 := by
  have h := getOwnerCount_adjustOwnerCount account (-1)
  have hlt := getOwnerCount_lt account
  simp only [Int.bmod_def] at h
  omega

theorem ticketCount_decrementTicketCount :
    ticketCount (decrementTicketCount account)=ticketCount account-1 := by
  unfold decrementTicketCount ticketCount
  cases hc : u64Field account "TicketCount" with
  | none => simp [hc]
  | some count =>
    have hlt := u64Field_lt hc
    dsimp only
    split
    · simp only [u64Field_remove,if_true,Option.getD_none,Option.getD_some]
      omega
    · rw [u64Field_set,if_pos rfl,asU64_natCast (by omega)]
      simp

theorem decrementTicketCount_fields :
    FieldsAgree ["TicketCount"] account (decrementTicketCount account) := by
  unfold decrementTicketCount
  split
  · exact fun _ _ => rfl
  split
  · intro f hf
    rw [Json.get_remove,if_neg (by simpa using hf)]
  · exact fieldsAgree_set (by simp) _ _

theorem adjustOwnerCount_fields (delta : ℤ) :
    FieldsAgree ["OwnerCount"] account (adjustOwnerCount account delta) :=
      fieldsAgree_set (by simp) _ _

end

/-! ## The charge, committed -/

section

variable {env : Env} {txType : TransactionType} {tx : Json} {l l' : Ledger} {rules : Rules}
  {fees : FeeSettings} {o : Outcome (l.view fees)}

variable {k : Hash256} {v : Json}

theorem agreeOff_json {except : List String} {d : Data} (h : (Data.json v).AgreeOff except d) :
    ∃ v', d=.json v' ∧ FieldsAgree except v v' := by
  obtain rfl | ⟨w,v',hw,rfl,ha⟩ := h
  · exact ⟨v,rfl,fun _ _ => rfl⟩
  · cases hw
    exact ⟨v',rfl,ha⟩

theorem Committed.read_of_failure (hc : Committed env txType tx l o l')
    (hr : o.result.isSuccess=false) (k : Hash256) :
    (o.sandbox.read k=none ∧ l'.read k=none) ∨
      (∃ d d', o.sandbox.read k=some d ∧ l'.read k=some d' ∧ d.AgreeOff stampFields d' ∧
        ((o.sandbox.changes.row k).inserted=none → (o.sandbox.changes.row k).updated=none →
          d'=d)) := by
  obtain ⟨hash,leaf,-,-,hread⟩ := hc.txHash
  rw [hread]
  exact (rewrites_committedChanges_of_not_success env txType tx hash l.header.sequence hr).read k

theorem Committed.read_of_row (hc : Committed env txType tx l o l') (hr : o.result.isSuccess=false)
    (hrow : o.sandbox.changes.row k=⟨none,none,none,none⟩) : l'.read k=l.read k := by
  have hsame : o.sandbox.read k=l.read k := by
    rw [Sandbox.read,SandboxChanges.read_eq,hrow]
    rfl
  obtain ⟨hn,hn'⟩ | ⟨d,d',hd,hd',-,heq⟩ := hc.read_of_failure hr k
  · rw [hn',← hsame,hn]
  · rw [hd',heq (by rw [hrow]) (by rw [hrow]),← hsame,hd]

theorem Committed.read_json (hc : Committed env txType tx l o l') (hr : o.result.isSuccess=false)
    (hk : o.sandbox.read k=some (.json v)) :
    ∃ v', l'.read k=some (.json v') ∧
      FieldsAgree stampFields v v' := by
  obtain ⟨hn,-⟩ | ⟨d,d',hd,hd',ha,-⟩ := hc.read_of_failure hr k
  · rw [hn] at hk
    cases hk
  rw [hd] at hk
  cases hk
  obtain ⟨v',rfl,hv⟩ := agreeOff_json ha
  exact ⟨v',hd',hv⟩

theorem destroyedAfter_eq_iff {c : SandboxChanges} {fee : ℕ} (hd : c.destroyedDrops=fee) :
    c.destroyedAfter l=l.destroyedDrops+fee ↔ fee=0 ∨ l.destroyedDrops+fee < 2^64 := by
  unfold SandboxChanges.destroyedAfter
  rw [hd]
  split
  · refine ⟨fun h => .inr (h ▸ Nat.mod_lt _ (by simp)),?_⟩
    rintro (h | h)
    · omega
    · exact Nat.mod_eq_of_lt h
  · omega

/-- What spending the sequence or ticket leaves of the account root and the counters of the sandbox.
-/
theorem consume_fields {id : AccountId} {account account' : Json} {view : ReadView}
    {s s' : Sandbox view} (h : consumeSeqOrTicket env.crypto id account tx s=.ok (account',s')) :
    FieldsAgree ["Sequence","OwnerCount","TicketCount"] account account' ∧
      s'.changes.destroyedDrops=s.changes.destroyedDrops := by
  cases hticket : u64Field tx "TicketSequence" with
  | none =>
    obtain ⟨rfl,rfl⟩ := consumeSeqOrTicket_none hticket h
    exact ⟨(incrementSequence_fields account).mono (by simp),rfl⟩
  | some n =>
    obtain ⟨ticket,s₁,-,hunlink,herase,rfl⟩ := consumeSeqOrTicket_some hticket h
    refine ⟨((adjustOwnerCount_fields account (-1)).mono (by simp)).trans
      ((decrementTicketCount_fields _).mono (by simp)),?_⟩
    rw [(ViewM.erase_eq_ok herase).2.destroyedDrops,(frame_unlinkTicket _ _ _ _ hunlink).2.1]

section

variable {id : AccountId} {account account₁ account' : Json} {s₁ : Sandbox (l.view fees)}

private theorem sequenceSpent_iff (hticket : u64Field tx "TicketSequence"=none)
    (hconsume : consumeSeqOrTicket env.crypto id (feeCharged tx account) tx
      (openSandbox env (l.view fees) rules) =
      .ok (account₁,s₁))
        (hrow : ∀ k≠Keylet.account env.crypto id, o.sandbox.changes.row k=s₁.changes.row k)
    (hc : Committed env txType tx l o l') (hr : o.result.isSuccess=false)
      (hstamp : FieldsAgree stampFields account₁ account') :
    SequenceSpent env.crypto id account account' l l' ↔ getSequence account+1 < 2^32 := by
  obtain ⟨rfl,rfl⟩ := consumeSeqOrTicket_none hticket hconsume
  have hcharge := feeCharged_fields tx account
  have hseq : getSequence account'=(getSequence account+1) % 2^32 := by
    rw [getSequence_congr (hstamp _ (by decide)),getSequence_incrementSequence,
      getSequence_congr (hcharge "Sequence" (by decide))]
  constructor
  · intro h
    have hsucc := h.sequence
    rw [hseq] at hsucc
    exact hsucc ▸ Nat.mod_lt _ (by simp)
  · intro h
    refine ⟨by rw [hseq,Nat.mod_eq_of_lt h],?_,fun k hk => hc.read_of_row hr (hrow k hk)⟩
    refine (hcharge.mono ?_).trans
      (((incrementSequence_fields _).mono ?_).trans (hstamp.mono ?_)) <;> simp [stampFields]

private theorem ticketSpent_iff (hsep : env.crypto.Separated)
    (hdir : OwnerDirSound env.crypto id l.read) {n : ℕ}
    (hticket : u64Field tx "TicketSequence"=some n)
    (hconsume : consumeSeqOrTicket env.crypto id (feeCharged tx account) tx
      (openSandbox env (l.view fees) rules) =
      .ok (account₁,s₁))
    (hread : o.sandbox.read=update s₁.read (Keylet.account env.crypto id) (some (.json account₁)))
    (hrow : ∀ k≠Keylet.account env.crypto id, o.sandbox.changes.row k=s₁.changes.row k)
    (hc : Committed env txType tx l o l') (hr : o.result.isSuccess=false)
      (hstamp : FieldsAgree stampFields account₁ account') :
    TicketSpent env.crypto id (n % 2^32) account account' l l' ↔
      0 < getOwnerCount account ∧ getOwnerCount account ≤ 2^31 ∧ 0 < ticketCount account ∧
        NamesItsPage env.crypto id l.read (Keylet.ticket env.crypto id (n % 2^32)) := by
  obtain ⟨ticket,s₀,hpresent,hunlink,herase,rfl⟩ := consumeSeqOrTicket_some hticket hconsume
  have hn : n % 2^32 < 2^32 := Nat.mod_lt _ (by simp)
  generalize hm : n % 2^32=m at *
  have hcharge := feeCharged_fields tx account
  have herased := (ViewM.erase_eq_ok herase).2
  have hneAccount := hsep.account_ne_ticket id id hn
  -- the pages are read as the removal left them, up to their stamps
  have hpages : PagesAgree env.crypto (Keylet.ownerDir env.crypto id) s₀.read l'.read := by
    intro p hp
    have hmem := dirNode_mem env.crypto (Keylet.ownerDir env.crypto id) hp
    have hne : Keylet.dirNode env.crypto (Keylet.ownerDir env.crypto id) p ≠
        Keylet.account env.crypto id :=
      fun he => hsep.account_notMem_pageKeys id id (he ▸ hmem)
    have hne' : Keylet.dirNode env.crypto (Keylet.ownerDir env.crypto id) p ≠
        Keylet.ticket env.crypto id m :=
      fun he => hsep.ticket_notMem_pageKeys id id hn (he ▸ hmem)
    have hsame : o.sandbox.read (Keylet.dirNode env.crypto (Keylet.ownerDir env.crypto id) p) =
        s₀.read (Keylet.dirNode env.crypto (Keylet.ownerDir env.crypto id) p) := by
      rw [hread,update_of_ne hne,herased.read,update_of_ne hne']
    obtain ⟨hnone,hnone'⟩ | ⟨d,d',hd,hd',ha,-⟩ :=
      hc.read_of_failure hr (Keylet.dirNode env.crypto _ p)
    · exact .inl ⟨hsame ▸ hnone,hnone'⟩
    · exact .inr ⟨d,d',hsame ▸ hd,hd',ha⟩
  have hunlinked := unlinked_iff (s := openSandbox env (l.view fees) rules) hsep hdir hunlink
  have hnames : NamesItsPage env.crypto id l.read (Keylet.ticket env.crypto id m) ↔
      ∀ p, ListedOn env.crypto id l.read (Keylet.ticket env.crypto id m) p → ∀ q∈ticketPage ticket,
        q=p :=
    ⟨fun h p => h ticket p hpresent,fun h ticket' p hpresent' => by
      cases hpresent.symm.trans hpresent'; exact h p⟩
  have howner : getOwnerCount account'=getOwnerCount
    (adjustOwnerCount (feeCharged tx account) (-1)) := by
    rw [getOwnerCount_congr (hstamp _ (by decide)),
      getOwnerCount_congr (decrementTicketCount_fields _ _ (by decide))]
  have howner₀ : getOwnerCount (feeCharged tx account)=getOwnerCount account :=
    getOwnerCount_congr (hcharge _ (by decide))
  have htickets : ticketCount account'=ticketCount account-1 := by
    rw [ticketCount_congr (hstamp _ (by decide)),ticketCount_decrementTicketCount,
      ticketCount_congr (adjustOwnerCount_fields _ _ _ (by decide)),
        ticketCount_congr (hcharge _ (by decide))]
  have hcount := getOwnerCount_decrement_iff (feeCharged tx account)
  rw [← howner,howner₀] at hcount
  constructor
  · intro h
    obtain ⟨hpos,hle⟩ := hcount.mp h.ownerCount
    have ht := h.ticketCount
    exact ⟨hpos,hle,by omega,hnames.mpr (hunlinked.mp ((Unlinked.congr hpages).mp h.unlinked))⟩
  · rintro ⟨hpos,hle,htc,hnamed⟩
    refine ⟨?_,(Unlinked.congr hpages).mpr (hunlinked.mpr (hnames.mp hnamed)),hcount.mpr ⟨hpos,hle⟩,
      by omega,?_,?_,?_⟩
    · obtain ⟨-,hnone⟩ | ⟨d,d',hd,-,-,-⟩ := hc.read_of_failure hr (Keylet.ticket env.crypto id m)
      · exact hnone
      · rw [hread,update_of_ne hneAccount.symm,herased.read,update_self] at hd
        cases hd
    · refine (hcharge.mono ?_).trans (((adjustOwnerCount_fields _ (-1)).mono ?_).trans
        (((decrementTicketCount_fields _).mono ?_).trans (hstamp.mono ?_))) <;> simp [stampFields]
    · intro p hp
      exact (unlinkTicket_pages (s := openSandbox env (l.view fees) rules) hsep hdir hunlink
        (hnames.mp hnamed)
        hp).congr (hpages p hp)
    intro k hk hk' hpage
    apply hc.read_of_row hr
    rw [hrow k hk,(ViewM.frame_erase (Set.mem_singleton _) herase).1 k (by simpa using hk'),
      (frame_unlinkTicket _ _ _ _ hunlink).1 k hpage]
    rfl

end

/-- A claimed failure is what the property asks for exactly when the counters fit. -/
theorem feeClaimed_iff (hsep : env.crypto.Separated)
    (hdir : ∀ id, senderId env.crypto tx=some id → OwnerDirSound env.crypto id l.read)
    (hcharged : Charged env tx (l.view fees) rules o.sandbox) (hc : Committed env txType tx l o l')
    (hr : o.result.isSuccess=false) :
    ∃ id account account', senderId env.crypto tx=some id ∧
      l.read (Keylet.account env.crypto id)=some (.json account) ∧
      l'.read (Keylet.account env.crypto id)=some (.json account') ∧
      (FeeClaimed env.crypto tx l l' id account account' ↔
        CountersFit env.crypto tx l id account) := by
  obtain ⟨id,account,account₁,s₁,hid,hbefore,hfee,hconsume,hread,hrow,hdest,-,-⟩ :=
    chargeSender_ok hcharged
  have hkey : o.sandbox.read (Keylet.account env.crypto id)=some (.json account₁) := by
    rw [hread,update_self]
  obtain ⟨account',hafter,hstamp⟩ := hc.read_json hr hkey
  refine ⟨id,account,account',hid,hbefore,hafter,?_⟩
  obtain ⟨hash,leaf,hhash,hmap,-⟩ := hc.txHash
  obtain ⟨hfields,hzero⟩ := consume_fields hconsume
  have hbalance : getBalance account'+getFee tx=getBalance account := by
    rw [getBalance_congr (hstamp _ (by decide)),getBalance_congr (hfields _ (by decide)),
      getBalance_feeCharged hfee]
  have hdestroyed := destroyedAfter_eq_iff (l := l) (hdest rfl hzero)
  have hproxy : (match getU32Field tx "TicketSequence" with
      | none => SequenceSpent env.crypto id account account' l l'
      | some n => TicketSpent env.crypto id n account account' l l') ↔
      (match getU32Field tx "TicketSequence" with
      | none => getSequence account+1 < 2^32
      | some n => 0 < getOwnerCount account ∧ getOwnerCount account ≤ 2^31 ∧
        0 < ticketCount account ∧
        NamesItsPage env.crypto id l.read (Keylet.ticket env.crypto id n)) := by
    cases hticket : u64Field tx "TicketSequence" <;> rw [getU32Field,hticket]
    · exact sequenceSpent_iff hticket hconsume hrow hc hr hstamp
    · exact ticketSpent_iff hsep (hdir id hid) hticket hconsume hread hrow hc hr hstamp
  constructor
  · intro h
    exact ⟨hdestroyed.mp (hc.destroyedDrops ▸ h.destroyed),hproxy.mp h.proxy⟩
  · intro h
    exact ⟨hid,hbefore,hafter,⟨hash,leaf,hhash,hmap⟩,hbalance,
      hc.destroyedDrops.trans (hdestroyed.mpr h.destroyed),hproxy.mpr h.proxy⟩

end

/-! ## The whole transaction -/

theorem not_feeClaimed_self {crypto : Crypto} {tx : Json} {l : Ledger} {id : AccountId}
    {account account' : Json} : ¬ FeeClaimed crypto tx l l id account account' := by
  intro h
  obtain rfl : account=account' := by simpa using h.before.symm.trans h.after
  have hproxy := h.proxy
  split at hproxy
  · have := hproxy.sequence
    omega
  · have := hproxy.ownerCount
    omega

section

variable {env : Env} {engine : TxEngine} {t : Transactor} {txType : TransactionType} {tx : Json}
  {l l' : Ledger} {rules : Rules} {fees : FeeSettings}

theorem applyWith_changes (ht : t.Lawful) (hp : txType.isPseudo=false) (hopen : l.isOpen=true)
    {tapRetry : Bool}
    {r : Stop} (h : applyWith env engine t txType tx l rules fees tapRetry=(r,l')) :
    l'=l ∨ ∃ c, r=.ok c ∧ c.isClaimed=true ∧ (tapRetry=true → c.isRetryableTec=false) := by
  obtain ⟨-,-,-,hl⟩ | ⟨-,-,-,hl⟩ | ⟨-,-,hl⟩ | ⟨pre,o,hg,he,rfl,-⟩ := applyWith_cases hopen h
  · exact .inl hl
  · exact .inl hl
  · exact .inl hl
  obtain ⟨s,-,⟨child,-,-,hres,-⟩ | ⟨-,hcl,hretry⟩⟩ :=
    execute_ok ht hp (fun c hc => gates_ok_tec (hc ▸ hg)) he
  · exact .inr ⟨_,rfl,by rw [hres]; rfl,fun _ => by rw [hres]; rfl⟩
  · exact .inr ⟨_,rfl,hcl,hretry⟩

variable {c : TransactionResult}

/-- A `tec` comes from preflight, from a hook, or with the charge committed. -/
theorem applyWith_tec (ht : t.Lawful) (hp : txType.isPseudo=false) (hopen : l.isOpen=true)
    (h : applyWith env engine t txType tx l rules fees false=(.ok c,l')) (hc : c.isTec=true) :
    (t.preflight tx rules fees=.error c ∧ l'=l) ∨
      (HookRejects env engine t txType tx l rules fees ∧ l'=l) ∨
      ∃ o : Outcome (l.view fees), Charged env tx (l.view fees) rules o.sandbox ∧
        Committed env txType tx l o l' ∧
        o.result.isSuccess=false := by
  have hcl : c.isClaimed=true := by simp [TransactionResult.isClaimed,hc]
  obtain ⟨r,hg,hr,hl⟩ | ⟨pre,hg,he,hl⟩ | ⟨e,hr,-⟩ | ⟨pre,o,hg,he,hr,hcommit⟩ :=
    applyWith_cases hopen h
  · cases hr
    exact .inl ⟨gates_error_claimed hcl hg,hl⟩
  · obtain ⟨-,rfl,hook⟩ := execute_error_claimed hp hcl he
    exact .inr (.inl ⟨⟨hg,hook⟩,hl⟩)
  · cases hr
  cases hr
  obtain ⟨s,hs,⟨child,-,-,hres,-⟩ | ⟨hsb,-,-⟩⟩ :=
    execute_ok ht hp (fun c hc => gates_ok_tec (hc ▸ hg)) he
  · rw [hres] at hc
    cases hc
  · exact .inr (.inr ⟨o,hsb ▸ hs,hcommit,TransactionResult.not_isSuccess_of_isTec hc⟩)

theorem applyWith_of_preflight (h : t.preflight tx rules fees=.error c) (tapRetry : Bool) :
    applyWith env engine t txType tx l rules fees tapRetry=(.ok c,l) := by
  rw [applyWith,gates,h]
  rfl

theorem applyWith_of_hookRejects (hp : txType.isPseudo=false)
    (h : HookRejects env engine t txType tx l rules fees) :
    applyWith env engine t txType tx l rules fees false=(.ok .tecHookRejected,l) := by
  obtain ⟨hg,s,child,hs,hrun,hroll⟩ := h
  have he : execute env engine t txType tx (l.view fees) rules fees false none =
      .error (.ok .tecHookRejected) := by
    rw [execute,hp]
    refine bind_error_iff.mpr (.inr ⟨s,hs,runHandler_of_rollback hrun hroll⟩)
  rw [applyWith,hg]
  dsimp only
  rw [he]

end

/-- An open ledger with a sound owner directory, and a transaction that is not a pseudo-transaction:
the application is all-or-claim exactly when no claimed code is returned before the commit and, in a
claimed failure, the counters fit and a ticket names its page. -/
theorem allOrClaim_iff (env : Env) (engine : TxEngine) (tx : Json) (l : Ledger) (rules : Rules)
    (fees : FeeSettings) (hsep : env.crypto.Separated) (hlaw : engine.Lawful)
    (hopen : l.isOpen=true)
    (hp : ∀ txType t, transactorOf engine tx=some (txType,t) → txType.isPseudo=false)
    (hdir : ∀ id, senderId env.crypto tx=some id → OwnerDirSound env.crypto id l.read) :
    AllOrClaim env engine tx l rules fees ↔ Claimable env engine tx l rules fees := by
  cases htx : transactorOf engine tx with
  | none =>
    -- a transaction without a transactor is an error
    have herr : ∀ tapRetry r l', applyInner env engine tx l rules fees tapRetry=(r,l') →
        l'=l ∧ ∀ c, r≠.ok c := by
      intro tapRetry r l' h
      obtain ⟨name,he⟩ : ∃ name,
        applyInner env engine tx l rules fees tapRetry=(.error (.unknownTransactionType name),l) :=
        applyInner_of_transactorOf_none htx l rules fees tapRetry
      cases he.symm.trans h
      exact ⟨rfl,fun c hc => nomatch hc⟩
    constructor
    · intro _
      exact ⟨fun _ _ h => by simp [htx] at h,fun _ _ h => by simp [htx] at h,
        fun c l' h => ((herr _ _ _ h).2 c rfl).elim⟩
    · intro _
      exact ⟨fun r l' h _ => (herr _ _ _ h).1,fun c l' h => ((herr _ _ _ h).2 c rfl).elim,
        fun c l' h => ((herr _ _ _ h).2 c rfl).elim⟩
  | some p =>
    obtain ⟨txType,t⟩ := p
    have ht := hlaw txType t (registry_of_transactorOf htx)
    have hpseudo := hp txType t htx
    have happly : apply env engine tx l rules fees =
        applyWith env engine t txType tx l rules fees false :=
      applyInner_of_transactorOf htx l rules fees false
    have hretriable : applyRetriable env engine tx l rules fees =
        applyWith env engine t txType tx l rules fees true :=
      applyInner_of_transactorOf htx l rules fees true
    constructor
    · intro h
      refine ⟨fun txType' t' htx' r hr => ?_,fun txType' t' htx' hook =>
        ?_,fun c l' hc htec id account hid hread => ?_⟩
      · cases htx.symm.trans htx'
        by_contra htec
        obtain ⟨id,account,account',hclaim⟩ :=
          h.claim r l (happly.trans (applyWith_of_preflight hr false)) (by simpa using htec)
        exact not_feeClaimed_self hclaim
      · cases htx.symm.trans htx'
        obtain ⟨id,account,account',hclaim⟩ :=
          h.claim _ l (happly.trans (applyWith_of_hookRejects hpseudo hook)) rfl
        exact not_feeClaimed_self hclaim
      · obtain ⟨id',account',account'',hclaim⟩ := h.claim c l' hc htec
        obtain ⟨-,rfl⟩ | ⟨-,rfl⟩ | ⟨o,hcharged,hcommit,hfail⟩ :=
          applyWith_tec ht hpseudo hopen (happly ▸ hc) htec
        · exact (not_feeClaimed_self hclaim).elim
        · exact (not_feeClaimed_self hclaim).elim
        obtain ⟨id₁,a,a',hid₁,hread₁,hread₁',hiff⟩ :=
          feeClaimed_iff hsep hdir hcharged hcommit hfail
        cases hid.symm.trans hid₁
        cases hread.symm.trans hread₁
        cases hid.symm.trans hclaim.sender
        cases hread.symm.trans hclaim.before
        cases hread₁'.symm.trans hclaim.after
        exact hiff.mp hclaim
    · intro h
      refine ⟨fun r l' hr hunclaimed => ?_,fun c l' hc htec => ?_,fun c l' hc hretry => ?_⟩
      · refine (applyWith_changes ht hpseudo hopen (happly ▸ hr)).resolve_right ?_
        rintro ⟨c,hok,hclaimed,-⟩
        rw [hunclaimed c hok] at hclaimed
        cases hclaimed
      · obtain ⟨hpre,-⟩ | ⟨hook,-⟩ | ⟨o,hcharged,hcommit,hfail⟩ :=
          applyWith_tec ht hpseudo hopen (happly ▸ hc) htec
        · rw [h.preflight txType t htx c hpre] at htec
          cases htec
        · exact (h.hooks txType t htx hook).elim
        · obtain ⟨id,a,a',hid,hread,-,hiff⟩ := feeClaimed_iff hsep hdir hcharged hcommit hfail
          exact ⟨id,a,a',hiff.mpr (h.counters c l' hc htec id a hid hread)⟩
      · refine (applyWith_changes ht hpseudo hopen (hretriable ▸ hc)).resolve_right ?_
        rintro ⟨c',hok,-,hnot⟩
        cases hok
        rw [hnot rfl] at hretry
        cases hretry

theorem lawful_engineOf_returning {r : TransactionResult} (hr : r.isClaimed=true) :
    (engineOf (.returning r)).Lawful := by
  intro txType t ht below tx rules fees s s' r' h
  cases ht
  obtain ⟨rfl,-⟩ := ViewM.pure_eq_ok.mp h
  exact hr

private def ticketKey : Hash256 := Keylet.ticket paddedCrypto (party 1) 5

private def listedKey : Hash256 := Keylet.escrow paddedCrypto (party 1) 6

private def ticketPayment : Json :=
  .obj [("TransactionType",.str "Payment"),("Account",.str (address 1)),
    ("Destination",.str (address 2)),
    ("Fee",.str "10"),("Sequence",.int 0),("TicketSequence",.int 5)]

private def ticketHolder : Json := (accountRoot 1 "1000" 7 2).set "TicketCount" (.int 1)

/-- An account with an escrow and a ticket, which its directory lists on the first page. -/
private def ticketLedger : Ledger :=
  openLedger 0 [(Keylet.account paddedCrypto (party 1),ticketHolder),
    (ticketKey,.obj [("LedgerEntryType",.str "Ticket"),("OwnerNode",.str "0")]),
    (Keylet.ownerDir paddedCrypto (party 1),
      .obj [("Indexes",.arr [.str (hashText listedKey),.str (hashText ticketKey)])])]

private theorem ticketLedger_sound :
    ∃ D, Shows paddedCrypto (Keylet.ownerDir paddedCrypto (party 1)) ticketLedger.read D ∧
    D.Sound [(listedKey,0),(ticketKey,0)] False := by
  have hsound := (Directory.sound_root ticketKey False).add (e := listedKey) (update_self ..)
    (by decide) (by decide)
    (.refl [listedKey,ticketKey])
  rw [update_idem] at hsound
  refine ⟨_,?_,hsound⟩
  refine ⟨fun p hp => update_of_ne (by omega) _ _,fun p hp => ?_⟩
  by_cases hzero : p=0
  · rw [hzero,update_self]
    exact .page ⟨rfl,fun forward => by cases forward <;> rfl⟩
  have hnone : ticketLedger.read
    (Keylet.dirNode paddedCrypto (Keylet.ownerDir paddedCrypto (party 1)) p)=none := by
    have hne : ∀ k : EntryKey, k.InRange → k≠.page (party 1) p →
        Keylet.dirNode paddedCrypto (Keylet.ownerDir paddedCrypto (party 1)) p ≠
          k.hash paddedCrypto :=
      fun k hk hkey =>
        (separated_paddedCrypto.ne hk (show EntryKey.InRange (.page (party 1) p) from hp) hkey).symm
    refine (AList.lookup_insert_ne
      (hne (.page (party 1) 0) (by simp [EntryKey.InRange]) (by simp [Ne.symm hzero]))).trans ?_
    refine (AList.lookup_insert_ne
      (hne (.ticket (party 1) 5) (by simp [EntryKey.InRange]) (by simp))).trans ?_
    exact AList.lookup_insert_ne (hne (.account (party 1)) trivial (by simp))
  rw [update_of_ne hzero,hnone]
  exact .none

private theorem ticketPayment_sender : senderId paddedCrypto ticketPayment=some (party 1) := by
    decide

/-- A payment with a ticket whose transactor fails with a claimed code is all-or-claim. -/
theorem allOrClaim_failing_payment :
    AllOrClaim plainEnv (engineOf (.returning .tecUnfunded)) ticketPayment ticketLedger noRules
      smallFees := by
  have hlaw : (engineOf (.returning .tecUnfunded)).Lawful := lawful_engineOf_returning rfl
  have htx : ∀ txType t, transactorOf (engineOf (.returning .tecUnfunded)) ticketPayment =
    some (txType,t) →
      txType=.payment ∧ t=.returning .tecUnfunded := by
    intro txType t h
    have hname : typeOf ticketPayment=some .payment := by decide
    rw [transactorOf,hname] at h
    cases h
    exact ⟨rfl,rfl⟩
  refine (allOrClaim_iff plainEnv _ ticketPayment ticketLedger _ _ separated_paddedCrypto hlaw rfl
    (fun _ _ ht => by rw [(htx _ _ ht).1]; rfl) ?_).mpr ⟨?_,?_,?_⟩
  · intro id hid
    cases hid.symm.trans ticketPayment_sender
    obtain ⟨D,hshows,hsound⟩ := ticketLedger_sound
    exact ⟨D,_,hshows,hsound⟩
  · intro txType t ht r hr
    obtain ⟨-,rfl⟩ := htx txType t ht
    cases hr
  · rintro txType t ht ⟨-,s,child,-,hrun,-⟩
    obtain ⟨rfl,rfl⟩ := htx txType t ht
    cases hrun
  · intro c l' _ _ id account hid hread
    cases hid.symm.trans ticketPayment_sender
    have hread' : ticketLedger.read (Keylet.account paddedCrypto (party 1)) =
      some (.json ticketHolder) := rfl
    cases hread.symm.trans hread'
    refine ⟨.inr (by decide),?_⟩
    have hticket : getU32Field ticketPayment "TicketSequence"=some 5 := by decide
    rw [hticket]
    refine ⟨by decide,by decide,by decide,fun ticket p hpresent hlisted q hq => ?_⟩
    obtain ⟨D,hshows,hsound⟩ := ticketLedger_sound
    have hpage : ∀ hint∈[(listedKey,0),(ticketKey,0)], hint.2=0 := by simp
    rw [show p=0 from hpage _ ((listedOn_iff hshows hsound).mp hlisted)]
    cases (show ticketLedger.read ticketKey=_ from rfl).symm.trans hpresent
    cases hq
    rfl

private def payment : Json :=
  .obj [("TransactionType",.str "Payment"),("Account",.str (address 1)),
    ("Destination",.str (address 2)),
    ("Fee",.str "10"),("Sequence",.int 7)]

private def hookedLedger : Ledger :=
  openLedger 0 [(Keylet.account paddedCrypto (party 1),accountRoot 1 "1000" 7 0),
    (Keylet.hookDefinition paddedCrypto (party 2),
      .obj [("Hooks",.arr [.obj [("CreateCode",.str "00")]])])]

/-- A hook that rolls back: the payment is rejected with a claimed code, and no fee is claimed. -/
theorem hookRejected_not_allOrClaim :
    (engineOf (.returning .tesSuccess)).Lawful ∧ hookedLedger.isOpen=true ∧
      ¬ AllOrClaim { plainEnv with executeHook := fun _ _ _ _ _ _ => some true }
        (engineOf (.returning .tesSuccess))
        payment hookedLedger noRules smallFees := by
  refine ⟨lawful_engineOf_returning rfl,rfl,fun h => ?_⟩
  generalize hr : apply { plainEnv with executeHook := fun _ _ _ _ _ _ => some true }
    (engineOf (.returning .tesSuccess))
    payment hookedLedger noRules smallFees=out at h
  have hcode : out.1.toOption=some .tecHookRejected := by rw [← hr]; decide
  have hmap : out.2.txMap.entries=[] := by rw [← hr]; decide
  obtain ⟨result,l'⟩ := out
  cases result with
  | error e => cases hcode
  | ok c =>
    cases hcode
    obtain ⟨id,account,account',hclaim⟩ := h.claim _ _ hr rfl
    obtain ⟨hash,leaf,-,hinsert⟩ := hclaim.recorded
    have hfound : l'.txMap.lookup hash=some leaf := by rw [hinsert,AList.lookup_insert]
    rw [AList.lookup,hmap] at hfound
    cases hfound

end Rxrpl.Tx
