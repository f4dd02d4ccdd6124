import Rxrpl.LockEffects
import Rxrpl.DropsGuard

/-!
# XRP in escrows and payment channels

The XRP of a ledger lies in account roots, escrows and payment channels, and some of it has been
destroyed as fees. The transactors of escrows and channels keep the sum, with two exceptions: a
claim takes the entry that `Channel` names for a payment channel even when it is an escrow, and the
amount of a channel that is funded over and over leaves the range of its type.
-/

namespace Rxrpl.Tx

open Codec (AccountId)
open Function Option

/-! ## The sum -/

def drops (d : Data) : ℕ := accountDrops d+lockedDrops d

/-- Account roots, escrows, payment channels and destroyed drops. -/
def Ledger.totalXrp (l : Ledger) : ℕ := l.stateMap.sumBy (fun _ => drops)+l.destroyedDrops

noncomputable def worth (read : Hash256 → Option Data) : ℕ := KeyedSum.total (fun _ => drops) read

theorem totalXrp_eq (l : Ledger) : l.totalXrp=worth l.read+l.destroyedDrops := by
  rw [Ledger.totalXrp,HashMap.sumBy_eq_total]
  rfl

theorem worth_update (read : Hash256 → Option Data) (k : Hash256) (x : Option Data) :
    worth (update read k x)+(read k).elim 0 drops=worth read+x.elim 0 drops :=
  KeyedSum.total_update (fun _ => drops) read k x

variable {d : Data} {k : Hash256} {read : Hash256 → Option Data}

theorem drops_le_worth (h : read k=some d) : drops d ≤ worth read := by
  have hle : (read k).elim 0 drops ≤ worth read := KeyedSum.le_total (w := fun _ => drops) k
  rwa [h] at hle

theorem drops_add_le_worth {k' : Hash256} {d' : Data} (h : read k=some d) (h' : read k'=some d')
    (hne : k≠k') : drops d+drops d' ≤ worth read := by
  have hle : (read k).elim 0 drops+(read k').elim 0 drops ≤ worth read :=
    KeyedSum.add_le_total (w := fun _ => drops) hne
  rwa [h,h'] at hle

section

variable {v v' : Json}

theorem drops_accountRoot (h : entryType v=some "AccountRoot") : drops (.json v)=getBalance v := by
  simp [drops,accountDrops,lockedDrops,h]

theorem drops_escrow (h : entryType v=some "Escrow") : drops (.json v)=(getXrpAmount v).getD 0 := by
  simp [drops,accountDrops,lockedDrops,h]

theorem drops_payChannel (h : entryType v=some "PayChannel") :
    drops (.json v)=(getXrpAmount v).getD 0-getBalance v := by
  simp [drops,accountDrops,lockedDrops,h]

end

/-! ## Entries in their places -/

/-- What an entry of the modelled kinds is known to be. -/
def EntryKey.Describes (v : Json) : EntryKey → Prop
  | .account _ => entryType v=some "AccountRoot" ∧ getXrpAmount v=none
  | .page _ _ => entryType v=some "DirectoryNode" ∧ getXrpAmount v=none
  | .ticket _ _ => entryType v=some "Ticket" ∧ getXrpAmount v=none
  | .escrow _ _ => entryType v=some "Escrow"

/-- An entry that fits its key: it has the type of the key, it is an escrow or a channel if it has
an account and an XRP amount, an escrow has no balance and a channel has paid out no more than it
holds. -/
structure FitsAt (crypto : Crypto) (k : Hash256) (v : Json) : Prop where
  kind : ∀ e : EntryKey, e.InRange → e.hash crypto=k → e.Describes v
  locked : (getXrpAmount v).isSome → (strField v "Account").isSome →
    entryType v=some "Escrow" ∨ entryType v=some "PayChannel"
  escrow : entryType v=some "Escrow" → getBalance v=0
  payChannel : entryType v=some "PayChannel" → getBalance v ≤ (getXrpAmount v).getD 0

def WellTyped (crypto : Crypto) (read : Hash256 → Option Data) : Prop :=
    AllEntries (FitsAt crypto) read

/-- The fields that tell the XRP in an entry and whether it fits. -/
def worthFields : List String := ["LedgerEntryType","Account","Amount","Balance"]

section

variable {crypto : Crypto} {k : Hash256} {v v' : Json}

theorem entryType_congr (h : v'.get "LedgerEntryType"=v.get "LedgerEntryType") :
    entryType v'=entryType v := by
  simp only [entryType,strField,h]

theorem getXrpAmount_congr (h : v'.get "Amount"=v.get "Amount") :
    getXrpAmount v'=getXrpAmount v := by
  simp only [getXrpAmount,getU64StrField,strField,h]

variable {amount n : ℕ} {e : EntryKey} {id : AccountId}

theorem Describes.congr (htype : entryType v'=entryType v)
    (hamount : getXrpAmount v'=getXrpAmount v) (h : e.Describes v) : e.Describes v' := by
  cases e <;> simpa [EntryKey.Describes,htype,hamount] using h

theorem FitsAt.congr (h : FitsAt crypto k v) (hfields : ∀ f∈worthFields, v'.get f=v.get f) :
    FitsAt crypto k v' := by
  have htype := entryType_congr (hfields "LedgerEntryType" (by simp [worthFields]))
  have haccount : strField v' "Account"=strField v "Account" := by
    rw [strField,hfields "Account" (by simp [worthFields]),strField]
  have hamount := getXrpAmount_congr (hfields "Amount" (by simp [worthFields]))
  have hbalance := getBalance_congr (hfields "Balance" (by simp [worthFields]))
  refine ⟨fun e he hk => Describes.congr htype hamount (h.kind e he hk),?_,?_,?_⟩
  · rw [htype,haccount,hamount]
    exact h.locked
  · rw [htype,hbalance]
    exact h.escrow
  · rw [htype,hbalance,hamount]
    exact h.payChannel

theorem drops_congr (hfields : ∀ f∈worthFields, v'.get f=v.get f) :
    drops (.json v')=drops (.json v) := by
  have htype := entryType_congr (hfields "LedgerEntryType" (by simp [worthFields]))
  have hamount := getXrpAmount_congr (hfields "Amount" (by simp [worthFields]))
  have hbalance := getBalance_congr (hfields "Balance" (by simp [worthFields]))
  simp only [drops,accountDrops,lockedDrops,htype,hamount,hbalance]

theorem FitsAt.account (h : FitsAt crypto (Keylet.account crypto id) v) :
    entryType v=some "AccountRoot" ∧ getXrpAmount v=none := h.kind (.account id) trivial rfl

def IsLock (v : Json) : Prop := entryType v=some "Escrow" ∨ entryType v=some "PayChannel"

theorem IsLock.congr (h : entryType v'=entryType v) (hlock : IsLock v) : IsLock v' := by
    rwa [IsLock,h]

/-- An escrow or a channel holds its amount less its balance. -/
theorem IsLock.drops_eq (h : IsLock v) (hescrow : entryType v=some "Escrow" → getBalance v=0)
    (hamount : getXrpAmount v=some amount) : drops (.json v)=amount-getBalance v := by
  obtain h | h := h
  · rw [drops_escrow h,hescrow h,hamount]
    rfl
  · rw [drops_payChannel h,hamount]
    rfl

theorem FitsAt.balance_le (hfit : FitsAt crypto k v) (h : IsLock v)
    (hamount : getXrpAmount v=some amount) : getBalance v ≤ amount := by
  obtain h | h := h
  · rw [hfit.escrow h]
    exact Nat.zero_le _
  · have := hfit.payChannel h
    rwa [hamount] at this

theorem FitsAt.escrowKey (hn : n < 2^32) (h : FitsAt crypto (Keylet.escrow crypto id n) v) :
    entryType v=some "Escrow" := h.kind (.escrow id n) hn rfl

theorem fitsAt_of_key (hsep : crypto.Separated) (he : e.InRange) (hd : e.Describes v)
    (hbalance : entryType v=some "Escrow" → getBalance v=0) : FitsAt crypto (e.hash crypto) v := by
  refine ⟨fun e' he' hk => hsep.injOn he' he hk ▸ hd,fun hsome _ => ?_,hbalance,fun h => ?_⟩
  · cases e with
    | escrow id n => exact .inl hd
    | _ =>
      rw [hd.2] at hsome
      cases hsome
  · cases e <;> simp [EntryKey.Describes,h] at hd

theorem WellTyped.weightless {read : Hash256 → Option Data} (hread : WellTyped crypto read)
    (he : e.InRange) (hnone : ∀ v, e.Describes v → drops (.json v)=0) :
    (read (e.hash crypto)).elim 0 drops=0 := by
  cases hd : read (e.hash crypto) with
  | none => rfl
  | some d =>
    cases d with
    | raw bs => rfl
    | json v => exact hnone v ((hread _ v hd).kind e he rfl)

end

theorem get_eq_of_fieldsAgree {except fields : List String} {v v' : Json}
    (h : FieldsAgree except v v') (hdisjoint : ∀ f∈fields, f∉except) :
    ∀ f∈fields, v'.get f=v.get f := fun f hf =>
      h f (hdisjoint f hf)

section

variable {crypto : Crypto}

theorem fitsAt_account_of_charge {id : AccountId} {v v' : Json}
    (hagree : FieldsAgree chargeFields v v') (h : FitsAt crypto (Keylet.account crypto id) v) :
    FitsAt crypto (Keylet.account crypto id) v' := by
  have htype := entryType_congr (hagree "LedgerEntryType" (by decide))
  have hamount := getXrpAmount_congr (hagree "Amount" (by decide))
  have hroot : entryType v'=some "AccountRoot" := htype.trans h.account.1
  exact ⟨fun e he hk => Describes.congr htype hamount (h.kind e he hk),
    by simp [hamount,h.account.2],by simp [hroot],
    by simp [hroot]⟩

variable {extra : List (String × Json)}

theorem entryType_makePage (crypto : Crypto) (root : Hash256) (thread : Bool) (id : AccountId)
    (hextra : extra=[] ∨ ∃ x, extra=[("IndexPrevious",x)]) (indexes : List String) :
    entryType (makePage root thread (describeOwner crypto id) extra indexes)=some "DirectoryNode" ∧
      getXrpAmount (makePage root thread (describeOwner crypto id) extra indexes)=none := by
  obtain rfl | ⟨x,rfl⟩ := hextra <;> cases thread <;>
    exact ⟨by simp [entryType,strField,makePage,describeOwner,Json.get_object,Json.find,Json.asStr],
      by
        simp [getXrpAmount,getU64StrField,strField,makePage,describeOwner,Json.get_object,
        Json.find]⟩

theorem fitsAt_makePage (hsep : crypto.Separated) (id : AccountId) {p : ℕ} (hp : p < 2^64)
    (thread : Bool) (hextra : extra=[] ∨ ∃ x, extra=[("IndexPrevious",x)]) (indexes : List String) :
    FitsAt crypto (Keylet.dirNode crypto (Keylet.ownerDir crypto id) p)
      (makePage (Keylet.ownerDir crypto id) thread (describeOwner crypto id) extra indexes) := by
  obtain ⟨htype,hamount⟩ := entryType_makePage crypto (Keylet.ownerDir crypto id) thread id hextra
    indexes
  exact fitsAt_of_key hsep (e := .page id p) hp ⟨htype,hamount⟩ (by simp [htype])

theorem engineClosed_fitsAt (hsep : crypto.Separated) : EngineClosed crypto (FitsAt crypto) where
  pages := fun id =>
    { rewrite := fun p hp v v' hagree h => h.congr (get_eq_of_fieldsAgree hagree (by decide))
      make := fun p hp thread extra indexes hextra =>
        fitsAt_makePage hsep id hp thread hextra indexes }
  charge := fun id v v' hagree h => fitsAt_account_of_charge hagree h
  record := fun k v v' hagree h => h.congr (get_eq_of_fieldsAgree hagree (by decide))

end

/-! ## Moves of XRP -/

section

variable {crypto : Crypto} {below : ReadView} {s s' s'' : Sandbox below}

/-- From one sandbox to another the entries lose `out` and gain `gain`, and they fit in the end. -/
structure Moved (crypto : Crypto) (s s' : Sandbox below) (out gain : ℕ) : Prop where
  typed : WellTyped crypto s'.read
  worth : worth s'.read+out=worth s.read+gain
  destroyed : s'.changes.destroyedDrops=s.changes.destroyedDrops

variable {a b : ℕ} {id : AccountId} {k : Hash256}

theorem Moved.trans {c d : ℕ} (h : Moved crypto s s' a b) (h' : Moved crypto s' s'' c d) :
    Moved crypto s s'' (a+c) (b+d) := by
  have h₁ := h.worth
  have h₂ := h'.worth
  exact ⟨h'.typed,by omega,h'.destroyed.trans h.destroyed⟩

theorem Moved.adjust {c d : ℕ} (h : Moved crypto s s' a b) (hab : a+d=b+c) :
    Moved crypto s s' c d := by
  have hw := h.worth
  exact ⟨h.typed,by omega,h.destroyed⟩

theorem moved_of_write (hs : WellTyped crypto s.read) {v : Json}
    (h : s.Became s' (update s.read k (some (.json v)))) (hv : FitsAt crypto k v) :
    Moved crypto s s' ((s.read k).elim 0 drops) (drops (.json v)) := by
  refine ⟨?_,?_,h.destroyedDrops⟩ <;> rw [h.read]
  · exact AllEntries.update hs hv
  · exact worth_update s.read k (some (.json v))

theorem moved_of_erase (hs : WellTyped crypto s.read) (h : s.Became s' (update s.read k none)) :
    Moved crypto s s' ((s.read k).elim 0 drops) 0 := by
  refine ⟨?_,?_,h.destroyedDrops⟩ <;> rw [h.read]
  · exact AllEntries.erase hs k
  · exact worth_update s.read k none

theorem moved_of_account (hs : WellTyped crypto s.read) {account account' : Json}
    (hread : s.read (Keylet.account crypto id)=some (.json account))
    (hagree : FieldsAgree chargeFields account account')
    (h : s.Became s' (update s.read (Keylet.account crypto id) (some (.json account')))) :
    Moved crypto s s' (getBalance account) (getBalance account') := by
  have hfit := hs _ _ hread
  have hfit' := fitsAt_account_of_charge hagree hfit
  have hm := moved_of_write hs h hfit'
  rw [hread,elim_some,drops_accountRoot hfit.account.1,drops_accountRoot hfit'.account.1] at hm
  exact hm

theorem moved_of_same (hs : WellTyped crypto s.read) (h : s.Became s' s.read) :
    Moved crypto s s' 0 0 := by
  refine ⟨?_,?_,h.destroyedDrops⟩ <;> rw [h.read]
  exact hs

/-- A program that moves no XRP: it writes pages of owner directories only. -/
def Neutral {α : Type} (crypto : Crypto) (x : ViewM below α) : Prop :=
  ∀ ⦃s a s'⦄, x s=.ok (a,s') → WellTyped crypto s.read →
    Moved crypto s s' 0 0 ∧ ∀ k∉ownerPages crypto, s'.read k=s.read k

theorem neutral_pure {α : Type} (a : α) : Neutral crypto (pure a : ViewM below α) := by
  intro s b s' h hs
  obtain ⟨-,rfl⟩ := ViewM.pure_eq_ok.mp h
  exact ⟨⟨hs,rfl,rfl⟩,fun _ _ => rfl⟩

theorem neutral_bind_pure {α β : Type} {x : ViewM below α} (hx : Neutral crypto x) (f : α → β) :
    Neutral crypto (x >>= fun a => pure (f a)) := by
  intro s b s' h hs
  obtain ⟨a,s₁,h₁,h₂⟩ := ViewM.bind_eq_ok.mp h
  obtain ⟨-,rfl⟩ := ViewM.pure_eq_ok.mp h₂
  exact hx h₁ hs

theorem neutral_of_frame {α : Type} {x : ViewM below α} {Q : α → Prop}
    (hframe : ViewM.Frame (pageKeys crypto (Keylet.ownerDir crypto id)) x)
    (hm : ViewM.Maintains (FitsAt crypto) x Q) : Neutral crypto x := by
  intro s a s' h hs
  have hs' : WellTyped crypto s'.read := (hm h hs).1
  have hpage : ∀ {read : Hash256 → Option Data}, WellTyped crypto read →
      ∀ k∈pageKeys crypto (Keylet.ownerDir crypto id), (read k).elim 0 drops=0 := by
    rintro read hread k ⟨p,hp,rfl⟩
    exact hread.weightless (e := .page id p) hp fun v h => by
      simp [drops,accountDrops,lockedDrops,h.1]
  refine ⟨⟨hs',?_,(hframe h).2.1⟩,fun k hk => hframe.read_eq h fun hk' => hk ⟨id,hk'⟩⟩
  refine KeyedSum.total_congr fun k => ?_
  by_cases hk : k∈pageKeys crypto (Keylet.ownerDir crypto id)
  · rw [hpage hs' k hk,hpage hs k hk]
  · rw [hframe.read_eq h hk]

variable (hsep : crypto.Separated)
include hsep

theorem neutral_addToOwnerDir (id : AccountId) (entry : Hash256) :
    Neutral crypto (addToOwnerDir crypto id entry : ViewM below ℕ) :=
  neutral_of_frame (frame_addToOwnerDir crypto id entry)
    (maintains_addToOwnerDir (engineClosed_fitsAt hsep) id entry)

theorem neutral_dirRemove (id : AccountId) (entry : Hash256) (keepRoot : Bool) :
    Neutral crypto
      (dirRemove crypto (Keylet.ownerDir crypto id) entry keepRoot : ViewM below Unit) :=
  neutral_of_frame (frame_dirRemove crypto _ entry keepRoot)
    (maintains_dirRemove ((engineClosed_fitsAt hsep).pages id).toRewriteClosed entry keepRoot)

theorem neutral_linkDestination (src dst : AccountId) (entry : Hash256) :
    Neutral crypto (linkDestination crypto src dst entry : ViewM below (Option ℕ)) := by
  unfold linkDestination
  split
  · exact neutral_bind_pure (neutral_addToOwnerDir hsep dst entry) some
  · exact neutral_pure none

theorem neutral_unlinkDestination (src dst : AccountId) (entry : Hash256) :
    Neutral crypto (unlinkDestination crypto src dst entry : ViewM below Unit) := by
  unfold unlinkDestination
  split
  · exact neutral_dirRemove hsep dst entry true
  · exact neutral_pure ()

theorem neutral_unlinkNamed (owner : AccountId) (escrow : Json) (entry : Hash256) :
    Neutral crypto (unlinkNamed crypto owner escrow entry : ViewM below Unit) := by
  unfold unlinkNamed
  split
  · exact neutral_unlinkDestination hsep owner _ entry
  · exact neutral_pure ()

end

/-! ## The transactors -/

section

variable {crypto : Crypto} {below : ReadView} {s s' : Sandbox below} {tx : Json}

variable {account channel entry v : Json} {amount chAmount claimAmount : ℕ} {chDst : String}
  {dst id : AccountId} {k key : Hash256}

theorem newAccountRoot_spec (address : String) {balance : ℕ} (hbalance : balance < 2^64) :
    entryType (newAccountRoot address balance)=some "AccountRoot" ∧
      getXrpAmount (newAccountRoot address balance)=none ∧
      getBalance (newAccountRoot address balance)=balance := by
  simp [newAccountRoot,entryType,getXrpAmount,getBalance,getU64StrField,strField,Json.get_object,
    Json.find,
    Json.asStr,parseU64_natString hbalance]

theorem FitsAt.apart (h : FitsAt crypto k v) (hlock : IsLock v) {e : EntryKey} (he : e.InRange)
    (hnot : ∀ id n, e≠.escrow id n) : k≠e.hash crypto := by
  intro hk
  have hd := h.kind e he hk.symm
  cases e with
  | escrow id n => exact hnot id n rfl
  | _ => simp [IsLock,hd.1] at hlock

theorem FitsAt.ne_account (h : FitsAt crypto k v) (hlock : IsLock v) (id : AccountId) :
    k≠Keylet.account crypto id := h.apart hlock (e := .account id) trivial (by simp)

theorem FitsAt.notMem_ownerPages (h : FitsAt crypto k v) (hlock : IsLock v) :
    k∉ownerPages crypto := by
  rintro ⟨id,p,hp,he⟩
  exact h.apart hlock (e := .page id p) hp (by simp) he.symm

theorem WellTyped.balance_add_drops_le (hs : WellTyped crypto s.read)
    (haccount : s.read (Keylet.account crypto id)=some (.json account))
    (hentry : s.read k=some (.json entry)) (hlock : IsLock entry) :
    getBalance account+drops (.json entry) ≤ worth s.read := by
  have hle := drops_add_le_worth haccount hentry ((hs _ _ hentry).ne_account hlock id).symm
  rwa [drops_accountRoot (hs _ _ haccount).account.1] at hle

theorem moved_of_credit (hs : WellTyped crypto s.read)
    (hread : s.read (Keylet.account crypto id)=some (.json account))
    (hfits : getBalance account+amount < 2^64)
    (h : s.Became s' (update s.read (Keylet.account crypto id)
      (some (.json (setBalance account ((getBalance account+amount) % 2^64)))))) : Moved crypto s s'
        0 amount := by
  have hm := moved_of_account hs hread (setBalance_fields account _) h
  rw [Nat.mod_eq_of_lt hfits,getBalance_setBalance account hfits] at hm
  exact hm.adjust (by omega)

variable (hsep : crypto.Separated)
include hsep

theorem fitsAt_escrowEntry (id : AccountId) {n : ℕ} (hn : n < 2^32)
    (accountStr destinationStr : String) (hamount : amount < 2^64) (ownerNode : ℕ)
    (destNode : Option ℕ) :
    FitsAt crypto (Keylet.escrow crypto id n)
      (escrowEntry tx accountStr destinationStr amount ownerNode destNode) := by
  obtain ⟨htype,-,hbalance⟩ :=
    escrowEntry_spec tx accountStr destinationStr hamount ownerNode destNode
  exact fitsAt_of_key hsep (e := .escrow id n) hn htype fun _ => hbalance

theorem fitsAt_payChannelEntry (src dst : AccountId) (n : ℕ) (accountStr destinationStr : String)
    (hamount : amount < 2^64) (ownerNode : ℕ) (destNode : Option ℕ) :
    FitsAt crypto (Keylet.payChannel crypto src dst n)
      (payChannelEntry tx accountStr destinationStr amount ownerNode destNode) := by
  obtain ⟨htype,-,hbalance⟩ :=
    payChannelEntry_spec tx accountStr destinationStr hamount ownerNode destNode
  refine ⟨fun e he hk => (hsep.payChannel src dst n e he hk.symm).elim,fun _ _ =>
    .inr htype,fun _ => hbalance,
    fun _ => ?_⟩
  rw [hbalance]
  exact Nat.zero_le _

theorem fitsAt_accountRoot (id : AccountId) (htype : entryType v=some "AccountRoot")
    (hamount : getXrpAmount v=none) : FitsAt crypto (Keylet.account crypto id) v :=
  fitsAt_of_key hsep (e := .account id) trivial ⟨htype,hamount⟩ (by simp [htype])

theorem moved_of_creation (hs : WellTyped crypto s.read) {src : AccountId} {ownerNode : ℕ}
    {destNode : Option ℕ} {paid listed linked inserted : Sandbox below}
    (hread : s.read (Keylet.account crypto src)=some (.json account))
    (hfunded : amount ≤ getBalance account)
      (hpay : s.Became paid (update s.read (Keylet.account crypto src)
      (some (.json (adjustOwnerCount (setBalance account (getBalance account-amount)) 1)))))
    (hlist : addToOwnerDir crypto src key paid=.ok (ownerNode,listed))
    (hlink : linkDestination crypto src dst key listed=.ok (destNode,linked))
      (hfresh : linked.read key=none)
    (hinsert : linked.Became inserted (update linked.read key (some (.json entry))))
    (htouch : inserted.Became s' inserted.read) (hfit : FitsAt crypto key entry)
    (hdrops : drops (.json entry)=amount) : Moved crypto s s' 0 0 := by
  have hpaid := moved_of_account hs hread (adjustBalance_fields account _ 1) hpay
  rw [getBalance_adjustBalance _ (lt_of_le_of_lt (Nat.sub_le _ _) (getBalance_lt account))] at hpaid
  have hlisted := (neutral_addToOwnerDir hsep _ _ hlist hpaid.typed).1
  have hlinked := (neutral_linkDestination hsep _ _ _ hlink hlisted.typed).1
  have hinserted := moved_of_write hlinked.typed hinsert hfit
  rw [hfresh,elim_none,hdrops] at hinserted
  have htouched := moved_of_same hinserted.typed htouch
  exact ((((hpaid.trans hlisted).trans hlinked).trans hinserted).trans htouched).adjust (by omega)

theorem EscrowCreation.moved (hs : WellTyped crypto s.read) (c : EscrowCreation crypto tx s s') :
    Moved crypto s s' 0 0 := by
  have hamount := getXrpAmount_lt c.amountField
  obtain ⟨htype,hfield,-⟩ := escrowEntry_spec tx c.accountStr c.destinationStr hamount c.ownerNode
    c.destNode
  refine moved_of_creation hsep hs c.readAccount
    c.funded c.pay c.list c.link c.fresh c.insert c.touch
    (fitsAt_escrowEntry hsep c.src (txSeqProxyValue_lt tx) _ _ hamount _ _) ?_
  rw [drops_escrow htype,hfield,getD_some]

theorem ChannelCreation.moved (hs : WellTyped crypto s.read) (c : ChannelCreation crypto tx s s') :
    Moved crypto s s' 0 0 := by
  have hamount := getXrpAmount_lt c.amountField
  obtain ⟨htype,hfield,hzero⟩ :=
    payChannelEntry_spec tx c.accountStr c.destinationStr hamount c.ownerNode c.destNode
  refine moved_of_creation hsep hs c.readAccount
    c.funded c.pay c.list c.link c.fresh c.insert c.touch
    (fitsAt_payChannelEntry hsep c.src c.dst _ _ _ hamount _ _) ?_
  rw [drops_payChannel htype,hfield,hzero,getD_some,Nat.sub_zero]

theorem moved_of_removal (hs : WellTyped crypto s.read) {unlisted unlinked : Sandbox below}
    {unlink : ViewM below Unit} {keepRoot : Bool} {u u' : Unit}
    (hread : s.read key=some (.json entry)) (hlock : IsLock entry)
    (hunlist : dirRemove crypto (Keylet.ownerDir crypto id) key keepRoot s=.ok (u,unlisted))
    (hneutral : Neutral crypto unlink) (hunlink : unlink unlisted=.ok (u',unlinked))
    (herase : unlinked.Became s' (update unlinked.read key none)) :
      Moved crypto s s' (drops (.json entry)) 0 := by
  obtain ⟨hunlisted,hother⟩ := neutral_dirRemove hsep _ _ _ hunlist hs
  obtain ⟨hunlinked,hother'⟩ := hneutral hunlink hunlisted.typed
  -- the entry is still there when it is erased
  have hkept : unlinked.read key=some (.json entry) := by
    have hpages := (hs _ _ hread).notMem_ownerPages hlock
    rw [hother' _ hpages,hother _ hpages,hread]
  have herased := moved_of_erase hunlinked.typed herase
  rw [hkept,elim_some] at herased
  simpa using (hunlisted.trans hunlinked).trans herased

theorem Credited.moved (hs : WellTyped crypto s.read) {destinationStr : String}
    (hamount : amount < 2^64)
    (hfits : ∀ account, s.read (Keylet.account crypto dst)=some (.json account) →
      getBalance account+amount < 2^64)
    (h : Credited crypto dst destinationStr amount s s') :
    Moved crypto s s' 0 amount ∧ ∀ k≠Keylet.account crypto dst, s'.read k=s.read k := by
  cases h with
  | there account hread h =>
    refine ⟨moved_of_credit hs hread (hfits account hread) h,fun k hk => ?_⟩
    rw [h.read,update_of_ne hk]
  | created hread h =>
    obtain ⟨htype,hnone,hbalance⟩ := newAccountRoot_spec destinationStr hamount
    have hm := moved_of_write hs h (fitsAt_accountRoot hsep dst htype hnone)
    rw [hread,drops_accountRoot htype,hbalance] at hm
    refine ⟨hm,fun k hk => ?_⟩
    rw [h.read,update_of_ne hk]

theorem EscrowFinished.moved (hs : WellTyped crypto s.read) (hworth : worth s.read ≤ 10^17)
    (c : EscrowFinished crypto tx s s') : Moved crypto s s' 0 0 := by
  have hamount := getXrpAmount_lt c.amountField
  have hfit := hs _ _ c.readEscrow
  have htype := hfit.escrowKey c.seq_lt
  have hdrops : drops (.json c.escrow)=c.amount := by rw [drops_escrow htype,c.amountField]; rfl
  have hfits : ∀ account, s.read (Keylet.account crypto c.dst)=some (.json account) →
      getBalance account+c.amount < 2^64 := by
    intro account hread
    have hle := hs.balance_add_drops_le hread c.readEscrow (.inl htype)
    omega
  obtain ⟨hcredited,hother⟩ := c.credit.moved hsep hs hamount hfits
  have herased := moved_of_removal hsep hcredited.typed
    ((hother _ (hfit.ne_account (.inl htype) c.dst)).trans c.readEscrow) (.inl htype) c.unlist
    (neutral_unlinkDestination hsep _ _ _) c.unlink c.erase
  have hcounted := moved_of_account herased.typed c.readAccount
    ((adjustOwnerCount_fields c.account (-1)).mono (by simp [chargeFields])) c.count
  rw [getBalance_congr (adjustOwnerCount_fields c.account (-1) "Balance" (by decide))] at hcounted
  exact ((hcredited.trans herased).trans hcounted).adjust (by omega)

theorem EscrowCancelled.moved (hs : WellTyped crypto s.read) (hworth : worth s.read ≤ 10^17)
    (c : EscrowCancelled crypto tx s s') : Moved crypto s s' 0 0 := by
  have hfit := hs _ _ c.readEscrow
  have htype := hfit.escrowKey c.seq_lt
  have hdrops : drops (.json c.escrow)=c.amount := by rw [drops_escrow htype,c.amountField]; rfl
  have hle := hs.balance_add_drops_le c.readAccount c.readEscrow (.inl htype)
  have hfits : getBalance c.account+c.amount < 2^64 := by omega
  have hcredited := moved_of_account hs c.readAccount (adjustBalance_fields c.account _ (-1))
    c.credit
  rw [Nat.mod_eq_of_lt hfits,getBalance_adjustBalance _ hfits] at hcredited
  have hkept : c.credited.read (Keylet.escrow crypto c.owner c.seq)=some (.json c.escrow) := by
    rw [c.credit.read,update_of_ne (hfit.ne_account (.inl htype) c.owner),c.readEscrow]
  have herased := moved_of_removal hsep hcredited.typed hkept (.inl htype) c.unlist
    (neutral_unlinkNamed hsep _ _ _) c.unlink
    c.erase
  exact (hcredited.trans herased).adjust (by omega)

omit hsep in
theorem fundedChannel_spec (tx channel : Json) (chAmount amount : ℕ) :
    entryType (fundedChannel tx channel chAmount amount)=entryType channel ∧
      getXrpAmount (fundedChannel tx channel chAmount amount)=some ((chAmount+amount) % 2^64) ∧
      getBalance (fundedChannel tx channel chAmount amount)=getBalance channel := by
  have hlt : (chAmount+amount) % 2^64 < 2^64 := Nat.mod_lt _ (by simp)
  have hget : ∀ f≠"Expiration", (fundedChannel tx channel chAmount amount).get f =
      (channel.set "Amount" (.str (natString ((chAmount+amount) % 2^64)))).get f :=
    fun f hf => get_setOptional_ne hf _ _
  refine ⟨?_,?_,?_⟩
  · rw [entryType_congr (hget _ (by decide))]
    exact entryType_congr (Json.get_set_ne (by decide) _ _)
  · rw [getXrpAmount_congr (hget _ (by decide))]
    simp only [getXrpAmount,getU64StrField,strField,Json.get_set_self,bind_some,Json.asStr,
      parseU64_natString hlt]
  · rw [getBalance_congr (hget _ (by decide))]
    exact getBalance_congr (Json.get_set_ne (by decide) _ _)

omit hsep in
theorem FitsAt.rewrite {v' : Json} (h : FitsAt crypto k v) (hlock : IsLock v)
    (hsame : entryType v'=entryType v) (hescrow : entryType v=some "Escrow" → getBalance v'=0)
    (hamount : getXrpAmount v'=some amount) (hle : getBalance v' ≤ amount) :
      FitsAt crypto k v' := by
  refine ⟨fun e he hk => ?_,fun _ _ => IsLock.congr hsame hlock,fun ht =>
    hescrow (hsame ▸ ht),fun _ => by rwa [hamount]⟩
  cases e with
  | escrow id n => exact hsame.trans (h.kind (.escrow id n) he hk)
  | _ => exact (h.apart hlock he (by simp) hk.symm).elim

omit hsep in
/-- A fund that does not overflow moves the amount into the channel; one that does loses XRP. -/
theorem ChannelFunding.moved (hs : WellTyped crypto s.read) (c : ChannelFunding crypto tx s s')
    (hlock : IsLock c.channel) :
    (c.chAmount+c.amount < 2^64 → Moved crypto s s' 0 0) ∧ (2^64 ≤ c.chAmount+c.amount →
        worth s'.read < worth s.read ∧ s'.changes.destroyedDrops=s.changes.destroyedDrops) := by
  have hfit := hs _ _ c.readChannel
  obtain ⟨hsame,hfield,hbal⟩ := fundedChannel_spec tx c.channel c.chAmount c.amount
  have hescrow : entryType c.channel=some "Escrow" →
    getBalance (fundedChannel tx c.channel c.chAmount c.amount)=0 :=
    fun h => hbal.trans (hfit.escrow h)
  have hle := hfit.balance_le hlock c.chAmountField
  have hdrops := hlock.drops_eq hfit.escrow c.chAmountField
  have hdrops' := (IsLock.congr hsame hlock).drops_eq (fun h => hescrow (hsame ▸ h)) hfield
  have hpayBalance := getBalance_setBalance c.account
    (lt_of_le_of_lt (Nat.sub_le _ c.amount) (getBalance_lt c.account))
  have haffordable := c.affordable
  rw [hbal] at hdrops'
  constructor
  · intro hlt
    rw [Nat.mod_eq_of_lt hlt] at hfield hdrops'
    have hfunded := moved_of_write hs c.fund (hfit.rewrite hlock hsame hescrow hfield (by omega))
    have hpaid := moved_of_account hfunded.typed c.readAccount (setBalance_fields c.account _) c.pay
    rw [hpayBalance] at hpaid
    refine (hfunded.trans hpaid).adjust ?_
    rw [c.readChannel,elim_some]
    omega
  · intro hover
    have haccount : s.read (Keylet.account crypto c.id)=some (.json c.account) := by
      rw [← c.readAccount,c.fund.read,update_of_ne (hfit.ne_account hlock c.id).symm]
    have hroot := (hs _ _ haccount).account.1
    have hfund := worth_update s.read c.channelKey
      (some (.json (fundedChannel tx c.channel c.chAmount c.amount)))
    have hpay := worth_update c.funded.read (Keylet.account crypto c.id)
      (some (.json (setBalance c.account (getBalance c.account-c.amount))))
    rw [← c.fund.read,c.readChannel] at hfund
    rw [← c.pay.read,c.readAccount] at hpay
    simp only [elim_some] at hfund hpay
    rw [drops_accountRoot hroot,drops_accountRoot
      ((entryType_congr (setBalance_fields c.account _ "LedgerEntryType" (by decide))).trans hroot),
        hpayBalance] at hpay
    have hmod : (c.chAmount+c.amount) % 2^64 < c.chAmount+c.amount :=
      lt_of_lt_of_le (Nat.mod_lt _ (by simp)) hover
    have hchAmount := getXrpAmount_lt c.chAmountField
    exact ⟨by omega,c.pay.destroyedDrops.trans c.fund.destroyedDrops⟩

omit hsep in
theorem claimBalance_spec {claimed : Json}
    (h : claimBalance tx channel chAmount=.ok (claimed,claimAmount)) (hchAmount : chAmount < 2^64)
    (hle : getBalance channel ≤ chAmount) :
    FieldsAgree ["Balance"] channel claimed ∧ getBalance claimed=getBalance channel+claimAmount ∧
      getBalance channel+claimAmount ≤ chAmount ∧
      (0 < claimAmount ↔ ∃ newBalance, getU64StrField tx "Balance"=some newBalance ∧
        getBalance channel < newBalance) := by
  unfold claimBalance at h
  split at h
  · rename_i hnone
    cases h
    exact ⟨fun _ _ => rfl,by omega,by omega,by simp [hnone]⟩
  rename_i newBalance hsome
  split_ifs at h with hle' hge
  cases h
  have hbalance : getBalance (channel.set "Balance" (.str (natString newBalance)))=newBalance :=
    getBalance_setBalance channel (by omega)
  refine ⟨fieldsAgree_set (by simp) _ _,by omega,by omega,?_⟩
  simp only [hsome,Option.some.injEq,exists_eq_left']
  omega

theorem ChannelClosed.moved {channelKey : Hash256} {chSrc : String} (hs : WellTyped crypto s.read)
    (hworth : worth s.read < 2^64)
    (c : ChannelClosed crypto channelKey channel chAmount chSrc chDst s s')
    (hread : s.read channelKey=some (.json entry)) (hlock : IsLock entry)
    (hle : chAmount-getBalance channel ≤ drops (.json entry)) :
    Moved crypto s s' (drops (.json entry)) (chAmount-getBalance channel) := by
  have hsum := hs.balance_add_drops_le c.readAccount hread hlock
  have hbalance : getBalance (refunded c.account (chAmount-getBalance channel)) =
      getBalance c.account+(chAmount-getBalance channel) := by
    rw [getBalance_refunded,Nat.mod_eq_of_lt (by omega)]
  have hagree : FieldsAgree chargeFields c.account
    (refunded c.account (chAmount-getBalance channel)) := by
    unfold refunded
    split
    · exact adjustBalance_fields c.account _ (-1)
    · exact (adjustOwnerCount_fields c.account (-1)).mono (by simp [chargeFields])
  have hpaid := moved_of_account hs c.readAccount hagree c.pay
  rw [hbalance] at hpaid
  have hkept : c.refund.read channelKey=some (.json entry) := by
    rw [c.pay.read,update_of_ne ((hs _ _ hread).ne_account hlock c.src),hread]
  have herased := moved_of_removal hsep hpaid.typed hkept hlock c.unlist
    (neutral_unlinkDestination hsep _ _ _) c.unlink
    c.erase
  exact (hpaid.trans herased).adjust (by omega)

omit hsep in
theorem ClaimCredited.moved (hs : WellTyped crypto s.read)
    (hfits : ∀ dst account, s.read (Keylet.account crypto dst)=some (.json account) →
      getBalance account+claimAmount < 2^64) (h : ClaimCredited crypto chDst claimAmount s s') :
    Moved crypto s s' 0 claimAmount ∧ ∀ k, (∀ id, k≠Keylet.account crypto id) →
      s'.read k=s.read k := by
  cases h with
  | nothing hzero h =>
    subst hzero
    subst h
    exact ⟨⟨hs,rfl,rfl⟩,fun _ _ => rfl⟩
  | paid dst account hpos hdecode hread h =>
    refine ⟨moved_of_credit hs hread (hfits dst account hread) h,fun k hk => ?_⟩
    rw [h.read,update_of_ne (hk dst)]

/-- The claim of a balance on an escrow that leaves the escrow where it is. -/
def ChannelClaim.RaisesEscrow (c : ChannelClaim crypto tx s s') : Prop :=
  entryType c.channel=some "Escrow" ∧ 0 < c.claimAmount ∧
    ¬ (getFlags tx &&& tfClose≠0 ∧ c.accountStr≠c.chSrc)

omit hsep in
theorem ChannelClaim.isLock (hs : WellTyped crypto s.read) (c : ChannelClaim crypto tx s s') :
    IsLock c.channel :=
  (hs _ _ c.readChannel).locked (by rw [c.chAmountField]; rfl) (by rw [c.chSrcField]; rfl)

omit hsep in
/-- An escrow or channel is rewritten as the claim left it: a channel loses what was claimed. -/
theorem ChannelClaim.moved_of_rewrite (hs : WellTyped crypto s.read)
    (c : ChannelClaim crypto tx s s')
    (hspec : getBalance c.claimed=getBalance c.channel+c.claimAmount ∧
      getBalance c.channel+c.claimAmount ≤ c.chAmount)
        (hagree : FieldsAgree ["Balance"] c.channel c.claimed)
    (hcredited : Moved crypto s c.credited 0 c.claimAmount)
    (hkept : c.credited.read c.channelKey=some (.json c.channel))
    (hv : ∀ f∈worthFields, v.get f=c.claimed.get f)
    (h : c.credited.Became s' (update c.credited.read c.channelKey (some (.json v)))) :
    (entryType c.channel=some "Escrow" → 0 < c.claimAmount →
        worth s.read < worth s'.read ∧ s'.changes.destroyedDrops=s.changes.destroyedDrops) ∧
      ((entryType c.channel=some "Escrow" → c.claimAmount=0) → Moved crypto s s' 0 0) := by
  have hlock := c.isLock hs
  have hfit := hs _ _ c.readChannel
  have hsame : entryType v=entryType c.channel :=
    (entryType_congr (hv _ (by simp [worthFields]))).trans (entryType_congr (hagree _ (by decide)))
  have hamount : getXrpAmount v=some c.chAmount :=
    ((getXrpAmount_congr (hv _ (by simp [worthFields]))).trans
      (getXrpAmount_congr (hagree _ (by decide)))).trans
      c.chAmountField
  have hbalance : getBalance v=getBalance c.channel+c.claimAmount :=
    (getBalance_congr (hv _ (by simp [worthFields]))).trans hspec.1
  constructor
  · intro hescrow hpos
    have hw := worth_update c.credited.read c.channelKey (some (.json v))
    rw [← h.read,hkept,elim_some,elim_some,drops_escrow hescrow,drops_escrow (hsame.trans hescrow),
      c.chAmountField,hamount] at hw
    have hc := hcredited.worth
    exact ⟨by omega,h.destroyedDrops.trans hcredited.destroyed⟩
  · intro hzero
    have hfit' := hfit.rewrite hlock hsame (fun ht => by rw [hbalance,hzero ht,hfit.escrow ht])
      hamount
      (hbalance ▸ hspec.2)
    have hwritten := moved_of_write hcredited.typed h hfit'
    have hdrops := hlock.drops_eq hfit.escrow c.chAmountField
    have hdrops' := (IsLock.congr hsame hlock).drops_eq hfit'.escrow hamount
    have := hspec.2
    refine (hcredited.trans hwritten).adjust ?_
    rw [hkept,elim_some]
    omega

/-- A claim moves XRP, unless it raises an escrow: that creates XRP. -/
theorem ChannelClaim.moved (hs : WellTyped crypto s.read) (hworth : worth s.read ≤ 10^17)
    (c : ChannelClaim crypto tx s s') : (c.RaisesEscrow → worth s.read < worth s'.read ∧
      s'.changes.destroyedDrops=s.changes.destroyedDrops) ∧
      (¬ c.RaisesEscrow → Moved crypto s s' 0 0) := by
  have hlock := c.isLock hs
  have hfit := hs _ _ c.readChannel
  have hchAmount := getXrpAmount_lt c.chAmountField
  have hle := hfit.balance_le hlock c.chAmountField
  have hdrops := hlock.drops_eq hfit.escrow c.chAmountField
  obtain ⟨hagree,hbalance,hclaimLe,-⟩ := claimBalance_spec c.claim hchAmount hle
  have hfits : ∀ dst account, s.read (Keylet.account crypto dst)=some (.json account) →
      getBalance account+c.claimAmount < 2^64 := by
    intro dst account hread
    have hsum := hs.balance_add_drops_le hread c.readChannel hlock
    omega
  obtain ⟨hcredited,hother⟩ := c.credit.moved hs hfits
  have hkept : c.credited.read c.channelKey=some (.json c.channel) := by
    rw [hother _ (hfit.ne_account hlock),c.readChannel]
  have hrewrite := fun {v : Json} =>
    c.moved_of_rewrite (v := v) hs ⟨hbalance,hclaimLe⟩ hagree hcredited hkept
  have hzero : ¬ (getFlags tx &&& tfClose≠0 ∧ c.accountStr≠c.chSrc) → ¬ c.RaisesEscrow →
      entryType c.channel=some "Escrow" → c.claimAmount=0 := by
    intro hopen hraises hescrow
    by_contra hpos
    exact hraises ⟨hescrow,by omega,hopen⟩
  cases c.settle with
  | kept hflag h =>
    have hopen : ¬ (getFlags tx &&& tfClose≠0 ∧ c.accountStr≠c.chSrc) := fun hc => hc.1 hflag
    obtain ⟨hraise,hmove⟩ := hrewrite (fun _ _ => rfl) h
    exact ⟨fun hr => hraise hr.1 hr.2.1,fun hr => hmove (hzero hopen hr)⟩
  | requested hflag hsource h =>
    have hopen : ¬ (getFlags tx &&& tfClose≠0 ∧ c.accountStr≠c.chSrc) := fun hc => hc.2 hsource
    obtain ⟨hraise,hmove⟩ :=
      hrewrite (fun f hf => Json.get_set_ne (by rintro rfl; simp [worthFields] at hf) _ _) h
    exact ⟨fun hr => hraise hr.1 hr.2.1,fun hr => hmove (hzero hopen hr)⟩
  | closed hflag hsource closing =>
    have hw := hcredited.worth
    have hheld := drops_le_worth c.readChannel
    rw [hdrops] at hheld
    have hclosed := closing.moved hsep hcredited.typed (by omega) hkept hlock
      (by rw [hdrops,hbalance]; omega)
    refine ⟨fun hr => (hr.2.2 ⟨hflag,hsource⟩).elim,fun _ => (hcredited.trans hclosed).adjust ?_⟩
    rw [hdrops,hbalance]
    omega

end

/-! ## The engine -/

section

variable {env : Env} {tx : Json} {rules : Rules} (hsep : env.crypto.Separated)
include hsep

/-- The charge takes the fee from the entries and destroys it. -/
theorem Charged.moved {view : ReadView} {s : Sandbox view} (h : Charged env tx view rules s)
    (hl : WellTyped env.crypto view.read) :
    WellTyped env.crypto s.read ∧ worth s.read+getFee tx=worth view.read ∧
      s.changes.destroyedDrops=getFee tx := by
  have htyped : WellTyped env.crypto s.read := (engineClosed_fitsAt hsep).charged h hl
  obtain ⟨id,account,account',s₁,-,hread,hfee,hconsume,hupdate,-,hdest,-⟩ := chargeSender_ok h
  obtain ⟨hfields,hzero⟩ := consume_fields hconsume
  refine ⟨htyped,?_,hdest rfl hzero⟩
  -- the sequence costs nothing, and the ticket and its directory pages weigh nothing
  have hspent : worth s₁.read=worth view.read ∧
    s₁.read (Keylet.account env.crypto id)=some (.json account) := by
    cases hticket : u64Field tx "TicketSequence" with
    | none =>
      obtain ⟨-,rfl⟩ := consumeSeqOrTicket_none hticket hconsume
      exact ⟨rfl,hread⟩
    | some n =>
      obtain ⟨ticket,s₀,hticketRead,hunlink,herase,-⟩ := consumeSeqOrTicket_some hticket hconsume
      have hn : n % 2^32 < 2^32 := Nat.mod_lt _ (by simp)
      obtain ⟨hmoved,hother⟩ := neutral_of_frame (frame_unlinkTicket env.crypto id _ ticket)
        (maintains_unlinkTicket ((engineClosed_fitsAt hsep).pages id).toRewriteClosed _ ticket)
          hunlink hl
      have herased := (ViewM.erase_eq_ok herase).2.read
      have hw := worth_update s₀.read (Keylet.ticket env.crypto id (n % 2^32)) none
      have hweight : (s₀.read (Keylet.ticket env.crypto id (n % 2^32))).elim 0 drops=0 :=
        hmoved.typed.weightless (e := .ticket id (n % 2^32)) hn fun v h => by
          simp [drops,accountDrops,lockedDrops,h.1]
      rw [← herased,hweight] at hw
      have hm : worth s₀.read=worth view.read := hmoved.worth
      refine ⟨?_,?_⟩
      · simp only [elim_none] at hw
        omega
      have hnot : Keylet.account env.crypto id∉ownerPages env.crypto := by
        rintro ⟨id',hpage⟩
        exact hsep.account_notMem_pageKeys id id' hpage
      rw [herased,update_of_ne (hsep.account_ne_ticket id id hn),hother _ hnot,hread]
  have hfit := hl _ _ hread
  have hfit' := htyped (Keylet.account env.crypto id) account' (by rw [hupdate,update_self])
  have hw := worth_update s₁.read (Keylet.account env.crypto id) (some (.json account'))
  rw [← hupdate,hspent.1,hspent.2,elim_some,elim_some,drops_accountRoot hfit.account.1,
    drops_accountRoot hfit'.account.1] at hw
  have hbalance : getBalance account'+getFee tx=getBalance account := by
    rw [getBalance_congr (hfields _ (by decide)),getBalance_feeCharged hfee]
  omega

variable {fees : FeeSettings} {l l' : Ledger} {o : Outcome (l.view fees)} {txType : TransactionType}

omit hsep in
theorem Committed.worth_eq (hc : Committed env txType tx l o l') :
    worth l'.read=worth o.sandbox.read := by
  refine KeyedSum.total_congr fun k => ?_
  obtain ⟨hnone,hnone'⟩ | ⟨d,d',hd,hd',ha⟩ := hc.read_agreeOff k
  · rw [hnone,hnone']
  rw [hd,hd']
  obtain rfl | ⟨v,v',rfl,rfl,hfields⟩ := ha
  · rfl
  · exact drops_congr (get_eq_of_fieldsAgree hfields (by decide))

end

/-! ## Runs -/

/-- A fund that takes the amount of a channel out of the range of its type. -/
def OverfundsChannel (tx : Json) (l : Ledger) : Prop :=
  ∃ key entry chAmount amount, parseChannel tx=.ok key ∧ l.read key=some (.json entry) ∧
    getXrpAmount entry=some chAmount ∧ getXrpAmount tx=some amount ∧ 2^64 ≤ chAmount+amount

/-- A claim of a balance on an escrow, not one by which the destination closes it. -/
def ClaimsFromEscrow (tx : Json) (l : Ledger) : Prop :=
  ∃ key entry newBalance, parseChannel tx=.ok key ∧ l.read key=some (.json entry) ∧
    entryType entry=some "Escrow" ∧ getU64StrField tx "Balance"=some newBalance ∧ 0 < newBalance ∧
    ¬ (getFlags tx &&& tfClose≠0 ∧ strField tx "Account"≠strField entry "Account")

/-- A successful transaction that does not keep the sum. -/
def LeaksXrp (env : Env) (engine : TxEngine) (l : Ledger) (sub : Submission) : Prop :=
  (sub.apply env engine l).1=.ok .tesSuccess ∧
    (typeOf sub.tx=some .paymentChannelFund ∧ OverfundsChannel sub.tx l ∨
      typeOf sub.tx=some .paymentChannelClaim ∧ ClaimsFromEscrow sub.tx l)

def ConservesXrp (env : Env) (engine : TxEngine) (l : Ledger) (sub : Submission) : Prop :=
  (sub.apply env engine l).2.totalXrp=l.totalXrp

/-- An open ledger whose entries fit their keys, with no more XRP than there is. -/
structure XrpLedger (crypto : Crypto) (l : Ledger) : Prop where
  isOpen : l.isOpen=true
  typed : WellTyped crypto l.read
  supply : l.totalXrp ≤ 10^17

section

variable {env : Env} {engine : TxEngine}

variable {fees : FeeSettings} {l l' : Ledger} {o : Outcome (l.view fees)} {rules : Rules}
  {s : Sandbox (l.view fees)} {child : Sandbox s.toReadView} {tx : Json} {txType : TransactionType}

/-- The sum changes as the worth of the entries does after the charge. -/
theorem Committed.totalXrp_eq (hsep : env.crypto.Separated) (hl : XrpLedger env.crypto l)
    (hcharged : Charged env tx (l.view fees) rules s) (hc : Committed env txType tx l o l')
    (hfee : o.sandbox.changes.destroyedDrops=getFee tx) :
    l'.totalXrp+worth s.read=l.totalXrp+worth o.sandbox.read := by
  obtain ⟨-,hworth,-⟩ := hcharged.moved hsep hl.typed
  have hsupply := hl.supply
  rw [Tx.totalXrp_eq] at hsupply
  have hview : worth (l.view fees).read=worth l.read := rfl
  rw [Tx.totalXrp_eq,hc.worth_eq,hc.destroyedDrops,
    (destroyedAfter_eq_iff hfee).mpr (.inr (by omega)),Tx.totalXrp_eq]
  omega

theorem applied_totalXrp (hsep : env.crypto.Separated) (hl : XrpLedger env.crypto l)
    (hcharged : Charged env tx (l.view fees) rules s) (hsandbox : o.sandbox=s.mergeChild child)
    (hc : Committed env txType tx l o l') (hdestroyed : child.changes.destroyedDrops=0) :
    l'.totalXrp+worth s.read=l.totalXrp+worth child.read := by
  rw [← Sandbox.read_mergeChild,← hsandbox]
  refine hc.totalXrp_eq hsep hl hcharged ?_
  rw [hsandbox]
  change (s.changes.merge child.changes).destroyedDrops=_
  rw [SandboxChanges.destroyedDrops_merge,(hcharged.moved hsep hl.typed).2.2,hdestroyed,
    Nat.add_zero,
    Nat.mod_eq_of_lt (getFee_lt tx)]

theorem Charged.read_of_amount {view : ReadView} {s : Sandbox view}
    (h : Charged env tx view rules s) {read : Hash256 → Option Data}
    (hread : WellTyped env.crypto read) {k : Hash256} {v : Json} (hk : read k=some (.json v))
    (hamount : (getXrpAmount v).isSome) : s.read k=view.read k := by
  have hfit := hread _ _ hk
  obtain ⟨id,-,hsame⟩ := h.read_eq
  refine hsame k ?_ ?_ ?_
  · rintro rfl
    simp [hfit.account.2] at hamount
  · rintro ⟨p,hp,rfl⟩
    simp [(hfit.kind (.page _ _) hp rfl).2] at hamount
  · rintro n hn rfl
    simp [(hfit.kind (.ticket _ _) hn rfl).2] at hamount

theorem lockTransactor_moved (hsep : env.crypto.Separated) {t : Transactor}
    (ht : lockTransactor env.crypto txType=some t) (hl : XrpLedger env.crypto l)
    (hcharged : Charged env tx (l.view fees) rules s)
    (hpreclaim : t.preclaim tx (l.view fees) rules=.ok ())
    (hrun : t.apply tx rules fees s.child=.ok (.tesSuccess,child)) :
    (¬ (txType=.paymentChannelFund ∧ OverfundsChannel tx l ∨ txType=.paymentChannelClaim ∧
      ClaimsFromEscrow tx l) ∧
        Moved env.crypto s.child child 0 0) ∨
      ((txType=.paymentChannelFund ∧ OverfundsChannel tx l ∨ txType=.paymentChannelClaim ∧
        ClaimsFromEscrow tx l) ∧
        worth child.read≠worth s.read ∧ child.changes.destroyedDrops=0) := by
  obtain ⟨hs,hworth,-⟩ := hcharged.moved hsep hl.typed
  have hsupply := hl.supply
  rw [totalXrp_eq] at hsupply
  have hview : worth (l.view fees).read=worth l.read := rfl
  have hle : worth s.child.read ≤ 10^17 := by
    rw [Sandbox.read_child]
    omega
  have htyped : WellTyped env.crypto s.child.read := hs
  cases txType with
  | escrowCreate =>
    cases ht
    obtain ⟨-,⟨c⟩⟩ := escrowCreateApply_ok hrun
    exact .inl ⟨by simp,c.moved hsep htyped⟩
  | escrowFinish =>
    cases ht
    obtain ⟨-,⟨c⟩⟩ := escrowFinishApply_ok hrun
    exact .inl ⟨by simp,c.moved hsep htyped hle⟩
  | escrowCancel =>
    cases ht
    obtain ⟨-,⟨c⟩⟩ := escrowCancelApply_ok hrun
    exact .inl ⟨by simp,c.moved hsep htyped hle⟩
  | paymentChannelCreate =>
    cases ht
    obtain ⟨-,⟨c⟩⟩ := payChannelCreateApply_ok hrun
    exact .inl ⟨by simp,c.moved hsep htyped⟩
  | paymentChannelFund =>
    cases ht
    obtain ⟨-,⟨c⟩⟩ := payChannelFundApply_ok hrun
    have hsome : (getXrpAmount c.channel).isSome := by rw [c.chAmountField]; rfl
    have hsame : l.read c.channelKey=some (.json c.channel) := by
      rw [← c.readChannel]
      exact (hcharged.read_of_amount hs c.readChannel hsome).symm
    -- preclaim has read the account of the entry
    have hlock : IsLock c.channel := by
      obtain ⟨channel,hchannel,hpreclaim⟩ := bind_ok hpreclaim
      obtain ⟨key,hkey,hchannel⟩ := bind_ok hchannel
      obtain ⟨bytes,hbytes,hparse⟩ := bind_ok hchannel
      obtain ⟨accountStr,-,hpreclaim⟩ := bind_ok hpreclaim
      obtain ⟨chSrc,hsrc,-⟩ := bind_ok hpreclaim
      cases c.channelField.symm.trans hkey
      have hentry : l.read c.channelKey=some (.json channel) := by
        rw [← Data.parse_eq_ok hparse]
        exact okOr_eq_ok.mp hbytes
      cases hsame.symm.trans hentry
      exact (hl.typed _ _ hsame).locked hsome (by rw [okOr_eq_ok.mp hsrc]; rfl)
    obtain ⟨hmoved,hleak⟩ := c.moved htyped hlock
    by_cases hover : 2^64 ≤ c.chAmount+c.amount
    · obtain ⟨hlt,hdestroyed⟩ := hleak hover
      exact .inr
        ⟨.inl ⟨rfl,c.channelKey,c.channel,c.chAmount,c.amount,c.channelField,hsame,c.chAmountField,
        c.amountField,hover⟩,by rw [Sandbox.read_child] at hlt; omega,hdestroyed⟩
    · refine .inl ⟨?_,hmoved (by omega)⟩
      rintro (⟨-,key,entry,chAmount,amount,hkey,hentry,hch,ham,hover'⟩ | ⟨hne,-⟩)
      · cases c.channelField.symm.trans hkey
        cases hsame.symm.trans hentry
        cases c.chAmountField.symm.trans hch
        cases c.amountField.symm.trans ham
        exact hover hover'
      · cases hne
  | paymentChannelClaim =>
    cases ht
    obtain ⟨-,⟨c⟩⟩ := payChannelClaimApply_ok hrun
    have hsome : (getXrpAmount c.channel).isSome := by rw [c.chAmountField]; rfl
    have hsame : l.read c.channelKey=some (.json c.channel) := by
      rw [← c.readChannel]
      exact (hcharged.read_of_amount hs c.readChannel hsome).symm
    have hclaims : c.RaisesEscrow ↔ ClaimsFromEscrow tx l := by
      have hpos : entryType c.channel=some "Escrow" → (0 < c.claimAmount ↔
          ∃ newBalance, getU64StrField tx "Balance"=some newBalance ∧ 0 < newBalance) := by
        intro hescrow
        have hzero := (htyped _ _ c.readChannel).escrow hescrow
        have hspec := claimBalance_spec c.claim (getXrpAmount_lt c.chAmountField) (by omega)
        rw [hzero] at hspec
        exact hspec.2.2.2
      have hsource : strField tx "Account"≠strField c.channel "Account" ↔ c.accountStr≠c.chSrc := by
        rw [c.accountField,c.chSrcField]
        simp
      constructor
      · rintro ⟨hescrow,hraise,hopen⟩
        obtain ⟨newBalance,hfield,hnew⟩ := (hpos hescrow).mp hraise
        exact ⟨c.channelKey,c.channel,newBalance,c.channelField,hsame,hescrow,hfield,hnew,
          by rwa [hsource]⟩
      · rintro ⟨key,entry,newBalance,hkey,hentry,hescrow,hfield,hnew,hopen⟩
        cases c.channelField.symm.trans hkey
        cases hsame.symm.trans hentry
        exact ⟨hescrow,(hpos hescrow).mpr ⟨newBalance,hfield,hnew⟩,by rwa [hsource] at hopen⟩
    obtain ⟨hleak,hmoved⟩ := c.moved hsep htyped hle
    by_cases hraise : c.RaisesEscrow
    · obtain ⟨hlt,hdestroyed⟩ := hleak hraise
      exact .inr ⟨.inr ⟨rfl,hclaims.mp hraise⟩,by rw [Sandbox.read_child] at hlt; omega,hdestroyed⟩
    refine .inl ⟨?_,hmoved hraise⟩
    rintro (⟨hne,-⟩ | ⟨-,hclaim⟩)
    · cases hne
    · exact hraise (hclaims.mpr hclaim)
  | _ => cases ht

theorem step_conserves (hsep : env.crypto.Separated) (hengine : RunsLocks env engine)
    {sub : Submission} (hl : XrpLedger env.crypto l) (hlock : IsLockTx env.crypto sub.tx) :
    (ConservesXrp env engine l sub ↔ ¬ LeaksXrp env engine l sub) ∧
      (¬ LeaksXrp env engine l sub → XrpLedger env.crypto (ledgerStep env engine l sub)) := by
  obtain ⟨txType,t,hname,ht,hord⟩ := hlock.ordinary hengine
  have hl₀ : XrpLedger env.crypto (sub.opened l) := ⟨hl.isOpen,hl.typed,hl.supply⟩
  have hopened : (sub.opened l).totalXrp=l.totalXrp := rfl
  have hfate : Fate env t txType sub.tx (sub.opened l) sub.rules sub.fees _ _ :=
    apply_fate hord hl₀.isOpen
  have hclosed := engineClosed_fitsAt hsep
  simp only [ConservesXrp,LeaksXrp,ledgerStep,Submission.apply,hname,Option.some.injEq]
  generalize apply env engine sub.tx (sub.opened l) sub.rules sub.fees=out at hfate ⊢
  obtain ⟨r,l'⟩ := out
  cases hfate with
  | stopped hr => exact ⟨⟨fun _ h => hr h.1,fun _ => rfl⟩,fun _ => hl₀⟩
  | claimed o hcharged hc hr =>
    have htotal : l'.totalXrp=(sub.opened l).totalXrp :=
      Nat.add_right_cancel (hc.totalXrp_eq hsep hl₀ hcharged (hcharged.moved hsep hl.typed).2.2)
    have hunclaimed : o.result≠.tesSuccess := hr
    refine ⟨⟨fun _ h => hunclaimed (by simpa using h.1),fun _ => htotal⟩,fun _ =>
      ⟨?_,?_,htotal ▸ hl.supply⟩⟩
    · rw [Ledger.isOpen,hc.state]
      exact hl.isOpen
    · exact hclosed.committed hc (hclosed.charged hcharged hl.typed)
  | applied s child o hpre hpreclaim hproxy hcharged hrun hsandbox hc =>
    obtain ⟨hnot,hmoved⟩ | ⟨hleak,hne,hdestroyed⟩ :=
      lockTransactor_moved hsep ht hl₀ hcharged hpreclaim hrun
    · have htotal : l'.totalXrp+_=_ :=
        applied_totalXrp hsep hl₀ hcharged hsandbox hc hmoved.destroyed
      have hworth : worth child.read=worth s.read := hmoved.worth
      have hsame : l'.totalXrp=l.totalXrp := by omega
      refine ⟨⟨fun _ h => hnot h.2,fun _ => hsame⟩,fun _ => ⟨?_,?_,hsame ▸ hl.supply⟩⟩
      · rw [Ledger.isOpen,hc.state]
        exact hl.isOpen
      · refine hclosed.committed hc ?_
        rw [hsandbox,Sandbox.read_mergeChild]
        exact hmoved.typed
    · have htotal : l'.totalXrp+_=_ := applied_totalXrp hsep hl₀ hcharged hsandbox hc hdestroyed
      refine ⟨⟨fun h => ?_,fun h => (h ⟨rfl,hleak⟩).elim⟩,fun h => (h ⟨rfl,hleak⟩).elim⟩
      have h : l'.totalXrp=l.totalXrp := h
      exact (hne (by omega)).elim

end

open InputRun

private theorem xrpLedger_escrowParties : XrpLedger paddedCrypto escrowParties := by
  refine ⟨rfl,allEntries_openLedger 0 ?_,by decide⟩
  simp only [List.mem_cons,List.not_mem_nil,or_false]
  rintro e (rfl | rfl)
  · exact fitsAt_accountRoot separated_paddedCrypto (party 1) (by decide) (by decide)
  · exact fitsAt_accountRoot separated_paddedCrypto (party 2) (by decide) (by decide)

end Rxrpl.Tx
