import Rxrpl.AllOrClaim
import Rxrpl.PayChannelHandlers

/-!
# Invariants of the engine

The charge and the commit keep the properties of entries that do not depend on the fields they
write. A second set of rules shows that a program never fails with the code of a success.
-/

namespace Rxrpl.Tx

open Codec (AccountId)

/-! ## The engine -/

def describeOwner (crypto : Crypto) (id : AccountId) : List (String × Json) :=
  [("Owner",.str (Codec.encodeAccountId crypto.sha256 id))]

/-- The fields of an account root that the charge writes. -/
def chargeFields : List String := ["Balance","Sequence","OwnerCount","TicketCount"]

/-- A property of entries that the engine cannot break outside the transactor. -/
structure EngineClosed (crypto : Crypto) (P : Hash256 → Json → Prop) : Prop where
  pages : ∀ id, PageClosed crypto (Keylet.ownerDir crypto id) (describeOwner crypto id) P
  charge : ∀ id v v', FieldsAgree chargeFields v v' → P (Keylet.account crypto id) v →
    P (Keylet.account crypto id) v'
  record : ∀ k v v', FieldsAgree recordFields v v' → P k v → P k v'

section

variable {env : Env} {P : Hash256 → Json → Prop} {tx : Json} {rules : Rules}

open ViewM

variable {below view : ReadView} {crypto : Crypto} {fees : FeeSettings} {l l' : Ledger}
  {o : Outcome (l.view fees)} {txType : TransactionType} {s : Sandbox view}

theorem maintains_addToOwnerDir (hP : EngineClosed crypto P) (id : AccountId) (entry : Hash256) :
    Maintains P (addToOwnerDir crypto id entry : ViewM below ℕ) fun _ => True :=
  maintains_bind maintains_sortedDirectories fun _ _ => maintains_dirInsert (hP.pages id) _ _

theorem EngineClosed.charged (hP : EngineClosed env.crypto P) (h : Charged env tx view rules s)
    (hl : AllEntries P view.read) : AllEntries P s.read := by
  obtain ⟨id,account,account',s₁,-,hread,-,hconsume,hupdate,-⟩ := chargeSender_ok h
  obtain ⟨hfields,-⟩ := consume_fields hconsume
  have haccount : P (Keylet.account env.crypto id) account' := by
    refine hP.charge id account account' ?_ (hl _ _ hread)
    exact ((feeCharged_fields tx account).mono (by simp [chargeFields])).trans
      (hfields.mono (by simp [chargeFields]))
  rw [hupdate]
  refine AllEntries.update ?_ haccount
  cases hticket : u64Field tx "TicketSequence" with
  | none =>
    obtain ⟨-,rfl⟩ := consumeSeqOrTicket_none hticket hconsume
    exact hl
  | some n =>
    obtain ⟨ticket,s₀,-,hunlink,herase,-⟩ := consumeSeqOrTicket_some hticket hconsume
    exact (maintains_erase _ herase
      (maintains_unlinkTicket (hP.pages id).toRewriteClosed _ _ hunlink hl).1).1

theorem Charged.read_eq (h : Charged env tx view rules s) :
    ∃ id, senderId env.crypto tx=some id ∧ ∀ k≠Keylet.account env.crypto id,
      k∉pageKeys env.crypto (Keylet.ownerDir env.crypto id) →
        (∀ n < 2^32, k≠Keylet.ticket env.crypto id n) →
        s.read k=view.read k := by
  obtain ⟨id,account,account',s₁,hid,-,-,hconsume,hupdate,-⟩ := chargeSender_ok h
  refine ⟨id,hid,fun k hk hpage hticketKey => ?_⟩
  rw [hupdate,Function.update_of_ne hk]
  cases hticket : u64Field tx "TicketSequence" with
  | none =>
    obtain ⟨-,rfl⟩ := consumeSeqOrTicket_none hticket hconsume
    rfl
  | some n =>
    obtain ⟨ticket,s₀,-,hunlink,herase,-⟩ := consumeSeqOrTicket_some hticket hconsume
    rw [(ViewM.erase_eq_ok herase).2.read,
      Function.update_of_ne (hticketKey _ (Nat.mod_lt _ (by simp))),
      (frame_unlinkTicket _ _ _ _).read_eq hunlink hpage]
    rfl

theorem Committed.read_agreeOff (hc : Committed env txType tx l o l') (k : Hash256) :
    (o.sandbox.read k=none ∧ l'.read k=none) ∨
      ∃ d d', o.sandbox.read k=some d ∧ l'.read k=some d' ∧ d.AgreeOff recordFields d' := by
  obtain ⟨hash,leaf,-,-,hread⟩ := hc.txHash
  rw [hread]
  obtain h | ⟨d,d',hd,hd',ha,-⟩ :=
    (rewrites_committedChanges env txType tx hash l.header.sequence o).read k
  · exact .inl h
  · exact .inr ⟨d,d',hd,hd',ha⟩

theorem EngineClosed.committed (hP : EngineClosed env.crypto P)
    (hc : Committed env txType tx l o l') (ho : AllEntries P o.sandbox.read) :
    AllEntries P l'.read := by
  intro k v' hread
  obtain ⟨-,hnone⟩ | ⟨d,d',hd,hd',ha⟩ := hc.read_agreeOff k
  · rw [hnone] at hread
    cases hread
  rw [hd'] at hread
  cases hread
  obtain rfl | ⟨v,w,rfl,hw,hfields⟩ := ha
  · exact ho k v' hd
  · cases hw
    exact hP.record k v v' hfields (ho k v hd)

end

/-! ## The code of a success -/

/-- A code other than that of a success. -/
class Failing (r : TransactionResult) : Prop where
  ne : r≠.tesSuccess

instance : Failing .tecDstTagNeeded := ⟨nofun⟩
instance : Failing .tecInsufficientReserve := ⟨nofun⟩
instance : Failing .tecNoEntry := ⟨nofun⟩
instance : Failing .tecNoPermission := ⟨nofun⟩
instance : Failing .tecNoTarget := ⟨nofun⟩
instance : Failing .tecUnfunded := ⟨nofun⟩
instance : Failing .tecUnfundedPayment := ⟨nofun⟩
instance : Failing .tefInternal := ⟨nofun⟩
instance : Failing .temBadAmount := ⟨nofun⟩
instance : Failing .temBadExpiration := ⟨nofun⟩
instance : Failing .temBadSend := ⟨nofun⟩
instance : Failing .temDstIsObligatory := ⟨nofun⟩
instance : Failing .temMalformed := ⟨nofun⟩
instance : Failing .terNoAccount := ⟨nofun⟩

/-- A function that reads only and does not fail with the code of a success. -/
class HonestCheck {α : Type} (x : Except TransactionResult α) : Prop where
  ne : x≠.error .tesSuccess

section

variable {α β : Type}

instance (a : α) : HonestCheck (.ok a) := ⟨nofun⟩

instance {r : TransactionResult} [h : Failing r] :
    HonestCheck (.error r : Except TransactionResult α) :=
  ⟨fun he => h.ne (Except.error.inj he)⟩

theorem HonestCheck.bind {x : Except TransactionResult α} {f : α → Except TransactionResult β}
    (hx : HonestCheck x) (hf : ∀ a, HonestCheck (f a)) : HonestCheck (x >>= f) := by
  refine ⟨fun h => ?_⟩
  obtain h | ⟨a,-,h⟩ := bind_error_iff.mp h
  · exact hx.ne h
  · exact (hf a).ne h

instance {x : Except TransactionResult α} {f : α → Except TransactionResult β} [hx : HonestCheck x]
    [hf : ∀ a, HonestCheck (f a)] : HonestCheck (x >>= f) :=
  hx.bind hf

theorem HonestCheck.ite {c : Prop} [Decidable c] {x y : Except TransactionResult α}
    (hx : HonestCheck x) (hy : HonestCheck y) : HonestCheck (if c then x else y) := by
  split <;> assumption

instance {c : Prop} [Decidable c] {x y : Except TransactionResult α} [hx : HonestCheck x]
    [hy : HonestCheck y] : HonestCheck (if c then x else y) :=
  hx.ite hy

instance (d : Data) : HonestCheck d.parse := ⟨fun h => nomatch Data.parse_eq_error h⟩

instance (x : Option α) {r : TransactionResult} [Failing r] : HonestCheck (okOr x r) := by
  cases x <;> dsimp only [okOr] <;> infer_instance

instance (tx : Json) : HonestCheck (getAccount tx) := ⟨fun h => nomatch getAccount_eq_error h⟩

instance (sha : Codec.Sha256) (s : String) : HonestCheck (decodeAccount sha s) :=
    ⟨fun h => nomatch decodeAccount_eq_error h⟩

end

namespace ViewM

variable {below : ReadView} {α β : Type}

/-- A program that does not fail with the code of a success. -/
def Honest (x : ViewM below α) : Prop := ∀ s, x s≠.error .tesSuccess

/-- The same as a class: its instances follow the program. -/
class IsHonest (x : ViewM below α) : Prop where
  out : Honest x

instance (a : α) : IsHonest (pure a : ViewM below α) := ⟨fun _ h => nomatch h⟩

instance {x : Except TransactionResult α} [h : HonestCheck x] :
    IsHonest (lift x : ViewM below α) := by
  refine ⟨fun s he => ?_⟩
  unfold lift at he
  split at he
  · cases he
  · cases he
    exact h.ne rfl

instance {r : TransactionResult} [h : Failing r] : IsHonest (fail r : ViewM below α) :=
  ⟨fun _ he => h.ne (Except.error.inj he)⟩

instance (k : Hash256) : IsHonest (read k : ViewM below (Option Data)) := ⟨fun _ h => nomatch h⟩

instance : IsHonest (sortedDirectories : ViewM below Bool) := ⟨fun _ h => nomatch h⟩

instance : IsHonest (threadDirectories : ViewM below Bool) := ⟨fun _ h => nomatch h⟩

instance (k : Hash256) {r : TransactionResult} [h : Failing r] :
    IsHonest (readEntry k r : ViewM below Json) := by
  refine ⟨fun s he => ?_⟩
  unfold readEntry at he
  split at he
  · exact h.ne (Except.error.inj he)
  rename_i d _
  cases d with
  | json v => cases he
  | raw bs => cases he

theorem IsHonest.bind {x : ViewM below α} {f : α → ViewM below β} (hx : IsHonest x)
    (hf : ∀ a, IsHonest (f a)) : IsHonest (x >>= f) := by
  refine ⟨fun s he => ?_⟩
  change (x s >>= fun p => f p.1 p.2)=_ at he
  obtain he | ⟨p,-,he⟩ := bind_error_iff.mp he
  · exact hx.out s he
  · exact (hf p.1).out p.2 he

instance {x : ViewM below α} {f : α → ViewM below β} [hx : IsHonest x] [hf : ∀ a, IsHonest (f a)] :
    IsHonest (x >>= f) :=
  hx.bind hf

instance {c : Prop} [Decidable c] {x y : ViewM below α} [IsHonest x] [IsHonest y] :
    IsHonest (if c then x else y) := by
  split <;> assumption

instance (k : Hash256) (v : Json) : IsHonest (insert k v : ViewM below Unit) := by
  refine ⟨fun s he => ?_⟩
  unfold insert at he
  cases h : s.insert k (.json v) <;> rw [h] at he <;> cases he

instance (k : Hash256) (v : Json) : IsHonest (update k v : ViewM below Unit) := by
  refine ⟨fun s he => ?_⟩
  unfold update at he
  cases h : s.update k (.json v) <;> rw [h] at he <;> cases he

instance (k : Hash256) : IsHonest (erase k : ViewM below Unit) := by
  refine ⟨fun s he => ?_⟩
  unfold erase at he
  cases h : s.erase k <;> rw [h] at he <;> cases he

instance (k : Hash256) : IsHonest (touch k : ViewM below Unit) := by
  refine ⟨fun s he => ?_⟩
  unfold touch at he
  split at he
  · cases he
  · rename_i d _
    cases h : s.update k d <;> rw [h] at he <;> cases he

end ViewM

section

variable (crypto : Crypto) {below : ReadView}

open Keylet ViewM

instance (root : Hash256) (page : ℕ) (field : String) (val : ℕ) :
    IsHonest (patchLink crypto root page field val : ViewM below Unit) :=
  .bind inferInstance fun _ => by split <;> infer_instance

instance (root : Hash256) (prev next : ℕ) :
    IsHonest (relink crypto root prev next : ViewM below Unit) := by
  unfold relink
  infer_instance

instance (root : Hash256) (page : ℕ) (node : Json) (keepRoot : Bool) :
    IsHonest (dropPage crypto root page node keepRoot : ViewM below Unit) := by
  refine .bind inferInstance fun sorted => ?_
  split
  · infer_instance
  refine .bind inferInstance fun _ => .bind inferInstance fun _ => ?_
  split
  · infer_instance
  · exact .bind inferInstance fun _ => by split <;> infer_instance

instance (root : Hash256) (page : ℕ) (entry : Hash256) (keepRoot : Bool) :
    IsHonest (dirRemovePageImpl crypto root page entry keepRoot : ViewM below Unit) := by
  refine .bind inferInstance fun bytes => ?_
  split
  · infer_instance
  · exact .bind inferInstance fun _ => by split <;> infer_instance

instance (root : Hash256) (entryHex : String) (fuel page : ℕ) :
    IsHonest (findPage crypto root entryHex fuel page : ViewM below (Option ℕ)) := by
  induction fuel generalizing page with
  | zero =>
    unfold findPage
    infer_instance
  | succ fuel ih => exact .bind inferInstance fun bytes => by split <;> infer_instance

instance (root entry : Hash256) (keepRoot : Bool) :
    IsHonest (dirRemove crypto root entry keepRoot : ViewM below Unit) :=
  .bind inferInstance fun page => by split <;> infer_instance

end

end Rxrpl.Tx
