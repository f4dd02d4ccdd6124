import Rxrpl.TxEngine

/-!
# Entries with different keys

The keys of account roots, directory pages, tickets and escrows are hashes. That different entries
have different keys is an assumption on the hash function; `paddedCrypto` is one that satisfies it
and can be evaluated.
-/

namespace Rxrpl.Tx

open Codec (AccountId toBeBytes)
open List

inductive EntryKey
  | account (id : AccountId)
  | page (id : AccountId) (page : ℕ)
  | ticket (id : AccountId) (seq : ℕ)
  | escrow (id : AccountId) (seq : ℕ)

namespace EntryKey

def InRange : EntryKey → Prop
  | .account _ => True
  | .page _ p => p < 2^64
  | .ticket _ n => n < 2^32
  | .escrow _ n => n < 2^32

def hash (crypto : Crypto) : EntryKey → Hash256
  | .account id => Keylet.account crypto id
  | .page id p => Keylet.dirNode crypto (Keylet.ownerDir crypto id) p
  | .ticket id n => Keylet.ticket crypto id n
  | .escrow id n => Keylet.escrow crypto id n

end EntryKey

/-- No two of these entries share a key, and none of them shares one with a payment channel. -/
structure Crypto.Separated (crypto : Crypto) : Prop where
  injOn : Set.InjOn (EntryKey.hash crypto) {k | k.InRange}
  payChannel : ∀ src dst seq k, EntryKey.InRange k →
    Keylet.payChannel crypto src dst seq≠k.hash crypto

namespace Crypto.Separated

variable {crypto : Crypto} (h : crypto.Separated)
include h

theorem ne {k k' : EntryKey} (hk : k.InRange) (hk' : k'.InRange) (hne : k≠k') :
    k.hash crypto≠k'.hash crypto :=
  fun he => hne (h.injOn hk hk' he)

theorem account_injective : Function.Injective (Keylet.account crypto) := fun a b hab => by
  have hk := h.injOn (show EntryKey.account a∈{k | k.InRange} from trivial)
    (show EntryKey.account b∈{k | k.InRange} from trivial) hab
  cases hk
  rfl

theorem account_notMem_pageKeys (id id' : AccountId) :
    Keylet.account crypto id∉pageKeys crypto (Keylet.ownerDir crypto id') := by
  rintro ⟨p,hp,he⟩
  exact h.ne (show EntryKey.InRange (.page id' p) from hp)
    (show EntryKey.InRange (.account id) from trivial) (by simp) he

theorem ticket_notMem_pageKeys (id id' : AccountId) {n : ℕ} (hn : n < 2^32) :
    Keylet.ticket crypto id n∉pageKeys crypto (Keylet.ownerDir crypto id') := by
  rintro ⟨p,hp,he⟩
  exact h.ne (show EntryKey.InRange (.page id' p) from hp)
    (show EntryKey.InRange (.ticket id n) from hn) (by simp) he

theorem account_ne_ticket (id id' : AccountId) {n : ℕ} (hn : n < 2^32) :
    Keylet.account crypto id≠Keylet.ticket crypto id' n :=
  h.ne (show EntryKey.InRange (.account id) from trivial)
    (show EntryKey.InRange (.ticket id' n) from hn) (by simp)

theorem dirNode_injOn (id : AccountId) :
    Set.InjOn (Keylet.dirNode crypto (Keylet.ownerDir crypto id)) {p | p < 2^64} := by
  intro p hp q hq heq
  have hkey := h.injOn (show EntryKey.page id p∈{k | k.InRange} from hp)
    (show EntryKey.page id q∈{k | k.InRange} from hq) heq
  cases hkey
  rfl

end Crypto.Separated

/-! ## A hash function that keeps the entries apart -/

/-- The first 32 bytes of a string that is filled up with zeros. -/
def padded (bs : Bytes) : Hash256 := ⟨(bs++List.replicate 32 0).take 32,by simp⟩

theorem padded_inj {bs bs' : Bytes} (hl : bs.length=bs'.length) (h32 : bs.length ≤ 32)
    (h : padded bs=padded bs') : bs=bs' := by
  have hb : (bs++replicate 32 0).take 32=(bs'++replicate 32 0).take 32 := congrArg Hash256.asBytes h
  have ht : bs.take 32=bs := take_of_length_le h32
  have ht' : bs'.take 32=bs' := take_of_length_le (hl ▸ h32)
  rw [take_append,take_append,ht,ht'] at hb
  exact (append_inj hb hl).1

theorem head_padded (b : UInt8) (bs : Bytes) : (padded (b::bs)).asBytes.head?=some b := by
  simp [padded]

/-- A hash of short strings that loses nothing of them; of a directory page it keeps the account and
the page number. -/
def paddedSha : Sha512Half
  | 0::0x64::data => padded (0x64::((data.drop 1).take 20++data.drop 32))
  | 0::0x78::data => padded (0x78::(data.take 10++(data.drop 20).take 10++data.drop 40))
  | 0::tag::data => padded (tag::data)
  | data => padded data

/-- A digest for addresses that can be evaluated. -/
def plainDigest : Codec.Sha256 := .ones

def paddedCrypto : Crypto where
  sha256 := plainDigest
  sha512Half := paddedSha
  accountIdFromPublicKey := fun bs => ⟨(bs++List.replicate 20 0).take 20,by simp⟩
  verifySignature := fun _ => true

namespace EntryKey

private def tag : EntryKey → UInt8
  | .account _ => 0x61
  | .page _ p => if p=0 then 0x4F else 0x64
  | .ticket _ _ => 0x54
  | .escrow _ _ => 0x75

private def payload : EntryKey → Bytes
  | .account id => id.asBytes
  | .page id p => if p=0 then id.asBytes else id.asBytes++toBeBytes 8 p
  | .ticket id n => id.asBytes++toBeBytes 4 n
  | .escrow id n => id.asBytes++toBeBytes 4 n

private theorem hash_paddedCrypto (k : EntryKey) :
    k.hash paddedCrypto=padded (k.tag::k.payload) := by
  cases k with
  | page id p =>
    simp only [hash,Keylet.dirNode,tag,payload]
    split
    · rfl
    have hroot : (Keylet.ownerDir paddedCrypto id).asBytes=0x4F::(id.asBytes++replicate 11 0) := by
      change ((0x4F::id.asBytes)++replicate 32 0).take 32=_
      rw [take_append,take_of_length_le (by simp)]
      simp
    have hdrop : (id.asBytes++replicate 11 0++toBeBytes 8 p).drop 31=toBeBytes 8 p :=
      drop_left' (by simp)
    change padded
      (0x64::((((Keylet.ownerDir paddedCrypto id).asBytes++toBeBytes 8 p).drop 1).take 20 ++
      ((Keylet.ownerDir paddedCrypto id).asBytes++toBeBytes 8 p).drop 32))=_
    rw [hroot,cons_append,drop_succ_cons,drop_succ_cons,hdrop]
    simp
  | _ => rfl

variable {k k' : EntryKey} {n n' w : ℕ}

private theorem toBeBytes_inj (hn : n < 256^w) (hn' : n' < 256^w)
    (h : toBeBytes w n=toBeBytes w n') :
    n=n' := by
  have hv := congrArg Codec.fromBeBytes h
  rwa [Codec.fromBeBytes_toBeBytes,Codec.fromBeBytes_toBeBytes,Nat.mod_eq_of_lt hn,
    Nat.mod_eq_of_lt hn'] at hv

private theorem payload_inj {id id' : AccountId} (hn : n < 256^w) (hn' : n' < 256^w)
    (h : id.asBytes++toBeBytes w n=id'.asBytes++toBeBytes w n') : id=id' ∧ n=n' := by
  obtain ⟨hid,ht⟩ := append_inj h (by simp)
  exact ⟨AccountId.ext hid,toBeBytes_inj hn hn' ht⟩

private theorem length_payload_le (k : EntryKey) : k.payload.length ≤ 31 := by
  cases k with
  | page id p =>
    simp only [payload]
    split <;> simp
  | _ => simp [payload]

private theorem tag_cases (h : k.tag=k'.tag) :
    (∃ id id', k=.account id ∧ k'=.account id') ∨
      (∃ id n id' n', k=.ticket id n ∧ k'=.ticket id' n') ∨
      (∃ id n id' n', k=.escrow id n ∧ k'=.escrow id' n') ∨
        ∃ id p id' p', k=.page id p ∧ k'=.page id' p' ∧ (p=0 ↔ p'=0) := by
  cases k <;> cases k' <;> simp only [tag] at h <;> (try split_ifs at h) <;> simp_all

private theorem length_payload_eq (h : k.tag=k'.tag) : k.payload.length=k'.payload.length := by
  obtain ⟨id,id',rfl,rfl⟩ | ⟨id,n,id',n',rfl,rfl⟩ | ⟨id,n,id',n',rfl,rfl⟩ | ⟨id,p,id',p',rfl,rfl,
    hp⟩ :=
    tag_cases h
  · simp [payload]
  · simp [payload]
  · simp [payload]
  · by_cases h0 : p'=0 <;> simp [payload,hp,h0]

private theorem eq_of_tag_payload (hk : k.InRange) (hk' : k'.InRange) (ht : k.tag=k'.tag)
    (hp : k.payload=k'.payload) : k=k' := by
  obtain ⟨id,id',rfl,rfl⟩ | ⟨id,n,id',n',rfl,rfl⟩ | ⟨id,n,id',n',rfl,rfl⟩ | ⟨id,p,id',p',rfl,rfl,
    h0⟩ :=
    tag_cases ht
  · rw [AccountId.ext hp]
  · obtain ⟨rfl,rfl⟩ := payload_inj hk hk' hp
    rfl
  · obtain ⟨rfl,rfl⟩ := payload_inj hk hk' hp
    rfl
  by_cases hzero : p'=0
  · simp only [payload,h0.mpr hzero,hzero,if_true] at hp ⊢
    rw [AccountId.ext hp]
  · simp only [payload,h0.not.mpr hzero,hzero,if_false] at hp
    obtain ⟨rfl,rfl⟩ := payload_inj hk hk' hp
    rfl

private theorem tag_ne (k : EntryKey) : k.tag≠0x78 := by
  cases k with
  | page id p => by_cases h0 : p=0 <;> simp [tag,h0]
  | _ => simp [tag]

end EntryKey

private theorem tag_eq_of_padded {b b' : UInt8} {bs bs' : Bytes}
    (h : padded (b::bs)=padded (b'::bs')) : b=b' := by
  have hh := congrArg (fun x => x.asBytes.head?) h
  simpa only [head_padded,Option.some.injEq] using hh

theorem separated_paddedCrypto : paddedCrypto.Separated where
  injOn := by
    intro k hk k' hk' h
    rw [EntryKey.hash_paddedCrypto,EntryKey.hash_paddedCrypto] at h
    have ht := tag_eq_of_padded h
    have hle : (k.tag::k.payload).length ≤ 32 := Nat.succ_le_succ k.length_payload_le
    have hb := padded_inj (by simp [EntryKey.length_payload_eq ht]) hle h
    exact EntryKey.eq_of_tag_payload hk hk' ht (cons.inj hb).2
  payChannel := by
    intro src dst seq k hk h
    rw [EntryKey.hash_paddedCrypto] at h
    exact k.tag_ne (tag_eq_of_padded h).symm

/-! ## Parameters that can be evaluated -/

/-- An account, by the last byte of its identifier. -/
def party (n : UInt8) : AccountId := ⟨List.replicate 19 0++[n],by simp⟩

def address (n : UInt8) : String := Codec.encodeAccountId plainDigest (party n)

def plainEnv : Env where
  crypto := paddedCrypto
  executeHook := fun _ _ _ _ _ _ => none
  leaf := fun _ _ _ _ _ _ => []

def accountRoot (n : UInt8) (balance : String) (sequence ownerCount : ℕ) : Json :=
  .obj [("LedgerEntryType",.str "AccountRoot"),("Account",.str (address n)),
    ("Balance",.str balance),
    ("Sequence",.int sequence),("OwnerCount",.int ownerCount),("Flags",.int 0)]

def openLedger (parentCloseTime : ℕ) (entries : List (Hash256 × Json)) : Ledger where
  header := ⟨5,10^17,parentCloseTime,parentCloseTime,.zero⟩
  stateMap := entries.foldl (fun m e => m.insert e.1 (.json e.2)) ∅
  txMap := ∅
  state := .open
  destroyedDrops := 0
  txCount := 0

def noRules : Rules := ⟨fun _ => false⟩

def smallFees : FeeSettings := ⟨10,100,20⟩

/-- A transactor that does nothing but return a code. -/
def Transactor.returning (r : TransactionResult) : Transactor where
  preflight := fun _ _ _ => .ok ()
  preclaim := fun _ _ _ => .ok ()
  apply := fun _ _ _ => pure r

/-- An engine without invariant checks whose types share one transactor. -/
def engineOf (t : Transactor) : TxEngine := ⟨fun _ => some t,[],false⟩

end Rxrpl.Tx
