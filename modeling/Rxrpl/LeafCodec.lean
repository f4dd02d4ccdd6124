import Rxrpl.BinarySerializer
import Rxrpl.ParserOutput

/-!
# Leaves survive the wire

What the serialiser writes for a leaf within the limits of the wire is read back by the parser
as the rendering of that leaf. Only a number outside `NumberFits` comes back as another one.
-/

namespace Rxrpl.Codec

open DecimalText TokenParser List
open Option hiding or_assoc pure_apply

variable {sha : Sha256} {order : HashMap.IterOrder} {d : FieldDef}

/-! ## Successful steps of the serialiser -/

theorem expect_eq_ok {α : Type} {message : String} {o : Option α} {a : α}
    (h : expect message o=.ok a) : o=some a := by
  cases o with
  | none => cases h
  | some a' =>
    cases h
    rfl

variable {a : AccountId} {asset : Asset} {bs : Bytes} {code : CurrencyCode}
  {door issue key s : String} {fuel len width : ℕ} {hs : List Bytes} {j : Json} {l : Leaf}
  {members : List (String × Json)} {n x : ℤ} {path : List PathStep} {ps : List (List PathStep)}
  {q : ℚ}

theorem decodeHex_eq_ok (h : decodeHex s=.ok bs) : readHex s=some bs := by
  rw [decodeHex] at h
  rw [readHex]
  cases hd : hexDecode (utf8 s) with
  | error e =>
    rw [hd] at h
    cases h
  | ok bs' =>
    rw [hd] at h
    cases h
    rfl

theorem exactly_eq_ok {bytes : Bytes} (h : exactly len bytes=.ok bs) : bs=bytes ∧
    bytes.length=len := by
  rw [exactly] at h
  split_ifs at h with hlen
  cases h
  exact ⟨rfl,not_not.mp hlen⟩

theorem asU64_eq_some {v : ℕ} (h : j.asU64=some v) : j=.int v := by
  cases j with
  | int n =>
    simp only [Json.asU64] at h
    split_ifs at h with hn
    cases h
    rw [Int.toNat_of_nonneg hn.1]
  | _ => cases h

theorem asI64_eq_some {v : ℤ} (h : j.asI64=some v) : j=.int v := by
  cases j with
  | int n =>
    simp only [Json.asI64] at h
    split_ifs at h
    cases h
    rfl
  | _ => cases h

theorem asStr_eq_some (h : j.asStr=some s) : j=.str s := by
  cases j <;> simp_all [Json.asStr]

theorem asArray_eq_some {items : List Json} (h : j.asArray=some items) : j=.arr items := by
  cases j <;> simp_all [Json.asArray]

theorem asObject_eq_some (h : j.asObject=some members) : j=.obj members := by
  cases j <;> simp_all [Json.asObject]

theorem filter_eq_some {α : Type} {p : α → Bool} {o : Option α} {a : α} (h : o.filter p=some a) :
    o=some a ∧ p a := by
  cases o with
  | none => cases h
  | some a' =>
    simp only [Option.filter] at h
    split_ifs at h with hp
    cases h
    exact ⟨rfl,hp⟩

theorem serializeCurrencyCode_eq_ok (h : serializeCurrencyCode s=.ok bs)
    (hread : readCurrency s=some code) : bs=code.asBytes := by
  rw [serializeCurrencyCode] at h
  rw [readCurrency] at hread
  split_ifs at h hread
  · cases h
    cases hread
    rfl
  · cases h
    cases hread
    rfl
  · rw [decodeHex_eq_ok h,bind_some] at hread
    split_ifs at hread
    cases hread
    rfl

theorem serializeAccountIdRaw_eq_ok (h : serializeAccountIdRaw sha s=.ok bs)
    (hread : readAccount sha s=some a) : bs=a.asBytes := by
  rw [serializeAccountIdRaw] at h
  rw [readAccount] at hread
  split_ifs at h hread
  · rw [decodeHex_eq_ok h,bind_some,AccountId.fromSlice] at hread
    split at hread
    · cases hread
      rfl
    · cases hread
  · obtain ⟨a',ha',hbs⟩ := bind_ok h
    rw [ha'] at hread
    cases hread
    cases hbs
    rfl

/-! ## Reading back -/

/-- The bytes are read as the rendering of the leaf. -/
def Kept (sha : Sha256) (order : HashMap.IterOrder) (d : FieldDef) (bs : Bytes) (l : Leaf) : Prop :=
  ∃ j, Shown sha order 918744 d l j ∧
    ∀ object array, Reads (parseFieldValue sha order object array d) bs j

theorem reads_uint {w n : ℕ} (h : n < 256^w) : Reads (readUint w) (toBeBytes w n) n := by
  have := reads_readUint w n
  rwa [Nat.mod_eq_of_lt h] at this

theorem reads_readVlBlob (h : bs.length ≤ 918744) :
    Reads readVlBlob (writeVlLength bs.length++bs) bs :=
      (reads_readVlLength h).bind (reads_readBytes rfl)

theorem reads_parseAddress (a : AccountId) :
    Reads (parseAddress sha a.asBytes) [] (encodeAccountId sha a) :=
  (reads_ofResult (AccountId.fromSlice_asBytes a)).bind_pure rfl

theorem reads_address {β : Type} {f : Bytes → String → Parser β} {b : β}
    (h : Reads (f a.asBytes (encodeAccountId sha a)) bs b) :
    Reads (readBytes 20 >>= fun bytes => parseAddress sha bytes >>= f bytes) (a.asBytes++bs) b :=
  (reads_readBytes a.length_asBytes).bind (by simpa using (reads_parseAddress a).bind h)

/-! ### Integers -/

theorem kept_uint8 (ht : d.fieldType=.uint8) (h : serializeUint8 j=.ok bs)
    (hread : readUnsigned (readName d) j=some n) (hn : IntFits n .uint8) :
      Kept sha order d bs (.int n) := by
  obtain ⟨v,hv,hbs⟩ := bind_ok h
  rw [asU64_eq_some (expect_eq_ok hv)] at hread
  cases hread
  cases hbs
  have hlt : v < 2^8 := by exact_mod_cast hn.2
  refine ⟨.int v,shown_plain (by simp [ht]) (ht ▸ hn),?_⟩
  intro object array
  rw [parseFieldValue]
  simp only [ht]
  rw [Nat.mod_eq_of_lt hlt]
  exact (reads_uint (by omega)).bind_pure rfl

theorem bmod_toNat (w : ℕ) (x : ℤ) : (((x % 2^w).toNat : ℕ) : ℤ).bmod (2^w)=x.bmod (2^w) := by
  rw [Int.toNat_of_nonneg (Int.emod_nonneg _ (by positivity))]
  have hmod := Int.emod_bmod x (2^w)
  rwa [Nat.cast_pow,Nat.cast_ofNat] at hmod

theorem kept_int32 (ht : d.fieldType=.int32) (h : serializeInt32 j=.ok bs)
    (hread : readUnsigned (readName d) j=some n) (hn : IntFits n .int32) :
      Kept sha order d bs (.int n) := by
  obtain ⟨v,hv,hbs⟩ := bind_ok h
  rw [asI64_eq_some (expect_eq_ok hv)] at hread
  cases hread
  cases hbs
  obtain ⟨h₁,h₂⟩ := hn
  refine ⟨.int n,shown_plain (by simp [ht]) (ht ▸ ⟨h₁,h₂⟩),?_⟩
  intro object array
  rw [parseFieldValue]
  simp only [ht]
  have hback : (((n % 2^32).toNat : ℕ) : ℤ).bmod (2^32)=n := by
    rw [bmod_toNat]
    exact wrapI32_of_range h₁ h₂
  exact (reads_uint (by omega)).bind_pure (by rw [hback])

theorem kept_uint16 (ht : d.fieldType=.uint16) (h : serializeUint16 d j=.ok bs)
    (hread : readUnsigned (readName d) j=some n) (hn : IntFits n .uint16) :
      Kept sha order d bs (.int n) := by
  obtain ⟨h₁,h₂⟩ := hn
  have hbs : bs=toBeBytes 2 n.toNat := by
    rw [serializeUint16] at h
    cases hs : j.asStr with
    | none =>
      rw [hs] at h
      obtain ⟨v,hv,hbs⟩ := bind_ok h
      rw [asU64_eq_some (expect_eq_ok hv)] at hread
      cases hread
      cases hbs
      have hlt : v < 2^16 := by exact_mod_cast h₂
      rw [Nat.mod_eq_of_lt hlt,Int.toNat_natCast]
    | some s =>
      have hcode : ∀ {code : Option ℤ}, serializeTypeCode s code=.ok bs → code=some n →
        bs=toBeBytes 2 n.toNat := by
        rintro _ hser rfl
        cases hser
        rw [Int.emod_eq_of_lt h₁ h₂]
      rw [hs] at h
      rw [asStr_eq_some hs,readUnsigned,readName] at hread
      simp only [ht] at hread
      dsimp only at h
      split_ifs at h hread
      · exact hcode h hread
      · exact hcode h hread
  refine ⟨_,shown_int (by simp [FieldType.IsInt,ht]) (ht ▸ ⟨h₁,h₂⟩),?_⟩
  intro object array
  rw [parseFieldValue,renderInt,hbs]
  simp only [ht]
  refine (reads_uint (by omega)).bind_pure ?_
  rw [Int.toNat_of_nonneg h₁]
  split_ifs <;> rfl

theorem kept_uint32 (ht : d.fieldType=.uint32) (h : serializeUint32 d j=.ok bs)
    (hread : readUnsigned (readName d) j=some n) (hn : IntFits n .uint32) :
      Kept sha order d bs (.int n) := by
  obtain ⟨h₁,h₂⟩ := hn
  have hbs : bs=toBeBytes 4 n.toNat := by
    rw [serializeUint32] at h
    cases hs : j.asStr with
    | none =>
      rw [hs] at h
      obtain ⟨v,hv,hbs⟩ := bind_ok h
      rw [asU64_eq_some (expect_eq_ok hv)] at hread
      cases hread
      cases hbs
      have hlt : v < 2^32 := by exact_mod_cast h₂
      rw [Nat.mod_eq_of_lt hlt,Int.toNat_natCast]
    | some s =>
      rw [hs] at h
      rw [asStr_eq_some hs,readUnsigned,readName] at hread
      simp only [ht] at hread
      dsimp only at h
      split_ifs at h hread
      · obtain ⟨v,hv,rfl⟩ := map_eq_some_iff.mp hread
        rw [hv] at h
        cases h
        rfl
      · obtain ⟨v,hv,hbs⟩ := bind_ok h
        rw [(filter_eq_some (expect_eq_ok hv)).1] at hread
        cases hread
        cases hbs
        rfl
  refine ⟨.int n,shown_plain (by simp [ht]) (ht ▸ ⟨h₁,h₂⟩),?_⟩
  intro object array
  rw [parseFieldValue,hbs]
  simp only [ht]
  exact (reads_uint (by omega)).bind_pure (by rw [Int.toNat_of_nonneg h₁])

theorem kept_uint64 (ht : d.fieldType=.uint64) (h : serializeUint64 d j=.ok bs)
    (hread : readUnsigned (readName d) j=some n) (hn : IntFits n .uint64) :
      Kept sha order d bs (.int n) := by
  obtain ⟨h₁,h₂⟩ := hn
  have hbs : bs=toBeBytes 8 n.toNat := by
    rw [serializeUint64] at h
    cases hs : j.asStr with
    | none =>
      rw [hs] at h
      obtain ⟨v,hv,hbs⟩ := bind_ok h
      rw [asU64_eq_some (expect_eq_ok hv)] at hread
      cases hread
      cases hbs
      rfl
    | some s =>
      rw [hs] at h
      rw [asStr_eq_some hs,readUnsigned,readName] at hread
      simp only [ht] at hread
      obtain ⟨v,hv,hbs⟩ := bind_ok h
      rw [(filter_eq_some (expect_eq_ok hv)).1] at hread
      cases hread
      cases hbs
      rfl
  refine ⟨_,shown_int (by simp [FieldType.IsInt,ht]) (ht ▸ ⟨h₁,h₂⟩),?_⟩
  intro object array
  rw [parseFieldValue,renderInt,hbs]
  simp only [ht]
  refine (reads_uint (by omega)).bind_pure ?_
  split
  · rfl
  · rfl

/-! ### Bytes -/

theorem readHash_eq_some (h : readHash width s=some bs) : readHex s=some bs ∧ bs.length=width := by
  obtain ⟨h₁,h₂⟩ := filter_eq_some h
  exact ⟨h₁,by simpa using h₂⟩

theorem serializeHash_eq_ok (h : serializeHash j len=.ok bs) :
    ∃ s, j=.str s ∧ readHex s=some bs ∧ bs.length=len := by
  obtain ⟨s,hs,h⟩ := bind_ok h
  obtain ⟨bytes,hbytes,hexact⟩ := bind_ok h
  obtain ⟨rfl,hlen⟩ := exactly_eq_ok hexact
  exact ⟨s,asStr_eq_some (expect_eq_ok hs),decodeHex_eq_ok hbytes,hlen⟩

theorem reads_parseHex (h : bs.length=width) : Reads (parseHex width) bs (renderHex bs) :=
  (reads_readBytes h).bind_pure rfl

theorem kept_hash (ht : d.fieldType.hashWidth=some width) (hwidth : width ≤ 32)
    (h : serializeHash j width=.ok bs)
    (hread : (j.asStr.bind (readHash width)).map Leaf.bytes=some l)
    (hparse : ∀ object array, parseFieldValue sha order object array d=parseHex width) :
      Kept sha order d bs l := by
  obtain ⟨s,rfl,hhex,hlen⟩ := serializeHash_eq_ok h
  obtain ⟨bs',hbs',rfl⟩ := map_eq_some_iff.mp hread
  obtain ⟨hhex',-⟩ := readHash_eq_some hbs'
  cases hhex.symm.trans hhex'
  refine ⟨_,shown_hash ht hlen (by omega),fun object array => ?_⟩
  rw [hparse]
  exact reads_parseHex hlen

theorem kept_blob {bs' : Bytes} (ht : d.fieldType=.blob) (h : serializeBlob j=.ok bs)
    (hread : j.asStr.bind readHex=some bs') (hlen : bs'.length ≤ 918744) :
      Kept sha order d bs (.bytes bs') := by
  obtain ⟨s,hs,h⟩ := bind_ok h
  obtain ⟨bytes,hbytes,hbs⟩ := bind_ok h
  rw [expect_eq_ok hs,bind_some] at hread
  cases (decodeHex_eq_ok hbytes).symm.trans hread
  cases hbs
  refine ⟨_,shown_blob ht hlen,fun object array => ?_⟩
  rw [parseFieldValue]
  simp only [ht]
  exact (reads_readVlBlob hlen).bind_pure rfl

theorem serializeAccountId_eq_ok {a : Option AccountId} (h : serializeAccountId sha (.str s)=.ok bs)
    (hread : readDoor sha s=some a) :
    bs=writeVlLength (a.elim [] AccountId.asBytes).length++a.elim [] AccountId.asBytes := by
  rw [readDoor] at hread
  change (if s="" then _ else _)=_ at h
  split_ifs at h hread
  · cases hread
    cases h
    rfl
  · obtain ⟨a',ha',rfl⟩ := map_eq_some_iff.mp hread
    obtain ⟨bytes,hbytes,hbs⟩ := bind_ok h
    cases hbs
    rw [serializeAccountIdRaw_eq_ok hbytes ha']
    rfl

theorem kept_account {a : Option AccountId} (ht : d.fieldType=.accountId)
    (h : serializeAccountId sha j=.ok bs) (hread : j.asStr.bind (readDoor sha)=some a) :
    Kept sha order d bs (.account a) := by
  obtain ⟨s,hs,hdoor⟩ := bind_eq_some_iff.mp hread
  rw [asStr_eq_some hs] at h
  rw [serializeAccountId_eq_ok h hdoor]
  refine ⟨_,shown_account ht a,fun object array => ?_⟩
  rw [parseFieldValue]
  simp only [ht]
  cases a with
  | none => exact (reads_readVlBlob (by simp)).bind_pure rfl
  | some a =>
    have hlen := a.length_asBytes
    have hne : a.asBytes≠[] := fun hnil => by simp [hnil] at hlen
    rw [parseAccountId,← append_nil (_++_)]
    refine (reads_readVlBlob (by simp [hlen])).bind ?_
    change Reads (if a.asBytes=[] then _ else _) _ _
    rw [if_neg hne]
    exact (reads_parseAddress a).bind_pure rfl

/-! ### Amounts -/

theorem dropsWord_of_nonneg (h : 0 ≤ n) (h' : n < 2^62) : dropsWord n=2^62+n.toNat := by
  rw [dropsWord,if_pos h,Nat.or_comm,show 0x4000000000000000=2^62*1 from rfl,
    ← Nat.two_pow_add_eq_or_of_lt (by omega)]
  rfl

theorem dropsWord_of_neg (h : n < 0) (h' : -2^62 < n) : dropsWord n=(-n).toNat := by
  have hlt : (-n).toNat < 2^62 := by omega
  rw [dropsWord,if_neg (by omega),Int.emod_eq_of_lt (by omega) (by omega)]
  have hsplit : (-n).toNat &&& 0xBFFFFFFFFFFFFFFF=(-n).toNat &&& (0xBFFFFFFFFFFFFFFF % 2^62) := by
    rw [← Nat.and_two_pow_sub_one_eq_mod,Nat.and_comm 0xBFFFFFFFFFFFFFFF,← Nat.and_assoc,
      Nat.and_two_pow_sub_one_eq_mod,Nat.mod_eq_of_lt hlt]
  rw [hsplit,show 0xBFFFFFFFFFFFFFFF % 2^62=2^62-1 by
    norm_num,Nat.and_two_pow_sub_one_eq_mod,Nat.mod_eq_of_lt hlt]

theorem reads_drops (h : |n| < 2^62) :
    Reads (parseAmount sha) (toBeBytes 8 (dropsWord n)) (.str (ascii (intText n))) := by
  obtain ⟨h₁,h₂⟩ := abs_lt.mp h
  have hbit : ∀ raw : ℕ, raw &&& 0x4000000000000000≠0 ↔ raw/2^62 % 2=1 := fun raw =>
    and_two_pow_ne_zero_iff raw 62
  have hiou : ∀ raw : ℕ, raw &&& 0x8000000000000000≠0 ↔ raw/2^63 % 2=1 := fun raw =>
    and_two_pow_ne_zero_iff raw 63
  have hmask : ∀ raw : ℕ, raw &&& 0x3FFFFFFFFFFFFFFF=raw % 2^62 := fun raw =>
    Nat.and_two_pow_sub_one_eq_mod raw 62
  have hlt : dropsWord n < 2^63 := by
    rcases lt_or_ge n 0 with hneg | hpos
    · rw [dropsWord_of_neg hneg h₁]
      omega
    · rw [dropsWord_of_nonneg hpos h₂]
      omega
  refine (reads_uint (by omega)).bind_pure ?_
  rw [if_pos (by rw [← not_not (a := _=0),← Ne,hiou]; omega)]
  dsimp only
  rcases lt_or_ge n 0 with hneg | hpos
  · rw [dropsWord_of_neg hneg h₁,if_neg (by rw [hbit]; omega),hmask,
      show -(((-n).toNat % 2^62 : ℕ) : ℤ)=n by omega]
  · rw [dropsWord_of_nonneg hpos h₂,if_pos (by rw [hbit]; omega),hmask,
      show (((2^62+n.toNat) % 2^62 : ℕ) : ℤ)=n by omega]

theorem kept_drops (ht : d.fieldType=.amount) (h : serializeAmount sha (.str s)=.ok bs)
    (hread : readInt (utf8 s)=some n) (hn : |n| < 2^62) : Kept sha order d bs (.drops n) := by
  obtain ⟨n',hn',hbs⟩ := bind_ok h
  obtain ⟨hn',-⟩ := filter_eq_some (expect_eq_ok hn')
  cases hn'.symm.trans hread
  cases hbs
  refine ⟨_,shown_drops ht hn,fun object array => ?_⟩
  rw [parseFieldValue]
  simp only [ht]
  exact reads_drops hn

theorem kept_iou {currency issuer value : String} {account : AccountId} (ht : d.fieldType=.amount)
    (h : serializeAmount sha
      (.obj [("currency",.str currency),("issuer",.str issuer),("value",.str value)])=.ok bs)
    (hvalue : read (utf8 value)=some q) (hcurrency : readCurrency currency=some code)
    (hissuer : readAccount sha issuer=some account) (hq : IouFits q) (hcode : code≠.xrpLetters) :
    Kept sha order d bs (.iou q code account) := by
  obtain ⟨v,hv,h⟩ := bind_ok h
  cases expect_eq_ok hv
  obtain ⟨c,hc,h⟩ := bind_ok h
  cases expect_eq_ok hc
  obtain ⟨i,hi,h⟩ := bind_ok h
  cases expect_eq_ok hi
  obtain ⟨word,hword,h⟩ := bind_ok h
  obtain ⟨codeBytes,hcodeBytes,h⟩ := bind_ok h
  obtain ⟨accountBytes,haccount,hbs⟩ := bind_ok h
  cases hbs
  rw [serializeCurrencyCode_eq_ok hcodeBytes hcurrency,serializeAccountIdRaw_eq_ok haccount hissuer]
  obtain ⟨raw,t,rfl,hlow,hhigh,hdecode,hread⟩ := serializeIouValue_spec hword hvalue hq
  refine ⟨_,shown_iou ht hdecode hread hcode account,fun object array => ?_⟩
  rw [parseFieldValue]
  simp only [ht]
  rw [append_assoc]
  refine (reads_uint (by omega)).bind ?_
  have hiou : raw &&& 0x8000000000000000≠0 := (and_two_pow_ne_zero_iff raw 63).mpr (by omega)
  rw [if_neg hiou,← nil_append (_++_)]
  refine (reads_ofResult hdecode).bind ((reads_readBytes code.length_asBytes).bind ?_)
  rw [← append_nil account.asBytes]
  refine reads_address (f := fun _ issuer => pure _) ?_
  rw [insert_amount]
  exact Reads.pure _

/-! ### Lists -/

theorem mapM_forall₂ {ε α β γ : Type} {f : α → Except ε β} {g : α → Option γ} {R : β → γ → Prop}
    (h : ∀ a b c, f a=.ok b → g a=some c → R b c) {l : List α} {bs : List β} {cs : List γ}
    (hf : l.mapM f=.ok bs) (hg : l.mapM g=some cs) : Forall₂ R bs cs ∧ cs.length=l.length := by
  induction l generalizing bs cs with
  | nil =>
    cases hf
    cases hg
    exact ⟨.nil,rfl⟩
  | cons a l ih =>
    rw [mapM_cons] at hf hg
    obtain ⟨b,hb,hf⟩ := bind_ok hf
    obtain ⟨bs',hbs',hf⟩ := bind_ok hf
    obtain ⟨c,hc,hg⟩ := bind_eq_some_iff.mp hg
    obtain ⟨cs',hcs',hg⟩ := bind_eq_some_iff.mp hg
    cases hf
    cases hg
    obtain ⟨hrest,hlen⟩ := ih hbs' hcs'
    exact ⟨.cons (h a b c hb hc) hrest,by simp [hlen]⟩

theorem reads_parseHashes (h : ∀ x∈hs, x.length=32) :
    Reads (parseHashes hs.length) hs.flatten (hs.map renderHex) := by
  induction hs with
  | nil => exact Reads.pure _
  | cons x hs ih =>
    refine (reads_parseHex (h x (by simp))).bind ?_
    exact (ih fun x' hx' => h x' (by simp [hx'])).bind_pure rfl

theorem kept_hashes (ht : d.fieldType=.vector256) (h : serializeVector256 j=.ok bs)
    (hread : j.asArray.bind (·.mapM fun x => x.asStr.bind (readHash 32))=some hs)
    (hlimit : hs.length*32 ≤ 918744) : Kept sha order d bs (.hashes hs) := by
  obtain ⟨arr,harr,h⟩ := bind_ok h
  obtain ⟨items,hitems,hbs⟩ := bind_ok h
  rw [expect_eq_ok harr,bind_some] at hread
  cases hbs
  have hitem : ∀ (x : Json) (b c : Bytes), serializeVectorItem x=.ok b →
    x.asStr.bind (readHash 32)=some c →
      b.length=32 ∧ b=c := by
    intro x b c hb hc
    obtain ⟨s,rfl,hhex,hlen⟩ := serializeHash_eq_ok (show serializeHash x 32=.ok b by
      obtain ⟨s,hs,hb⟩ := bind_ok hb
      rw [serializeHash,expect_eq_ok hs]
      exact hb)
    exact ⟨hlen,Option.some.inj (hhex.symm.trans (readHash_eq_some hc).1)⟩
  obtain ⟨hboth,hlen⟩ := mapM_forall₂ hitem hitems hread
  obtain ⟨hall,hsame⟩ := (List.forall₂_and_left _ _).mp hboth
  rw [List.forall₂_eq_eq_eq] at hsame
  subst hsame
  refine ⟨_,shown_hashes ht hall hlimit,fun object array => ?_⟩
  rw [parseFieldValue]
  simp only [ht]
  rw [← hlen]
  refine (reads_readVlLength hlimit).bind ?_
  rw [Nat.mul_div_cancel _ (by decide)]
  exact (reads_parseHashes hall).bind_pure rfl

/-! ### Currencies and issues -/

theorem kept_currency (ht : d.fieldType=.currency) (h : serializeCurrency j=.ok bs)
    (hread : j.asStr.bind readCurrency=some code) (hcode : code≠.xrpLetters) :
    Kept sha order d bs (.currency code) := by
  obtain ⟨s,hs,h⟩ := bind_ok h
  rw [expect_eq_ok hs,bind_some] at hread
  rw [serializeCurrencyCode_eq_ok h hread]
  refine ⟨_,shown_currency ht hcode,fun object array => ?_⟩
  rw [parseFieldValue]
  simp only [ht]
  exact (reads_readBytes code.length_asBytes).bind_pure rfl

def issueBytes : Asset → Bytes
  | .xrp => CurrencyCode.xrp.asBytes
  | .issued code _ issuer => code.asBytes++issuer.asBytes

theorem serializeIssue_eq_ok {a : Asset} (h : serializeIssue sha j=.ok bs)
    (hread : readIssue sha j=some a) : bs=issueBytes a := by
  rw [readIssue.eq_def] at hread
  split at hread
  · rename_i k currency
    split_ifs at hread with hk
    subst hk
    obtain ⟨code,hcode,hread⟩ := bind_eq_some_iff.mp hread
    obtain ⟨obj,hobj,h⟩ := bind_ok h
    cases expect_eq_ok hobj
    obtain ⟨c,hc,h⟩ := bind_ok h
    cases expect_eq_ok hc
    obtain ⟨bytes,hbytes,h⟩ := bind_ok h
    rw [show memberStr "issuer" [("currency",.str currency)]=none from rfl] at h
    have hbs : bs=bytes := by
      split at h
      · exact (Except.ok.inj h).symm
      · have := (Except.ok.inj h).symm
        rwa [append_nil] at this
    split_ifs at hread with hxrp
    cases hread
    rw [hbs,serializeCurrencyCode_eq_ok hbytes hcode,hxrp]
    rfl
  · rename_i k currency k' issuer
    split_ifs at hread with hk
    obtain ⟨rfl,rfl⟩ := hk
    obtain ⟨code,hcode,hread⟩ := bind_eq_some_iff.mp hread
    obtain ⟨account,haccount,hread⟩ := bind_eq_some_iff.mp hread
    obtain ⟨obj,hobj,h⟩ := bind_ok h
    cases expect_eq_ok hobj
    obtain ⟨c,hc,h⟩ := bind_ok h
    cases expect_eq_ok hc
    obtain ⟨bytes,hbytes,h⟩ := bind_ok h
    rw [show memberStr "issuer" [("currency",.str currency),("issuer",.str issuer)]=some issuer
      from rfl] at h
    split at hread
    · cases hread
    rename_i hxrp
    cases hread
    have hne : currency≠"XRP" := by
      rintro rfl
      rw [readCurrency,if_pos rfl] at hcode
      exact hxrp (Option.some.inj hcode).symm
    rw [if_neg hne] at h
    obtain ⟨accountBytes,haccountBytes,hbs⟩ := bind_ok h
    cases hbs
    rw [serializeCurrencyCode_eq_ok hbytes hcode,serializeAccountIdRaw_eq_ok haccountBytes haccount]
    rfl
  · cases hread

theorem reads_parseIssue {a : Asset} (h : a.Fits) :
    Reads (parseIssue sha) (issueBytes a) (renderIssue sha a) := by
  cases a with
  | xrp =>
    have htext : decodeCurrencyCode CurrencyCode.xrp.asBytes="XRP" := by decide
    refine (reads_readBytes CurrencyCode.xrp.length_asBytes).bind_pure ?_
    rw [htext,if_neg (by simp)]
    rfl
  | issued code hcode issuer =>
    refine (reads_readBytes code.length_asBytes).bind ?_
    have htext : decodeCurrencyCode code.asBytes≠"XRP" := by
      intro hx
      rcases decodeCurrencyCode_eq_xrp hx with hx | hx
      · exact hcode hx
      · exact h hx
    have hzero : ¬ code.asBytes.all (· == 0)=true := by rwa [all_zero_iff]
    rw [if_pos ⟨htext,hzero⟩,← append_nil issuer.asBytes]
    refine reads_address (f := fun _ issuer => pure _) ?_
    rw [insert_issue]
    exact Reads.pure _

theorem kept_issue {a : Asset} (ht : d.fieldType=.issue) (h : serializeIssue sha j=.ok bs)
    (hread : readIssue sha j=some a) (ha : a.Fits) : Kept sha order d bs (.issue a) := by
  rw [serializeIssue_eq_ok h hread]
  refine ⟨_,shown_issue ht ha,fun object array => ?_⟩
  rw [parseFieldValue]
  simp only [ht]
  exact reads_parseIssue ha

/-! ### Bridges -/

theorem serializeChain_eq_ok {obj : List (String × Json)}
    (h : serializeChain sha obj door issue=.ok bs) (hdoor : Json.find door obj=some (.str s))
    (hissue : Json.find issue obj=some j) (hs : readDoor sha s=some (some a))
    (hj : readIssue sha j=some asset) : bs=writeVlLength 20++a.asBytes++issueBytes asset := by
  obtain ⟨x,hx,h⟩ := bind_ok h
  cases hdoor.symm.trans (expect_eq_ok hx)
  obtain ⟨account,haccount,h⟩ := bind_ok h
  obtain ⟨y,hy,h⟩ := bind_ok h
  cases hissue.symm.trans (expect_eq_ok hy)
  obtain ⟨rest,hrest,hbs⟩ := bind_ok h
  cases hbs
  have hbytes := serializeAccountId_eq_ok haccount hs
  simp only [elim_some,a.length_asBytes] at hbytes
  rw [hbytes,serializeIssue_eq_ok hrest hj]

theorem reads_parseChain (h : asset.Fits) (map : List (String × Json)) :
    Reads (parseChain sha door issue map) (writeVlLength 20++a.asBytes++issueBytes asset)
      (Json.insert issue (renderIssue sha asset)
        (Json.insert door (.str (encodeAccountId sha a)) map)) := by
  have hblob := @reads_readVlBlob a.asBytes (by rw [a.length_asBytes]; decide)
  rw [a.length_asBytes] at hblob
  refine hblob.bind ?_
  rw [← nil_append (issueBytes asset)]
  exact (reads_parseAddress a).bind ((reads_parseIssue h).bind_pure rfl)

theorem kept_bridge {b : Bridge} (ht : d.fieldType=.xchainBridge)
    (h : serializeXchainBridge sha j=.ok bs) (hread : readBridge sha j=some b)
    (hb : b.lockingDoor.isSome ∧ b.lockingIssue.Fits ∧ b.issuingDoor.isSome ∧ b.issuingIssue.Fits) :
    Kept sha order d bs (.bridge b) := by
  rw [readBridge.eq_def] at hread
  split at hread
  · rename_i k₁ door' k₂ issue' k₃ door k₄ issue
    split at hread
    · rename_i hk
      obtain ⟨rfl,rfl,rfl,rfl⟩ := hk
      obtain ⟨a,ha,hread⟩ := bind_eq_some_iff.mp hread
      obtain ⟨asset,hasset,hread⟩ := bind_eq_some_iff.mp hread
      obtain ⟨a',ha',hread⟩ := bind_eq_some_iff.mp hread
      obtain ⟨asset',hasset',rfl⟩ := map_eq_some_iff.mp hread
      obtain ⟨h₁,h₂,h₃,h₄⟩ := hb
      obtain ⟨a,rfl⟩ := isSome_iff_exists.mp h₁
      obtain ⟨a',rfl⟩ := isSome_iff_exists.mp h₃
      obtain ⟨obj,hobj,h⟩ := bind_ok h
      cases expect_eq_ok hobj
      obtain ⟨locking,hlocking,h⟩ := bind_ok h
      obtain ⟨issuing,hissuing,hbs⟩ := bind_ok h
      cases hbs
      rw [serializeChain_eq_ok hlocking (by simp [Json.find]) (by simp [Json.find]) ha hasset,
        serializeChain_eq_ok hissuing (by simp [Json.find]) (by simp [Json.find]) ha' hasset']
      refine ⟨_,shown_bridge ht ⟨h₁,h₂,h₃,h₄⟩,fun object array => ?_⟩
      rw [parseFieldValue]
      simp only [ht]
      refine (reads_parseChain h₂ []).bind ((reads_parseChain h₄ _).bind_pure ?_)
      rw [insert_bridge]
      rfl
    · cases hread
  · cases hread

/-! ### Path sets -/

def optionBytes {α : Type} (bytes : α → Bytes) (a : Option α) : Bytes := a.elim [] bytes

def stepBytes (step : PathStep) : Bytes :=
  stepType step.account.isSome step.currency.isSome step.issuer.isSome ::
    (optionBytes AccountId.asBytes step.account++optionBytes CurrencyCode.asBytes step.currency ++
      optionBytes AccountId.asBytes step.issuer)

def pathBytes (path : List PathStep) : Bytes := (path.map stepBytes).flatten

def pathsBytes : List (List PathStep) → Bytes
  | [] => []
  | path::paths => pathBytes path++(if paths.isEmpty then [] else [0xFF])++pathsBytes paths

theorem serializeOptional_eq_ok {α : Type} {serialize : String → Except CodecError Bytes}
    {readText : String → Option α} {bytes : α → Bytes}
    (h : ∀ s b a, serialize s=.ok b → readText s=some a → b=bytes a) {a : Option α}
    (hser : serializeOptional serialize (memberStr key members)=.ok bs)
    (hread : readPart readText (Json.find key members)=some a) :
    bs=optionBytes bytes a ∧ (Json.find key members).isSome=a.isSome := by
  rw [memberStr] at hser
  cases hfind : Json.find key members with
  | none =>
    rw [hfind] at hser hread
    cases hser
    cases hread
    exact ⟨rfl,rfl⟩
  | some j =>
    rw [hfind] at hser hread
    cases j with
    | str s =>
      obtain ⟨a',ha',rfl⟩ := map_eq_some_iff.mp hread
      exact ⟨h s bs a' hser ha',rfl⟩
    | _ => cases hread

theorem serializePathStep_eq_ok {step : PathStep} (h : serializePathStep sha j=.ok bs)
    (hread : readStep sha j=some step) : bs=stepBytes step := by
  obtain ⟨obj,hobj,h⟩ := bind_ok h
  rw [asObject_eq_some (expect_eq_ok hobj),readStep] at hread
  split_ifs at hread
  obtain ⟨account,haccount,hread⟩ := bind_eq_some_iff.mp hread
  obtain ⟨currency,hcurrency,hread⟩ := bind_eq_some_iff.mp hread
  obtain ⟨issuer,hissuer,hread⟩ := bind_eq_some_iff.mp hread
  split_ifs at hread
  cases hread
  obtain ⟨bs₁,h₁,h⟩ := bind_ok h
  obtain ⟨bs₂,h₂,h⟩ := bind_ok h
  obtain ⟨bs₃,h₃,hbs⟩ := bind_ok h
  cases hbs
  have haddress : ∀ s b (a : AccountId), serializeAccountIdRaw sha s=.ok b →
    readAccount sha s=some a →
      b=a.asBytes := fun s b a => serializeAccountIdRaw_eq_ok
  obtain ⟨rfl,hsome₁⟩ := serializeOptional_eq_ok haddress h₁ haccount
  obtain ⟨rfl,hsome₂⟩ := serializeOptional_eq_ok (fun s b a => serializeCurrencyCode_eq_ok) h₂
    hcurrency
  obtain ⟨rfl,hsome₃⟩ := serializeOptional_eq_ok haddress h₃ hissuer
  rw [hsome₁,hsome₂,hsome₃]
  rfl

theorem serializePath_eq_ok (h : serializePath sha j=.ok bs) (hread : readPath sha j=some path) :
    bs=pathBytes path := by
  obtain ⟨steps,hsteps,h⟩ := bind_ok h
  rw [asArray_eq_some (expect_eq_ok hsteps),readPath] at hread
  obtain ⟨parts,hparts,hbs⟩ := bind_ok h
  cases hbs
  obtain ⟨hall,-⟩ := mapM_forall₂ (fun j b step => serializePathStep_eq_ok) hparts hread
  rw [← List.forall₂_map_right_iff,List.forall₂_eq_eq_eq] at hall
  rw [hall]
  rfl

theorem serializePaths_eq_ok {js : List Json} (h : serializePaths sha js=.ok bs)
    (hread : js.mapM (readPath sha)=some ps) : bs=pathsBytes ps := by
  induction js generalizing bs ps with
  | nil =>
    cases h
    cases hread
    rfl
  | cons j js ih =>
    obtain ⟨first,hfirst,h⟩ := bind_ok h
    obtain ⟨rest,hrest,hbs⟩ := bind_ok h
    rw [mapM_cons] at hread
    obtain ⟨path,hpath,hread⟩ := bind_eq_some_iff.mp hread
    obtain ⟨paths,hpaths,hread⟩ := bind_eq_some_iff.mp hread
    cases hread
    cases hbs
    have hempty : js.isEmpty=paths.isEmpty := by
      cases js with
      | nil =>
        cases hpaths
        rfl
      | cons j' js =>
        rw [mapM_cons] at hpaths
        obtain ⟨path',-,hpaths⟩ := bind_eq_some_iff.mp hpaths
        obtain ⟨paths',-,hpaths⟩ := bind_eq_some_iff.mp hpaths
        cases hpaths
        rfl
    rw [serializePath_eq_ok hfirst hpath,ih hrest hpaths,pathsBytes,hempty]

theorem stepType_bits (a c i : Bool) :
    (stepType a c i &&& 0x01≠0 ↔ a) ∧ (stepType a c i &&& 0x10≠0 ↔ c) ∧
      (stepType a c i &&& 0x20≠0 ↔ i) ∧
      stepType a c i &&& 0xCE=0 ∧ (stepType a c i).toNat≠0xFF ∧
        ((a || c || i)=true → (stepType a c i).toNat≠0) := by
  cases a <;> cases c <;> cases i <;> decide

theorem reads_parseStepMember {α : Type} {bytes : α → Bytes} {show' : α → String}
    {text : Bytes → Parser String} (hlen : ∀ a, (bytes a).length=20)
    (htext : ∀ a, Reads (text (bytes a)) [] (show' a)) {typeByte bit : UInt8} {a : Option α}
    (hbit : typeByte &&& bit≠0 ↔ a.isSome) {front : List (String × Json)}
    (hinsert : ∀ x, Json.insert key x front=front++[(key,x)]) :
    Reads (parseStepMember typeByte bit key text front) (optionBytes bytes a)
      (front++renderPart key (a.map show')) := by
  rw [parseStepMember]
  cases a with
  | none =>
    rw [if_neg (by simpa using hbit)]
    simpa [renderPart,optionBytes] using Reads.pure front
  | some a =>
    rw [if_pos (hbit.mpr rfl),optionBytes,elim_some,← append_nil (bytes a)]
    refine (reads_readBytes (hlen a)).bind ((htext a).bind_pure ?_)
    rw [hinsert]
    rfl

theorem reads_parsePathStep (step : PathStep) :
    Reads (parsePathStep sha (stepType step.account.isSome step.currency.isSome step.issuer.isSome))
      (optionBytes AccountId.asBytes step.account++optionBytes CurrencyCode.asBytes step.currency ++
        optionBytes AccountId.asBytes step.issuer) (renderStep sha step) := by
  obtain ⟨h₁,h₂,h₃,hmask,-,-⟩ :=
    stepType_bits step.account.isSome step.currency.isSome step.issuer.isSome
  rw [parsePathStep,if_neg (by rw [hmask]; simp),append_assoc]
  have haccount : Reads (parseStepMember _ 0x01 "account" (parseAddress sha) []) _ _ :=
    reads_parseStepMember AccountId.length_asBytes reads_parseAddress h₁ fun x => rfl
  have hcurrency : Reads
    (parseStepMember _ 0x10 "currency" (fun bytes => pure (decodeCurrencyCode bytes)) _) _ _ :=
    reads_parseStepMember CurrencyCode.length_asBytes (fun code => Reads.pure (currencyText code))
      h₂
      (insert_currency (step.account.map (encodeAccountId sha)))
  have hissuer : Reads (parseStepMember _ 0x20 "issuer" (parseAddress sha) _) _ _ :=
    reads_parseStepMember AccountId.length_asBytes reads_parseAddress h₃
      (insert_issuer (step.account.map (encodeAccountId sha)) (step.currency.map currencyText))
  exact haccount.bind (hcurrency.bind (hissuer.bind_pure rfl))

theorem remaining_bind {β : Type} (f : ℕ → Parser β) (s : Bytes) :
    (remaining >>= f) s=f s.length s := rfl

theorem parsePathsetLoop_steps (path : List PathStep) (done current : List Json) {k : ℕ}
    (hfuel : (pathBytes path).length+k ≤ fuel) :
    ∃ fuel' ≥ k, ∀ rest, parsePathsetLoop sha fuel done current (pathBytes path++rest) =
      parsePathsetLoop sha fuel' done (current++path.map (renderStep sha)) rest := by
  induction path generalizing current fuel with
  | nil => exact ⟨fuel,by simpa [pathBytes] using hfuel,fun rest => by simp [pathBytes]⟩
  | cons step path ih =>
    have hsplit : pathBytes (step::path)=stepBytes step++pathBytes path := rfl
    have hpos : 1 ≤ (stepBytes step).length := by simp [stepBytes]
    rw [hsplit,length_append] at hfuel
    obtain ⟨fuel,rfl⟩ : ∃ n, fuel=n+1 := ⟨fuel-1,by omega⟩
    obtain ⟨fuel',hfuel',hrun⟩ := ih (current++[renderStep sha step])
      (show (pathBytes path).length+k ≤ fuel by omega)
    refine ⟨fuel',hfuel',fun rest => ?_⟩
    obtain ⟨-,-,-,-,hff,hzero⟩ :=
      stepType_bits step.account.isSome step.currency.isSome step.issuer.isSome
    have hzero := hzero (by simpa [or_assoc] using step.nonempty)
    rw [parsePathsetLoop,remaining_bind,if_neg (by rw [hsplit]; simp [stepBytes]),hsplit,
      append_assoc,stepBytes,
      cons_append,bind_of_ok (readUint_one _ _),if_neg hzero,if_neg hff,UInt8.ofNat_toNat,
      bind_of_ok (reads_parsePathStep step _),hrun]
    simp

theorem closePath_of_ne (h : path≠[]) (done : List Json) :
    closePath done ([]++path.map (renderStep sha))=done++[renderPath sha path] := by
  rw [closePath,nil_append,if_neg (by simpa using h)]
  rfl

theorem parsePathsetLoop_end (fuel : ℕ) (done current : List Json) (rest : Bytes) :
    parsePathsetLoop sha (fuel+1) done current (0x00::rest)=.ok
      (.arr (closePath done current),rest) := by
  rw [parsePathsetLoop,remaining_bind,if_neg (by simp),bind_of_ok (readUint_one _ _),
    if_pos (by decide),pure_apply]

theorem parsePathsetLoop_separator (fuel : ℕ) (done current : List Json) (rest : Bytes) :
    parsePathsetLoop sha (fuel+1) done current (0xFF::rest) =
      parsePathsetLoop sha fuel (closePath done current) [] rest := by
  rw [parsePathsetLoop,remaining_bind,if_neg (by simp),bind_of_ok (readUint_one _ _),
    if_neg (by decide),
    if_pos (by decide)]

theorem parsePathsetLoop_paths (hps : ∀ p∈ps, p≠[]) (done : List Json)
    (hfuel : (pathsBytes ps).length < fuel) (rest : Bytes) :
    parsePathsetLoop sha fuel done [] (pathsBytes ps++0x00::rest) =
      .ok (.arr (done++ps.map (renderPath sha)),rest) := by
  induction ps generalizing done fuel with
  | nil =>
    obtain ⟨fuel,rfl⟩ : ∃ n, fuel=n+1 := ⟨fuel-1,by omega⟩
    rw [pathsBytes,nil_append,parsePathsetLoop_end]
    simp [closePath]
  | cons path ps ih =>
    have hpath := hps path (by simp)
    rw [pathsBytes,append_assoc,append_assoc]
    rw [pathsBytes,length_append,length_append] at hfuel
    cases ps with
    | nil =>
      obtain ⟨fuel',hfuel',hrun⟩ := parsePathsetLoop_steps path done [] (k := 1)
        (show (pathBytes path).length+1 ≤ fuel by simp [pathsBytes] at hfuel; omega)
      obtain ⟨fuel',rfl⟩ : ∃ n, fuel'=n+1 := ⟨fuel'-1,by omega⟩
      rw [hrun,pathsBytes,isEmpty_nil,if_pos rfl]
      change parsePathsetLoop sha (fuel'+1) done ([]++path.map (renderStep sha)) (0x00::rest)=_
      rw [parsePathsetLoop_end,closePath_of_ne hpath]
      rfl
    | cons path' ps =>
      rw [isEmpty_cons,if_neg (by simp)] at hfuel ⊢
      obtain ⟨fuel',hfuel',hrun⟩ :=
        parsePathsetLoop_steps path done [] (k := (pathsBytes (path'::ps)).length+2)
        (show (pathBytes path).length+((pathsBytes (path'::ps)).length+2) ≤ fuel by
          simp at hfuel; omega)
      obtain ⟨fuel',rfl⟩ : ∃ n, fuel'=n+1 := ⟨fuel'-1,by omega⟩
      rw [hrun,singleton_append,parsePathsetLoop_separator,closePath_of_ne hpath,
        ih (fun p hp => hps p (by simp [hp])) _ (by omega)]
      simp

theorem kept_paths (ht : d.fieldType=.pathSet) (h : serializePathset sha j=.ok bs)
    (hread : j.asArray.bind (·.mapM (readPath sha))=some ps)
    (hps : ∀ p∈ps, p≠[] ∧ ∀ step∈p, step.currency≠some .xrpLetters) :
      Kept sha order d bs (.paths ps) := by
  obtain ⟨arr,harr,h⟩ := bind_ok h
  obtain ⟨bytes,hbytes,hbs⟩ := bind_ok h
  rw [expect_eq_ok harr,bind_some] at hread
  cases hbs
  rw [serializePaths_eq_ok hbytes hread]
  refine ⟨_,shown_paths ht hps,fun object array rest => ?_⟩
  rw [parseFieldValue]
  simp only [ht]
  rw [parsePathset,remaining_bind,append_assoc,singleton_append,
    parsePathsetLoop_paths (fun p hp => (hps p hp).1) [] (by simp)]
  simp

/-! ### Numbers -/

theorem wrapI64_of_range (h : -2^63 ≤ x) (h' : x < 2^63) : wrapI64 x=x :=
  Int.bmod_eq_of_le (by simpa using h) (by omega)

theorem wrapI64_of_ge (h : 2^63 ≤ x) (h' : x < 2^64) : wrapI64 x=x-2^64 := by
  rw [wrapI64,Int.bmod_def]
  split <;> push_cast at * <;> omega

theorem reads_number {e : ℤ} (hx : 10^18 ≤ |x|) (hx' : |x| < 2^63) (he : minExponent ≤ e)
    (he' : e < 2^31) :
    Reads parseNumber (toBeBytes 8 (x % 2^64).toNat++toBeBytes 4 (e % 2^32).toNat)
      (.str (ascii (Number.toDecimalString ⟨x < 0,x.natAbs,e⟩))) := by
  rw [minExponent] at he
  have hback : (((x % 2^64).toNat : ℕ) : ℤ).bmod (2^64)=x := by
    rw [bmod_toNat]
    exact wrapI64_of_range (by rw [abs_lt] at hx'; omega) (by rw [abs_lt] at hx'; omega)
  have hback' : (((e % 2^32).toNat : ℕ) : ℤ).bmod (2^32)=e := by
    rw [bmod_toNat]
    exact wrapI32_of_range (by omega) he'
  have hne : x≠0 := by
    rintro rfl
    norm_num at hx
  refine (reads_uint (by omega)).bind ((reads_uint (by omega)).bind_pure ?_)
  dsimp only
  rw [← Int.natCast_natAbs] at hx hx'
  rw [hback,hback',if_neg hne,
    Number.new_of_mem _ _ (by omega) (by omega) (by rw [minExponent]; omega)]

theorem scaled_thousand (m : ℕ) (e : ℤ) : ((m*1000 : ℕ) : ℚ)*10^(e-3)=m*10^e := by
  rw [zpow_sub₀ (by norm_num)]
  push_cast
  ring

theorem iouFits_of_numberFits (h : NumberFits q) : IouFits |q| := by
  rcases h with rfl | ⟨m,e,hm,hm',he,he',hq⟩
  · exact Or.inl (by simp)
  · exact Or.inr ⟨m,e,hm,by omega,he,he',by rw [abs_abs,hq]⟩

/-- A number comes back as itself exactly when it fits. -/
theorem number_trip (h : serializeNumber (.str s)=.ok bs)
    (hread : read (utf8 (IOUAmount.trim s))=some q) :
    ∃ n : Number, n.Normal ∧ (n.value=q ↔ NumberFits q) ∧
      Reads parseNumber bs (.str (ascii n.toDecimalString)) := by
  obtain ⟨p,hp,hq⟩ := map_eq_some_iff.mp hread
  have hmag : p.magnitude = |q| := by rw [← hq,abs_signed,abs_of_nonneg (magnitude_nonneg p)]
  rw [serializeNumber,show expect "expected string for Number" (Json.str s).asStr=.ok s from rfl]
    at h
  dsimp only [bind,Except.bind] at h
  cases hiou : IOUAmount.fromDecimalString s with
  | error e =>
    rw [hiou] at h
    cases h
  | ok iou =>
    rw [hiou] at h
    obtain ⟨hcanon,hsign,hvalue⟩ := IOUAmount.fromDecimalString_spec hp hiou
    rw [hmag] at hvalue
    have hvalue' : NumberFits q → iou.value=q := fun hfits => by
      rw [hvalue (iouFits_of_numberFits hfits),← hmag,hq]
    dsimp only at h
    rcases hcanon with rfl | ⟨hm,hm',he,he'⟩
    · rw [if_pos (show IOUAmount.zero.isZero=true from rfl)] at h
      cases h
      refine ⟨.zero,Or.inl rfl,?_,?_⟩
      · rw [Number.zero_value]
        refine ⟨fun h0 => Or.inl h0.symm,fun hfits => ?_⟩
        rw [← hvalue' hfits,IOUAmount.zero_value]
      · have hzero : "0"=ascii Number.zero.toDecimalString := by decide
        rw [← hzero]
        refine (reads_uint (by decide)).bind ((reads_uint (by decide)).bind_pure ?_)
        dsimp only
        rw [if_pos (by decide)]
    · have hne : iou.isZero=false := by
        rw [IOUAmount.isZero,beq_eq_false_iff_ne]
        omega
      have hzero : iou≠.zero := by
        rintro rfl
        simp [IOUAmount.zero] at hm
      have hneg := hsign.resolve_left hzero
      have hfrom :
        Number.fromIou .large .toNearest iou=⟨iou.negative,iou.mantissa*1000,iou.exponent-3⟩ := by
        rw [Number.fromIou,hne,if_neg (by simp),Number.new_canonical _ _ hm hm' he he']
      rw [hne,if_neg (by simp),hfrom] at h
      dsimp only at h
      -- the word is read back as the number with the given sign and mantissa
      have hword : ∀ {x : ℤ} {negative : Bool} {m : ℕ},
          (if iou.negative=true then wrapI64 (-wrapI64 ((iou.mantissa*1000 : ℕ) : ℤ))
            else wrapI64 ((iou.mantissa*1000 : ℕ) : ℤ))=x → x=(if negative then -(m : ℤ) else m) →
          10^18 ≤ m → m < 2^63 →
          Reads parseNumber bs
            (.str (ascii (Number.toDecimalString ⟨negative,m,iou.exponent-3⟩))) := by
        intro x negative m hif hx hlo hhi
        have habs : |x| = m := by
          rw [hx]
          split
          · rw [abs_neg,Nat.abs_cast]
          · rw [Nat.abs_cast]
        have hxneg : decide (x < 0)=negative := by
          rw [hx]
          cases negative
          · simp
          · simp only [if_true,decide_eq_true_eq]
            omega
        have hreads := @reads_number x (iou.exponent-3) (by rw [habs]; omega) (by rw [habs]; omega)
          (by rw [minExponent]; omega) (by omega)
        rw [← Int.natCast_natAbs] at habs
        rw [hxneg,show x.natAbs=m by omega] at hreads
        rw [hif] at h
        cases h
        exact hreads
      rcases le_or_gt iou.mantissa 9223372036854775 with hle | hgt
      · -- the mantissa fits an `i64`
        refine ⟨⟨iou.negative,iou.mantissa*1000,iou.exponent-3⟩,
          Or.inr ⟨by dsimp only; omega,by dsimp only; omega⟩,?_,hword rfl ?_ (by omega) (by omega)⟩
        · have hnv : Number.value ⟨iou.negative,iou.mantissa*1000,iou.exponent-3⟩=iou.value := by
            rw [Number.value,IOUAmount.value,scaled_thousand]
          rw [hnv]
          refine ⟨fun heq => Or.inr ⟨iou.mantissa,iou.exponent,hm,hle,he,he',?_⟩,hvalue'⟩
          rw [← heq,IOUAmount.value,abs_signed,abs_of_nonneg (by positivity)]
        · rw [wrapI64_of_range (x := ((iou.mantissa*1000 : ℕ) : ℤ)) (by omega) (by omega),
            wrapI64_of_range (by omega) (by omega)]
      · -- the mantissa does not, and the word has the other sign
        refine ⟨⟨!iou.negative,2^64-iou.mantissa*1000,iou.exponent-3⟩,
          Or.inr ⟨by dsimp only; omega,by dsimp only; omega⟩,?_,hword rfl ?_ (by omega) (by omega)⟩
        · constructor
          · intro heq
            exfalso
            have hk : 0 < 2^64-iou.mantissa*1000 := by omega
            have hnonneg := magnitude_nonneg p
            rw [← hq,Number.value,hneg] at heq
            dsimp only at heq
            generalize 2^64-iou.mantissa*1000=k at hk heq
            have hpos : 0 < (k : ℚ)*10^(iou.exponent-3) := by positivity
            rcases hpn : p.negative with _ | _ <;> rw [hpn] at heq <;> simp [signed]
              at heq <;> linarith
          · intro hfits
            exfalso
            have hv := hvalue' hfits
            rcases hfits with hq0 | ⟨m,e,hm₁,hm₂,-,-,habs⟩
            · rw [hq0] at hv
              have hval := congrArg abs hv
              rw [IOUAmount.value,abs_signed,abs_zero,abs_of_nonneg (by positivity)] at hval
              have : 0 < iou.mantissa := by omega
              exact absurd hval (by positivity)
            · rw [← hv,IOUAmount.value,abs_signed,abs_of_nonneg (by positivity)] at habs
              have := (scaled_unique hm hm' hm₁ (by omega) habs).1
              omega
        · rw [wrapI64_of_ge (x := ((iou.mantissa*1000 : ℕ) : ℤ)) (by omega) (by omega),
            wrapI64_of_range (by omega) (by omega),Nat.cast_sub (by omega)]
          cases iou.negative <;> simp

/-! ### Every leaf -/

theorem within_of_not_number {limit : ℕ} {P Q : ℚ → Prop} (h : l.Within limit P d)
    (hl : ∀ q, l≠.number q) : l.Within limit Q d := by
  cases l with
  | number q => exact absurd rfl (hl q)
  | _ => exact h

/-- What the serialiser writes for a leaf is read back, and as the same leaf unless a number does
not fit. -/
theorem serializeLeaf_trip (h : serializeLeaf sha d j=.ok bs) (hread : readLeaf sha d j=some l)
    (hl : l.Within 918744 (fun _ => True) d) :
    ∃ l', Kept sha order d bs l' ∧ (l'=l ↔ l.Within 918744 NumberFits d) := by
  have hsame : (∀ q, l≠.number q) → Kept sha order d bs l →
      ∃ l', Kept sha order d bs l' ∧ (l'=l ↔ l.Within 918744 NumberFits d) :=
    fun hne hkept => ⟨l,hkept,iff_of_true rfl (within_of_not_number hl hne)⟩
  rw [serializeLeaf] at h
  rw [readLeaf] at hread
  cases ht : d.fieldType <;> simp only [ht] at h hread
  case uint8 =>
    obtain ⟨n,hn,rfl⟩ := map_eq_some_iff.mp hread
    exact hsame (by simp) (kept_uint8 ht h hn (ht ▸ hl))
  case uint16 =>
    obtain ⟨n,hn,rfl⟩ := map_eq_some_iff.mp hread
    exact hsame (by simp) (kept_uint16 ht h hn (ht ▸ hl))
  case uint32 =>
    obtain ⟨n,hn,rfl⟩ := map_eq_some_iff.mp hread
    exact hsame (by simp) (kept_uint32 ht h hn (ht ▸ hl))
  case int32 =>
    obtain ⟨n,hn,rfl⟩ := map_eq_some_iff.mp hread
    exact hsame (by simp) (kept_int32 ht h hn (ht ▸ hl))
  case uint64 =>
    obtain ⟨n,hn,rfl⟩ := map_eq_some_iff.mp hread
    exact hsame (by simp) (kept_uint64 ht h hn (ht ▸ hl))
  case hash128 | hash160 | hash192 | hash256 =>
    refine hsame ?_ (kept_hash (by rw [ht]; rfl) (by decide) h hread fun _ _ => by
      rw [parseFieldValue]; simp only [ht])
    obtain ⟨b,-,rfl⟩ := map_eq_some_iff.mp hread
    simp
  case amount =>
    rw [readAmount.eq_def] at hread
    split at hread
    · obtain ⟨n,hn,rfl⟩ := map_eq_some_iff.mp hread
      exact hsame (by simp) (kept_drops ht h hn hl)
    · rename_i k currency k' issuer k'' value
      split_ifs at hread with hk
      obtain ⟨rfl,rfl,rfl⟩ := hk
      obtain ⟨q,hq,hread⟩ := bind_eq_some_iff.mp hread
      obtain ⟨code,hcode,hread⟩ := bind_eq_some_iff.mp hread
      obtain ⟨account,haccount,rfl⟩ := map_eq_some_iff.mp hread
      exact hsame (by simp) (kept_iou ht h hq hcode haccount hl.1 hl.2)
    · cases hread
  case blob =>
    obtain ⟨b,hb,rfl⟩ := map_eq_some_iff.mp hread
    exact hsame (by simp) (kept_blob ht h hb hl)
  case accountId =>
    obtain ⟨a,ha,rfl⟩ := map_eq_some_iff.mp hread
    exact hsame (by simp) (kept_account ht h ha)
  case vector256 =>
    obtain ⟨hs,hhs,rfl⟩ := map_eq_some_iff.mp hread
    exact hsame (by simp) (kept_hashes ht h hhs hl)
  case pathSet =>
    obtain ⟨ps,hps,rfl⟩ := map_eq_some_iff.mp hread
    exact hsame (by simp) (kept_paths ht h hps hl)
  case issue =>
    obtain ⟨a,ha,rfl⟩ := map_eq_some_iff.mp hread
    exact hsame (by simp) (kept_issue ht h ha hl)
  case currency =>
    obtain ⟨code,hcode,rfl⟩ := map_eq_some_iff.mp hread
    exact hsame (by simp) (kept_currency ht h hcode hl)
  case xchainBridge =>
    obtain ⟨b,hb,rfl⟩ := map_eq_some_iff.mp hread
    exact hsame (by simp) (kept_bridge ht h hb hl)
  case number =>
    obtain ⟨q,hq,rfl⟩ := map_eq_some_iff.mp hread
    obtain ⟨s,hs,hq⟩ := bind_eq_some_iff.mp hq
    rw [asStr_eq_some hs] at h
    obtain ⟨n,hn,hiff,hreads⟩ := number_trip h hq
    refine ⟨.number n.value,⟨_,shown_number ht hn,fun object array => ?_⟩,?_⟩
    · rw [parseFieldValue]
      simp only [ht]
      exact hreads
    · rw [Leaf.number.injEq]
      exact hiff
  all_goals cases hread

end Rxrpl.Codec
