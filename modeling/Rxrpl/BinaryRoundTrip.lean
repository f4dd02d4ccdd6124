import Rxrpl.ObjectCodec

/-!
# Encoding and decoding

An encoded object is decoded as the one it was when every leaf of it has a wire form:
integers in the range of their type, drops below `2^62`, at most sixteen digits, byte
strings of at most 918744 bytes. The encoder does not check this, and writes other bytes
where it fails.
-/

namespace Rxrpl.Codec

open DecimalText TokenParser List
open Option hiding pure_apply

section

variable {sha : Sha256} {order : HashMap.IterOrder}

theorem ordered_of_wellFormed (j : Json) (hj : j.WellFormed) :
    (∀ {d : FieldDef} {v : Value}, readField sha d j=some v → v.Ordered) ∧
    (∀ {members : List (String × Json)} {vs : List (FieldDef × Value)}, j=.obj members →
      readMembers sha members=some vs → (Value.object vs).Ordered) ∧
    (∀ {name : String} {members : List (String × Json)} {vs : List (FieldDef × Value)},
      j=.obj [(name,.obj members)] → readMembers sha members=some vs →
        (Value.object vs).Ordered) := by
  induction hj with
  | @scalar j harr hobj =>
    have hne : ∀ members, j≠.obj members := by
      rintro members rfl
      cases hobj
    refine ⟨fun h => ?_,fun h _ => absurd h (hne _),fun h _ => absurd h (hne _)⟩
    rw [readField_scalar harr hobj] at h
    obtain ⟨l,-,rfl⟩ := map_eq_some_iff.mp h
    exact .leaf
  | @arr items h ih =>
    refine ⟨fun {d v} hread => ?_,(nomatch ·),(nomatch ·)⟩
    rw [readField] at hread
    split at hread
    · obtain ⟨vs,hvs,rfl⟩ := map_eq_some_iff.mp hread
      refine .array ?_
      clear h hread
      induction items generalizing vs with
      | nil =>
        rw [readItems] at hvs
        cases hvs
        simp
      | cons x items ihitems =>
        rw [readItems.eq_def] at hvs
        split at hvs
        · cases ‹x::items=[]›
        · rename_i heq
          cases heq
          obtain ⟨d,-,hvs⟩ := bind_eq_some_iff.mp hvs
          obtain ⟨ms,hms,hvs⟩ := bind_eq_some_iff.mp hvs
          obtain ⟨ws,hws,rfl⟩ := map_eq_some_iff.mp hvs
          obtain ⟨ihx,ih⟩ := forall_mem_cons.mp ih
          exact forall_mem_cons.mpr ⟨ihx.2.2 rfl hms,ihitems ih ws hws⟩
        · cases hvs
    · obtain ⟨l,-,rfl⟩ := map_eq_some_iff.mp hread
      exact .leaf
  | @obj members hsorted h ih =>
    have hmembers : ∀ {vs : List (FieldDef × Value)}, readMembers sha members=some vs →
      (Value.object vs).Ordered := by
      intro vs hread
      refine .object ?_ ?_
      · have hnames : (vs.map (·.1.name)).Pairwise (· < ·) := by
          rw [names_of_readMembers hread,pairwise_map]
          exact hsorted
        rwa [pairwise_map] at hnames
      · clear hsorted h
        induction members generalizing vs with
        | nil =>
          rw [readMembers] at hread
          cases hread
          simp
        | cons m members ihmembers =>
          rw [readMembers] at hread
          obtain ⟨d,-,hread⟩ := bind_eq_some_iff.mp hread
          obtain ⟨v,hv,hread⟩ := bind_eq_some_iff.mp hread
          obtain ⟨vs,hvs,rfl⟩ := map_eq_some_iff.mp hread
          obtain ⟨ihm,ih⟩ := forall_mem_cons.mp ih
          exact forall_mem_cons.mpr ⟨ihm.1 hv,ihmembers ih hvs⟩
    refine ⟨fun {d v} hread => ?_,?_,?_⟩
    · rw [readField] at hread
      split at hread
      · obtain ⟨vs,hvs,rfl⟩ := map_eq_some_iff.mp hread
        exact hmembers hvs
      · obtain ⟨l,-,rfl⟩ := map_eq_some_iff.mp hread
        exact .leaf
    · intro members' vs heq hread
      cases heq
      exact hmembers hread
    · intro name members' vs heq hread
      cases heq
      exact (ih _ mem_cons_self).2.1 rfl hread

/-! ## Lengths that are read and not written -/

def Leaf.vlLength : Leaf → ℕ
  | .bytes bs => bs.length
  | .hashes hs => hs.length*32
  | _ => 0

/-- Some leaf of the value satisfies `P`. -/
inductive Value.Any (P : Leaf → Prop) : Value → Prop
  | leaf {l} (h : P l) : Any P (.leaf l)
  | object {members} {m : FieldDef × Value} (hm : m∈members) (h : Any P m.2) :
    Any P (.object members)
  | array {items} {m : FieldDef × Value} (hm : m∈items) (h : Any P m.2) : Any P (.array items)

/-- A length that the decoder reads and the encoder does not write. -/
def Leaf.InGap (l : Leaf) : Prop := 918744 < l.vlLength ∧ l.vlLength ≤ 929984

variable {d : FieldDef} {v : Value}

theorem within_of_not_inGap {P Q : ℚ → Prop} (hPQ : ∀ q, P q → Q q) {l : Leaf}
    (h : l.Within 929984 P d) (hgap : ¬l.InGap) : l.Within 918744 Q d := by
  cases l with
  | bytes bs =>
    simp only [Leaf.InGap,Leaf.vlLength,Leaf.Within] at h hgap ⊢
    omega
  | hashes hs =>
    simp only [Leaf.InGap,Leaf.vlLength,Leaf.Within] at h hgap ⊢
    omega
  | number q => exact hPQ q h
  | _ => exact h

theorem writable_of_not_inGap (h : v.All (fun d l => l.Within 929984 NumberShown d) d)
    (hgap : ¬v.Any Leaf.InGap) : v.Writable d := by
  induction h with
  | leaf h => exact .leaf (within_of_not_inGap (fun _ _ => trivial) h fun hl => hgap (.leaf hl))
  | object hmarker _ ih => exact .object hmarker fun m hm => ih m hm fun h => hgap (.object hm h)
  | array hmarker _ ih => exact .array hmarker fun m hm => ih m hm fun h => hgap (.array hm h)

theorem Value.Fits.writable (h : v.Fits d) : v.Writable d := by
  refine Value.All.imp (fun d l hl => ?_) h
  cases l with
  | number q => trivial
  | _ => exact hl

/-! ## Decoding what was encoded -/

/-- The members of an object have wire forms, and none is an end marker. -/
def MembersFit (vs : List (FieldDef × Value)) : Prop :=
  (∀ m∈vs, m.1.sortKey≠(14,1) ∧ m.1.sortKey≠(15,1)) ∧ ∀ m∈vs, m.2.Fits m.1

theorem decode_of_encode {members : List (String × Json)} {bytes : Bytes}
    {vs : List (FieldDef × Value)} (h : encode sha (.obj members)=.ok bytes)
    (hread : readMembers sha members=some vs)
    (hmarker : ∀ m∈vs, m.1.sortKey≠(14,1) ∧ m.1.sortKey≠(15,1))
    (hwritable : ∀ m∈vs, m.2.Writable m.1) (hordered : (Value.object vs).Ordered) :
      ∃ vs', ShowsMembers sha order 918744 vs' (renderMembers sha order vs') ∧
      decode sha order bytes=.ok (.obj (renderMembers sha order vs')) ∧
        (vs'=vs ↔ MembersFit vs) := by
  rw [encode,serializeObject] at h
  obtain ⟨vs',hshows,hparse,hiff⟩ :=
    (trip (.obj members)).2.1 rfl hread hmarker hwritable hordered h
  refine ⟨vs',hshows,?_,hiff.trans ⟨fun h => ⟨hmarker,h⟩,And.right⟩⟩
  obtain ⟨fuel,hloop⟩ := hparse (bytes.length+1) [] (by omega)
  have hend : parseObject sha order (fuel+1) (renderMembers sha order vs') [] =
      .ok (.obj (renderMembers sha order vs'),[]) := by
    rw [parseObject,bind_of_ok (show remaining []=.ok (0,[]) from rfl),if_pos rfl,pure_apply]
  rw [append_nil,hend] at hloop
  rw [decode,hloop]

end

section

variable (sha : Sha256) (order : HashMap.IterOrder)

/-- The object says something, and every leaf of it has a wire form. -/
def Fits (j : Json) : Prop := ∃ vs, readObject sha j=some vs ∧ MembersFit vs

/-- A byte string or a list of hashes has a length that the decoder reads and the encoder does not
write. -/
def HasGap (j : Json) : Prop := ∃ vs, readObject sha j=some vs ∧ ∃ m∈vs, m.2.Any Leaf.InGap

/-- The bytes are decoded to an object that says the same. -/
def RoundTrips (j : Json) (bytes : Bytes) : Prop :=
  ∃ j' vs, decode sha order bytes=.ok j' ∧ readObject sha j=some vs ∧ readObject sha j'=some vs

end

section

variable {sha : Sha256} {order : HashMap.IterOrder}

variable {vs : List (FieldDef × Value)}

theorem obj_of_readObject {j : Json} (h : readObject sha j=some vs) :
    ∃ members, j=.obj members ∧ readMembers sha members=some vs := by
  cases j with
  | obj members => exact ⟨members,rfl,h⟩
  | _ => cases h

/-- An object that the decoder could have returned and that comes back as it is has wire forms. -/
theorem membersFit_of_decode {members : List (String × Json)} {bytes : Bytes} {d : FieldDef}
    (h : encode sha (.obj members)=.ok bytes) (hread : readMembers sha members=some vs)
    (hordered : (Value.object vs).Ordered)
    (hall : (Value.object vs).All (fun d l => l.Within 929984 NumberShown d) d)
    (hgap : ¬HasGap sha (.obj members)) {members' : List (String × Json)}
    (hdecode : decode sha order bytes=.ok (.obj members'))
    (hread' : readMembers sha members'=some vs) : MembersFit vs := by
  obtain ⟨hmarker,hall⟩ := hall.of_object
  have hwritable : ∀ m∈vs, m.2.Writable m.1 := fun m hm =>
    writable_of_not_inGap (hall m hm) fun hany => hgap ⟨vs,hread,m,hm,hany⟩
  obtain ⟨vs',hshows,hdecode',hiff⟩ :=
    @decode_of_encode sha order _ _ _ h hread hmarker hwritable hordered
  rw [hdecode] at hdecode'
  cases hdecode'
  exact hiff.mp (Option.some.inj (hshows.read.symm.trans hread'))

def constantSha : Sha256 := .ones

def memoObject : Json :=
  .obj [("Fee",.str "10"),("Memos",.arr [.obj [("Memo",.obj [("MemoData",.str "AB")])]])]

theorem getField_fee : getField "Fee"=some ⟨"Fee",8,.amount,true,true⟩ :=
  getField_at 157 ⟨"Fee",8,.amount,true,true⟩ (by decide)

theorem getField_memos : getField "Memos"=some ⟨"Memos",9,.stArray,true,true⟩ :=
  getField_at 291 ⟨"Memos",9,.stArray,true,true⟩ (by decide)

theorem getField_memo : getField "Memo"=some ⟨"Memo",10,.stObject,true,true⟩ :=
  getField_at 257 ⟨"Memo",10,.stObject,true,true⟩ (by decide)

theorem getField_memoData : getField "MemoData"=some ⟨"MemoData",13,.blob,true,true⟩ :=
  getField_at 191 ⟨"MemoData",13,.blob,true,true⟩ (by decide)

theorem memoObject_encodes :
    encode constantSha memoObject=.ok [104,64,0,0,0,0,0,0,10,249,234,125,1,171,225,241] := by
  decide

theorem memoObject_decodes :
    decode constantSha .listed [104,64,0,0,0,0,0,0,10,249,234,125,1,171,225,241] =
      .ok memoObject := by
  exact rfl

theorem memoObject_wellFormed : memoObject.WellFormed := by
  refine .obj (by decide) ?_
  simp only [forall_mem_cons,not_mem_nil,false_implies,implies_true,and_true]
  refine ⟨.scalar rfl rfl,.arr ?_⟩
  simp only [forall_mem_cons,not_mem_nil,false_implies,implies_true,and_true]
  refine .obj (by simp) ?_
  simp only [forall_mem_cons,not_mem_nil,false_implies,implies_true,and_true]
  refine .obj (by simp) ?_
  simp only [forall_mem_cons,not_mem_nil,false_implies,implies_true,and_true]
  exact .scalar rfl rfl

theorem memoObject_fits : Fits constantSha memoObject := by
  refine ⟨[(⟨"Fee",8,.amount,true,true⟩,.leaf (.drops 10)),
    (⟨"Memos",9,.stArray,true,true⟩,.array [(⟨"Memo",10,.stObject,true,true⟩,
      .object [(⟨"MemoData",13,.blob,true,true⟩,.leaf (.bytes [171]))])])],?_,by decide,?_⟩
  · simp only [memoObject,readObject,readMembers,readField,readItems,knownField,getField_fee,
      getField_memos,
      getField_memo,getField_memoData]
    rfl
  simp only [forall_mem_cons,not_mem_nil,false_implies,implies_true,and_true]
  refine ⟨.leaf (by simp [Leaf.Within]),.array (by decide) ?_⟩
  simp only [forall_mem_cons,not_mem_nil,false_implies,implies_true,and_true]
  refine .object (by decide) ?_
  simp only [forall_mem_cons,not_mem_nil,false_implies,implies_true,and_true]
  exact .leaf (by simp [Leaf.Within])

/-- A decoded object that is encoded and decoded again is the same exactly when every leaf of it has
a wire form. -/
theorem decode_stable_iff_fits {bytes bytes₂ : Bytes} {j j₂ : Json}
    (h : decode sha order bytes=.ok j) (h' : encode sha j=.ok bytes₂)
    (h₂ : decode sha order bytes₂=.ok j₂) :
    (Fits sha j → j₂=j) ∧ (¬HasGap sha j → j₂=j → Fits sha j) := by
  obtain ⟨vs,members,rfl,hshows⟩ := showsMembers_of_decode h
  constructor
  · rintro ⟨vs',hread,hfit⟩
    obtain rfl : vs'=vs := Option.some.inj (hread.symm.trans hshows.read)
    obtain ⟨vs'',-,hdecode,hiff⟩ := @decode_of_encode sha order _ _ _ h' hread hfit.1
      (fun m hm => (hfit.2 m hm).writable) hshows.ordered
    rw [hiff.mpr hfit,← hshows.eq_render,h₂] at hdecode
    exact Except.ok.inj hdecode
  · rintro hgap rfl
    exact ⟨vs,hshows.read,membersFit_of_decode h' hshows.read hshows.ordered
      (hshows.all ⟨"",0,.stObject,false,false⟩) hgap h₂ hshows.read⟩

theorem decode_stable_memoObject :
    decode constantSha .listed [104,64,0,0,0,0,0,0,10,249,234,125,1,171,225,241] =
      .ok memoObject ∧
    ∃ bytes₂ j₂, encode constantSha memoObject=.ok bytes₂ ∧
      decode constantSha .listed bytes₂=.ok j₂ ∧
      j₂=memoObject :=
  ⟨memoObject_decodes,_,memoObject,memoObject_encodes,memoObject_decodes,
    (decode_stable_iff_fits memoObject_decodes memoObject_encodes memoObject_decodes).1
      memoObject_fits⟩

/-- Of the nineteen digits of a number, three are lost. -/
theorem number_not_stable : ∃ j bytes j₂,
    decode constantSha .listed ([0x91]++toBeBytes 8 1234567890123456789++toBeBytes 4 0)=.ok j ∧
    encode constantSha j=.ok bytes ∧ decode constantSha .listed bytes=.ok j₂ ∧ j₂≠j := by
  refine ⟨.obj [("Number",.str "1234567890123456789")],_,
    .obj [("Number",.str "1234567890123456000")],rfl,rfl,rfl,?_⟩
  simp

/-! ## Numbers -/

theorem parseNumber_iff_fits {s : String} {bs : Bytes} {q : ℚ} (h : serializeNumber (.str s)=.ok bs)
    (hread : read (utf8 (IOUAmount.trim s))=some q) :
    ∃ t, parseNumber bs=.ok (.str t,[]) ∧ (read (utf8 t)=some q ↔ NumberFits q) := by
  obtain ⟨n,-,hiff,hreads⟩ := number_trip h hread
  have hparse := hreads []
  rw [append_nil] at hparse
  refine ⟨_,hparse,?_⟩
  rw [utf8_ascii fun c hc => lt_of_read n.read_toDecimalString hc,n.read_toDecimalString,
    Option.some.injEq]
  exact hiff

/-- The decimal text of an issued amount, and that of any number which the serialiser accepts, comes
back as the same number exactly when its sixteen digits stay below the largest `i64` as nineteen. -/
theorem number_survives_iff (s : String) (q : ℚ) (n : Number) :
    (read (utf8 s)=some q → IouFits q → (∀ c∈utf8 s, isExponentMark c=false) →
      ∃ bs t, serializeNumber (.str s)=.ok bs ∧ parseNumber bs=.ok (.str t,[]) ∧
        (read (utf8 t)=some q ↔ NumberFits q)) ∧
    ∀ bs, serializeNumber (.str (ascii n.toDecimalString))=.ok bs →
      ∃ t, parseNumber bs=.ok (.str t,[]) ∧ (read (utf8 t)=some n.value ↔ NumberFits n.value) := by
  constructor
  · intro hread hfits hplain
    obtain ⟨p,hp,hq⟩ := map_eq_some_iff.mp hread
    have htrim := IOUAmount.trim_of_parts hp
    rw [← htrim] at hp hread hplain
    obtain ⟨a,ha⟩ : ∃ a, IOUAmount.fromDecimalString s=.ok a := by
      rw [← hq,IouFits,← abs_eq_zero,abs_signed,abs_of_nonneg (magnitude_nonneg p)] at hfits
      rcases hfits with hzero | ⟨m,e,hm,hm',he,he',hmag⟩
      · exact ⟨.zero,by
          rw [(IOUAmount.fromDecimalString_eq hp hplain).2,
          if_pos ((digits_eq_nil_iff hp).mpr hzero)]⟩
      · have hwrap := wrapI32_of_range (x := e) (by omega) (by omega)
        exact ⟨_,IOUAmount.fromDecimalString_of_leads hp hplain (hmag ▸ Decimal.leads_self hm hm' e)
          (by omega) (by omega)⟩
    cases hbs : serializeNumber (.str s) with
    | error =>
      rw [serializeNumber,show expect "expected string for Number" (Json.str s).asStr=.ok s
        from rfl] at hbs
      dsimp only [bind,Except.bind] at hbs
      rw [ha] at hbs
      dsimp only at hbs
      split at hbs <;> cases hbs
    | ok bs =>
      obtain ⟨t,ht,hiff⟩ := parseNumber_iff_fits hbs hread
      exact ⟨bs,t,rfl,ht,hiff⟩
  · intro bs h
    refine parseNumber_iff_fits h ?_
    rw [trim_ascii n.read_toDecimalString,utf8_ascii fun c hc =>
      lt_of_read n.read_toDecimalString hc,
      n.read_toDecimalString]

theorem minus_five_survives : ∃ bs t, serializeNumber (.str "-5")=.ok bs ∧
    parseNumber bs=.ok (.str t,[]) ∧
    read (utf8 t)=some (-5) := by
  have hread : read (utf8 "-5")=some (-5) := by decide +kernel
  have hfits : NumberFits (-5) :=
    Or.inr ⟨5*10^15,-15,by norm_num,by norm_num,by norm_num,by norm_num,by norm_num⟩
  obtain ⟨bs,t,hbs,ht,hiff⟩ := (number_survives_iff "-5" (-5) .zero).1 hread
    (Or.inr ⟨5*10^15,-15,by norm_num,by norm_num,by norm_num,by norm_num,by norm_num⟩)
      (by decide +kernel)
  exact ⟨bs,t,hbs,ht,hiff.mpr hfits⟩

/-- Nineteen digits of 9.5 are no `i64`, and the number comes back with the other sign. -/
theorem nine_and_a_half_changes_sign :
    serializeNumber (.str "9.5")=.ok (toBeBytes 8 9500000000000000000++toBeBytes 4 4294967278) ∧
    (parseNumber (toBeBytes 8 9500000000000000000++toBeBytes 4 4294967278)).map (·.1.asStr) =
      .ok (some "-8.946744073709551616") := by
  decide +kernel

end

end Rxrpl.Codec
