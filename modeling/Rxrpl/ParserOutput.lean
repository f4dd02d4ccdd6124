import Rxrpl.FieldRendering

/-!
# What the parser returns

Every value that the parser returns for a field without fields of its own is the rendering of
a leaf that reads back from it and lies within what the wire can carry. A length prefix can
reach up to 929984 here.
-/

namespace Rxrpl.Codec

open DecimalText TokenParser List Option

variable {sha : Sha256} {order : HashMap.IterOrder} {d : FieldDef}

/-- The JSON is the rendering of the leaf and reads back as it. -/
def Shown (sha : Sha256) (order : HashMap.IterOrder) (limit : ℕ) (d : FieldDef) (l : Leaf)
    (j : Json) : Prop :=
  l.Within limit NumberShown d ∧ j=renderLeaf sha order d l ∧ readLeaf sha d j=some l

def FieldType.IsInt (t : FieldType) : Prop := t=.uint8 ∨ t=.uint16 ∨ t=.uint32 ∨ t=.int32 ∨
    t=.uint64

/-! ## Leaves that are shown -/

variable {a : Asset} {b bit typeByte : UInt8} {bs t : Bytes} {code : CurrencyCode} {key : String}
  {limit : ℕ} {n : ℤ} {ps : List (List PathStep)} {q : ℚ}

theorem readUnsigned_typeName {table : List (String × ℤ)} (hnodup : (table.map (·.1)).Nodup)
    (h : 0 ≤ n) : readUnsigned (codeOf table) (typeName (nameOf order table n) n.toNat)=some n := by
  cases hname : nameOf order table n with
  | none => simp [typeName,readUnsigned,h]
  | some name => exact codeOf_nameOf hnodup hname

theorem shown_int (ht : d.fieldType.IsInt) (h : IntFits n d.fieldType) :
    Shown sha order limit d (.int n) (renderInt order d n) := by
  refine ⟨h,rfl,?_⟩
  rcases ht with ht | ht | ht | ht | ht <;> simp only [readLeaf,renderInt,ht] <;> rw [ht] at h
  · rfl
  · obtain ⟨h₀,-⟩ := h
    split
    · rename_i hname
      have heq : readName d=getTransactionTypeCode := by
        funext s
        simp only [readName,ht,if_pos hname]
      rw [heq]
      exact congrArg (Option.map Leaf.int) (readUnsigned_typeName nodup_transactionTypes h₀)
    · split
      · rename_i hne hname
        have heq : readName d=getLedgerEntryTypeCode := by
          funext s
          simp only [readName,ht,if_neg hne,if_pos hname]
        rw [heq]
        exact congrArg (Option.map Leaf.int) (readUnsigned_typeName nodup_ledgerEntryTypes h₀)
      · rfl
  · rfl
  · rfl
  obtain ⟨h₀,h₁⟩ := h
  lift n to ℕ using h₀
  have hlt : n < 2^64 := by exact_mod_cast h₁
  rw [Int.toNat_natCast]
  split
  · rename_i hdec
    rw [readUnsigned,readName]
    simp only [ht,if_pos hdec]
    rw [utf8_ascii fun c hc => natText_lt hc,readRadix_natText]
    rfl
  · rename_i hdec
    rw [readUnsigned,readName]
    simp only [ht,if_neg hdec]
    rw [utf8_ascii fun c hc => hexWord_lt hc,readRadix_hexWord hlt]
    rfl

theorem shown_plain (ht : d.fieldType=.uint8 ∨ d.fieldType=.uint32 ∨ d.fieldType=.int32)
    (h : IntFits n d.fieldType) : Shown sha order limit d (.int n) (.int n) := by
  have hrender : renderInt order d n=.int n := by
    rcases ht with ht | ht | ht <;> simp only [renderInt,ht]
  rw [← hrender]
  exact shown_int (by rw [FieldType.IsInt]; tauto) h

def FieldType.hashWidth : FieldType → Option ℕ
  | .hash128 => some 16
  | .hash160 => some 20
  | .hash192 => some 24
  | .hash256 => some 32
  | _ => none

theorem shown_hash {width : ℕ} (ht : d.fieldType.hashWidth=some width) (hlen : bs.length=width)
    (hlimit : width ≤ limit) : Shown sha order limit d (.bytes bs) (renderHex bs) := by
  refine ⟨by rw [Leaf.Within]; omega,rfl,?_⟩
  cases hft : d.fieldType <;> rw [hft] at ht <;> cases ht <;>
    simp only [readLeaf,hft,renderHex,Json.asStr,bind_some,readHash_ascii hlen] <;> rfl

theorem shown_blob (ht : d.fieldType=.blob) (hlen : bs.length ≤ limit) :
    Shown sha order limit d (.bytes bs) (renderHex bs) := by
  refine ⟨hlen,rfl,?_⟩
  simp [readLeaf,ht,renderHex,Json.asStr]

@[simp] theorem readDoor_encodeAccountId (a : AccountId) :
    readDoor sha (encodeAccountId sha a)=some (some a) := by
  rw [readDoor,if_neg (encodeAccountId_ne_empty sha a),readAccount_encodeAccountId]
  rfl

theorem readDoor_renderDoor (a : Option AccountId) :
    (renderDoor sha a).asStr.bind (readDoor sha)=some a := by
  cases a with
  | none => rfl
  | some a => simp [renderDoor,Json.asStr]

theorem shown_account (ht : d.fieldType=.accountId) (a : Option AccountId) :
    Shown sha order limit d (.account a) (renderDoor sha a) := by
  refine ⟨trivial,rfl,?_⟩
  simp only [readLeaf,ht,readDoor_renderDoor]
  rfl

theorem shown_drops (ht : d.fieldType=.amount) (h : |n| < 2^62) :
    Shown sha order limit d (.drops n) (.str (ascii (intText n))) := by
  refine ⟨h,rfl,?_⟩
  simp only [readLeaf,ht,readAmount]
  rw [utf8_ascii fun c hc => intText_lt hc,readInt_intText]
  rfl

theorem shown_iou {raw : ℕ} (ht : d.fieldType=.amount) (hdecode : decodeIouValue raw=.ok t)
    (hread : read t=some q) (hcode : code≠.xrpLetters) (issuer : AccountId) :
    Shown sha order limit d (.iou q code issuer)
      (.obj [("currency",.str (currencyText code)),("issuer",.str (encodeAccountId sha issuer)),
        ("value",.str (ascii t))]) := by
  have hfits : IouFits q := by
    obtain ⟨q',hq',hfits⟩ := read_decodeIouValue hdecode
    rwa [← Option.some.inj (hq'.symm.trans hread)]
  refine ⟨⟨hfits,hcode⟩,by rw [renderLeaf,iouText_eq hdecode hread],?_⟩
  simp only [readLeaf,ht,readAmount,and_self,if_true,utf8_ascii fun c hc =>
    lt_of_read hread hc,hread,
    readCurrency_currencyText hcode,readAccount_encodeAccountId]
  rfl

theorem mapM_eq_some {α β : Type} {f : α → Option β} {g : β → α} {l : List β}
    (h : ∀ b∈l, f (g b)=some b) : (l.map g).mapM f=some l := by
  induction l with
  | nil => rfl
  | cons b l ih =>
    rw [map_cons,mapM_cons,h b (by simp),ih fun b' hb' => h b' (by simp [hb'])]
    rfl

theorem shown_hashes {hs : List Bytes} (ht : d.fieldType=.vector256) (hlen : ∀ h∈hs, h.length=32)
    (hlimit : hs.length*32 ≤ limit) :
      Shown sha order limit d (.hashes hs) (.arr (hs.map renderHex)) := by
  refine ⟨hlimit,rfl,?_⟩
  have hread : (hs.map renderHex).mapM (fun x => x.asStr.bind (readHash 32))=some hs :=
    mapM_eq_some fun h hh => readHash_ascii (hlen h hh)
  simp only [readLeaf,ht,Json.asArray,bind_some,hread]
  rfl

theorem readIssue_renderIssue (h : a.Fits) : readIssue sha (renderIssue sha a)=some a := by
  cases a with
  | xrp =>
    simp only [renderIssue,readIssue,if_true]
    rw [readCurrency,if_pos rfl]
    rfl
  | issued code hcode issuer =>
    simp only [renderIssue,readIssue,and_self,if_true,readCurrency_currencyText h,
      readAccount_encodeAccountId,
      bind_some,dif_neg hcode]

theorem shown_issue (ht : d.fieldType=.issue) (h : a.Fits) :
    Shown sha order limit d (.issue a) (renderIssue sha a) := by
  refine ⟨h,rfl,?_⟩
  simp only [readLeaf,ht,readIssue_renderIssue h]
  rfl

theorem shown_currency (ht : d.fieldType=.currency) (h : code≠.xrpLetters) :
    Shown sha order limit d (.currency code) (.str (currencyText code)) := by
  refine ⟨h,rfl,?_⟩
  simp only [readLeaf,ht,Json.asStr,bind_some,readCurrency_currencyText h]
  rfl

theorem readStep_renderStep {step : PathStep} (h : step.currency≠some .xrpLetters) :
    readStep sha (renderStep sha step)=some step := by
  obtain ⟨account,currency,issuer,hne⟩ := step
  have hcode : ∀ code, currency=some code → readCurrency (currencyText code)=some code :=
    fun code hc => readCurrency_currencyText fun heq => h (hc.trans (congrArg some heq))
  cases account <;> cases currency <;> cases issuer <;>
    simp [renderStep,renderPart,readStep,readPart,Json.find,hcode] at hne ⊢

theorem shown_paths (ht : d.fieldType=.pathSet)
    (h : ∀ p∈ps, p≠[] ∧ ∀ step∈p, step.currency≠some .xrpLetters) :
    Shown sha order limit d (.paths ps) (.arr (ps.map (renderPath sha))) := by
  refine ⟨h,rfl,?_⟩
  have hread : (ps.map (renderPath sha)).mapM (readPath sha)=some ps :=
    mapM_eq_some fun p hp => mapM_eq_some fun step hstep =>
      readStep_renderStep ((h p hp).2 step hstep)
  simp only [readLeaf,ht,Json.asArray,bind_some,hread]
  rfl

theorem shown_bridge {b : Bridge} (ht : d.fieldType=.xchainBridge)
    (h : b.lockingDoor.isSome ∧ b.lockingIssue.Fits ∧ b.issuingDoor.isSome ∧ b.issuingIssue.Fits) :
    Shown sha order limit d (.bridge b) (renderBridge sha b) := by
  refine ⟨h,rfl,?_⟩
  obtain ⟨lockingDoor,lockingIssue,issuingDoor,issuingIssue⟩ := b
  obtain ⟨h₁,h₂,h₃,h₄⟩ := h
  obtain ⟨a₁,rfl⟩ := isSome_iff_exists.mp h₁
  obtain ⟨a₂,rfl⟩ := isSome_iff_exists.mp h₃
  simp only [readLeaf,ht,renderBridge,renderDoor,readBridge,and_self,if_true,
    readDoor_encodeAccountId,
    bind_some,readIssue_renderIssue h₂,readIssue_renderIssue h₄]
  rfl

theorem trim_ascii (h : read t=some q) : IOUAmount.trim (ascii t)=ascii t := by
  obtain ⟨p,hp,-⟩ := map_eq_some_iff.mp h
  exact IOUAmount.trim_of_parts (p := p) (by rwa [utf8_ascii fun c hc => lt_of_read h hc])

theorem shown_number {n : Number} (ht : d.fieldType=.number) (h : n.Normal) :
    Shown sha order limit d (.number n.value) (.str (ascii n.toDecimalString)) := by
  have hread := n.read_toDecimalString
  refine ⟨⟨n,h,rfl⟩,by rw [renderLeaf,numberText_value h],?_⟩
  simp only [readLeaf,ht,Json.asStr,bind_some,trim_ascii hread,utf8_ascii fun c hc =>
    lt_of_read hread hc,hread]
  rfl

/-! ## Parsers of leaves -/

/-- What the parser makes of the bytes of a code. -/
def CurrencyCode.shown (code : CurrencyCode) : CurrencyCode := if code=.xrpLetters then .xrp
    else code

theorem CurrencyCode.shown_ne (code : CurrencyCode) : code.shown≠.xrpLetters := by
  rw [shown]
  split
  · decide
  · assumption

theorem decodeCurrencyCode_asBytes (code : CurrencyCode) :
    decodeCurrencyCode code.asBytes=currencyText code.shown := by
  rw [CurrencyCode.shown]
  split
  · rename_i h
    rw [h]
    decide
  · rfl

theorem ensures_readCode : Ensures (readBytes 20) fun bytes =>
    ∃ code : CurrencyCode, bytes=code.asBytes :=
  (ensures_readBytes 20).mono fun bytes h => ⟨⟨bytes,h⟩,rfl⟩

theorem ensures_parseAddress (bytes : Bytes) :
    Ensures (parseAddress sha bytes) fun s => ∃ a : AccountId, s=encodeAccountId sha a :=
  (ensures_ofResult _).bind fun a _ => ensures_pure ⟨a,rfl⟩

theorem ensures_readVlBlob : Ensures readVlBlob (·.length ≤ 929984) :=
  ensures_readVlLength.bind fun len hlen => (ensures_readBytes len).mono fun bytes h => by omega

theorem ensures_parseAccountId : Ensures (parseAccountId sha) fun j => ∃ a, j=renderDoor sha a := by
  refine ensures_readVlBlob.bind fun bytes _ => ?_
  split
  · exact ensures_pure ⟨none,rfl⟩
  · refine (ensures_parseAddress bytes).bind fun s hs => ?_
    obtain ⟨a,rfl⟩ := hs
    exact ensures_pure ⟨some a,rfl⟩

theorem insert_amount (c i v : Json) :
    Json.insert "issuer" i (Json.insert "currency" c (Json.insert "value" v [])) =
      [("currency",c),("issuer",i),("value",v)] := by
  have h₁ : "currency" < "value" := by decide
  have h₂ : ¬ "issuer" < "currency" := by decide
  have h₃ : "issuer" < "value" := by decide
  simp [Json.insert,h₁,h₂,h₃]

theorem insert_issue (c i : Json) :
    Json.insert "issuer" i (Json.insert "currency" c [])=[("currency",c),("issuer",i)] := by
  have h₂ : ¬ "issuer" < "currency" := by decide
  simp [Json.insert,h₂]

theorem ensures_parseAmount (ht : d.fieldType=.amount) :
    Ensures (parseAmount sha) fun j => ∃ l, Shown sha order 929984 d l j := by
  refine (ensures_readUint 8).bind fun raw hraw => ?_
  split
  · have hmask : raw &&& 0x3FFFFFFFFFFFFFFF=raw % 2^62 := Nat.and_two_pow_sub_one_eq_mod raw 62
    have hlt : raw % 2^62 < 2^62 := Nat.mod_lt _ (by positivity)
    refine ensures_pure ⟨_,shown_drops ht ?_⟩
    rw [hmask,abs_lt]
    split <;> constructor <;> omega
  · refine (ensures_ofResult _).bind fun t hdecode =>
      ensures_readCode.bind fun currencyBytes hcode =>
      (ensures_readBytes 20).bind fun issuerBytes _ =>
        (ensures_parseAddress issuerBytes).bind fun s hs =>
      ensures_pure ?_
    obtain ⟨code,rfl⟩ := hcode
    obtain ⟨issuer,rfl⟩ := hs
    obtain ⟨q,hread,-⟩ := read_decodeIouValue hdecode
    rw [insert_amount,decodeCurrencyCode_asBytes]
    exact ⟨_,shown_iou ht hdecode hread code.shown_ne issuer⟩

theorem ensures_parseHashes (count : ℕ) : Ensures (parseHashes count) fun js =>
      ∃ hs : List Bytes, js=hs.map renderHex ∧ hs.length=count ∧ ∀ h∈hs, h.length=32 := by
  induction count with
  | zero => exact ensures_pure ⟨[],rfl,rfl,by simp⟩
  | succ count ih =>
    have hhash : Ensures (parseHex 32) fun j => ∃ bs : Bytes, bs.length=32 ∧ j=renderHex bs :=
      (ensures_readBytes 32).bind fun bs hbs => ensures_pure ⟨bs,hbs,rfl⟩
    refine hhash.bind fun j hj => ih.bind fun js hjs => ensures_pure ?_
    obtain ⟨bs,hbs,rfl⟩ := hj
    obtain ⟨hs,rfl,hlen,hall⟩ := hjs
    exact ⟨bs::hs,rfl,by simp [hlen],by simpa [hbs] using hall⟩

theorem ensures_parseVector256 (ht : d.fieldType=.vector256) :
    Ensures parseVector256 fun j => ∃ l, Shown sha order 929984 d l j := by
  refine ensures_readVlLength.bind fun len hlen => (ensures_parseHashes _).bind fun js hjs =>
    ensures_pure ?_
  obtain ⟨hs,rfl,hcount,hall⟩ := hjs
  exact ⟨_,shown_hashes ht hall (by omega)⟩

theorem decodeCurrencyCode_eq_xrp (h : decodeCurrencyCode code.asBytes="XRP") :
    code=.xrp ∨ code=.xrpLetters := by
  have hread := readCurrency_decodeCurrencyCode code
  rw [h,readCurrency,if_pos rfl,Option.some.injEq] at hread
  split at hread
  · exact Or.inr ‹_›
  · exact Or.inl hread.symm

theorem all_zero_iff (code : CurrencyCode) : code.asBytes.all (· == 0)=true ↔ code=.xrp := by
  obtain ⟨bytes,hlen⟩ := code
  simp only [CurrencyCode.xrp,CurrencyCode.mk.injEq,List.all_eq_true,beq_iff_eq]
  rw [eq_replicate_iff]
  simp [hlen]

theorem ensures_parseIssue : Ensures (parseIssue sha) fun j => ∃ a : Asset, a.Fits ∧
    j=renderIssue sha a := by
  refine ensures_readCode.bind fun bytes hcode => ?_
  obtain ⟨code,rfl⟩ := hcode
  dsimp only
  split
  · rename_i hissued
    rw [all_zero_iff] at hissued
    have hletters : code≠.xrpLetters := by
      rintro rfl
      exact hissued.1 (by decide)
    refine (ensures_readBytes 20).bind fun issuerBytes _ =>
      (ensures_parseAddress issuerBytes).bind fun s hs =>
      ensures_pure ?_
    obtain ⟨issuer,rfl⟩ := hs
    rw [insert_issue]
    exact ⟨.issued code hissued.2 issuer,hletters,rfl⟩
  · rename_i hxrp
    refine ensures_pure ⟨.xrp,trivial,?_⟩
    have htext : decodeCurrencyCode code.asBytes="XRP" := by
      by_contra hne
      have hzero : code=.xrp := by
        by_contra hz
        exact hxrp ⟨hne,by rwa [all_zero_iff]⟩
      exact hne (by rw [hzero]; decide)
    rw [htext]
    rfl

theorem ensures_parseChain (door issue : String) (map : List (String × Json)) :
    Ensures (parseChain sha door issue map) fun map' => ∃ (a : AccountId) (asset : Asset),
      asset.Fits ∧
      map'=Json.insert issue (renderIssue sha asset)
        (Json.insert door (.str (encodeAccountId sha a)) map) := by
  refine (ensures_any _).bind fun bytes _ => (ensures_parseAddress bytes).bind fun s hs =>
    ensures_parseIssue.bind fun j hj => ensures_pure ?_
  obtain ⟨a,rfl⟩ := hs
  obtain ⟨asset,hfits,rfl⟩ := hj
  exact ⟨a,asset,hfits,rfl⟩

theorem insert_bridge (j₁ j₂ j₃ j₄ : Json) :
    Json.insert "IssuingChainIssue" j₂ (Json.insert "IssuingChainDoor" j₁
      (Json.insert "LockingChainIssue" j₄ (Json.insert "LockingChainDoor" j₃ []))) =
      [("IssuingChainDoor",j₁),("IssuingChainIssue",j₂),("LockingChainDoor",j₃),
        ("LockingChainIssue",j₄)] := by
  have h₁ : ¬ "LockingChainIssue" < "LockingChainDoor" := by decide
  have h₂ : "IssuingChainDoor" < "LockingChainDoor" := by decide
  have h₃ : ¬ "IssuingChainIssue" < "IssuingChainDoor" := by decide
  have h₄ : "IssuingChainIssue" < "LockingChainDoor" := by decide
  simp [Json.insert,h₁,h₂,h₃,h₄]

theorem ensures_parseXchainBridge (ht : d.fieldType=.xchainBridge) :
    Ensures (parseXchainBridge sha) fun j => ∃ l, Shown sha order 929984 d l j := by
  refine (ensures_parseChain ..).bind fun map hmap => (ensures_parseChain ..).bind fun map' hmap' =>
    ensures_pure ?_
  obtain ⟨a,asset,hfits,rfl⟩ := hmap
  obtain ⟨a',asset',hfits',rfl⟩ := hmap'
  rw [insert_bridge]
  exact ⟨.bridge ⟨some a,asset,some a',asset'⟩,shown_bridge ht ⟨rfl,hfits,rfl,hfits'⟩⟩

theorem ensures_parseNumber (ht : d.fieldType=.number) :
    Ensures parseNumber fun j => ∃ l, Shown sha order 929984 d l j := by
  refine (ensures_readUint 8).bind fun m _ => (ensures_readUint 4).bind fun e _ => ?_
  dsimp only
  split
  · have hzero : "0"=ascii Number.zero.toDecimalString := by decide
    rw [hzero]
    exact ensures_pure ⟨_,shown_number ht (Or.inl rfl)⟩
  · refine ensures_pure ⟨_,shown_number ht (Number.new_normal _ _ ?_ _)⟩
    have h₁ := Int.le_bmod (x := m) (m := 2^64) (by norm_num)
    have h₂ := Int.bmod_lt (x := m) (m := 2^64) (by norm_num)
    generalize (m : ℤ).bmod (2^64)=x at h₁ h₂ ⊢
    push_cast at h₁ h₂
    omega

/-! ## Path sets -/

theorem insert_currency (account : Option String) (c : Json) :
    Json.insert "currency" c (renderPart "account" account) =
      renderPart "account" account++[("currency",c)] := by
  have h : ¬ "currency" < "account" := by decide
  cases account <;> simp [renderPart,Json.insert,h]

theorem insert_issuer (account currency : Option String) (i : Json) :
    Json.insert "issuer" i (renderPart "account" account++renderPart "currency" currency) =
      renderPart "account" account++renderPart "currency" currency++[("issuer",i)] := by
  have h : ¬ "issuer" < "account" := by decide
  have h' : ¬ "issuer" < "currency" := by decide
  cases account <;> cases currency <;> simp [renderPart,Json.insert,h,h']

theorem ensures_parseStepMember {text : Bytes → Parser String} {P : String → Prop}
    (htext : ∀ bytes : Bytes, bytes.length=20 → Ensures (text bytes) P)
    (step : List (String × Json)) :
    Ensures (parseStepMember typeByte bit key text step) fun step' =>
      (typeByte &&& bit=0 ∧ step'=step) ∨
        (typeByte &&& bit≠0 ∧ ∃ s, P s ∧ step'=Json.insert key (.str s) step) := by
  rw [parseStepMember]
  split
  · rename_i hbit
    exact (ensures_readBytes 20).bind fun bytes hlen => (htext bytes hlen).bind fun s hs =>
      ensures_pure (Or.inr ⟨hbit,s,hs,rfl⟩)
  · rename_i hbit
    exact ensures_pure (Or.inl ⟨not_not.mp hbit,rfl⟩)

theorem part_cases {α : Type} {text : α → String} {P : α → Prop}
    {front step' : List (String × Json)} (hinsert : ∀ x, Json.insert key x front=front++[(key,x)])
      (h : (typeByte &&& bit=0 ∧ step'=front) ∨
      (typeByte &&& bit≠0 ∧ ∃ s, (∃ a, P a ∧ s=text a) ∧ step'=Json.insert key (.str s) front)) :
    ∃ a : Option α, (∀ x, a=some x → P x) ∧ (a.isSome ↔ typeByte &&& bit≠0) ∧
      step'=front++renderPart key (a.map text) := by
  rcases h with ⟨hbit,rfl⟩ | ⟨hbit,s,⟨a,ha,rfl⟩,rfl⟩
  · exact ⟨none,by simp,by simp [hbit],by simp [renderPart]⟩
  · exact ⟨some a,by simpa using ha,by simp [hbit],hinsert _⟩

theorem step_bits (hb : b≠0) (hmask : b &&& 0xCE=0) : b &&& 0x01≠0 ∨ b &&& 0x10≠0 ∨
    b &&& 0x20≠0 := by
  have hall : ∀ n < 256, UInt8.ofNat n≠0 → UInt8.ofNat n &&& 0xCE=0 →
      UInt8.ofNat n &&& 0x01≠0 ∨ UInt8.ofNat n &&& 0x10≠0 ∨ UInt8.ofNat n &&& 0x20≠0 := by
        decide +kernel
  have := hall b.toNat b.toNat_lt
  rw [UInt8.ofNat_toNat] at this
  exact this hb hmask

theorem ensures_parsePathStep (hb : b≠0) :
    Ensures (parsePathStep sha b) fun j => ∃ step, j=renderStep sha step ∧
      step.currency≠some .xrpLetters := by
  have haddress : ∀ bytes : Bytes, bytes.length=20 →
      Ensures (parseAddress sha bytes) fun s => ∃ a : AccountId, True ∧ s=encodeAccountId sha a :=
    fun bytes _ => (ensures_parseAddress bytes).mono fun s ⟨a,ha⟩ => ⟨a,trivial,ha⟩
  have hcode : ∀ bytes : Bytes, bytes.length=20 →
    Ensures (pure (decodeCurrencyCode bytes) : Parser String)
      fun s => ∃ code : CurrencyCode, code≠.xrpLetters ∧ s=currencyText code :=
    fun bytes hlen => ensures_pure ⟨(⟨bytes,hlen⟩ : CurrencyCode).shown,CurrencyCode.shown_ne _,
      decodeCurrencyCode_asBytes ⟨bytes,hlen⟩⟩
  rw [parsePathStep]
  split
  · exact ensures_throw
  rename_i hmask
  refine (ensures_parseStepMember haddress []).bind fun step₁ h₁ => ?_
  obtain ⟨account,-,hsome₁,rfl⟩ := part_cases (fun x => rfl) h₁
  refine (ensures_parseStepMember hcode _).bind fun step₂ h₂ => ?_
  rw [nil_append] at h₂
  obtain ⟨currency,hfits,hsome₂,rfl⟩ := part_cases (insert_currency _) h₂
  refine (ensures_parseStepMember haddress _).bind fun step₃ h₃ => ensures_pure ?_
  obtain ⟨issuer,-,hsome₃,rfl⟩ := part_cases (insert_issuer _ _) h₃
  refine ⟨⟨account,currency,issuer,?_⟩,rfl,fun heq => hfits _ heq rfl⟩
  rw [hsome₁,hsome₂,hsome₃]
  exact step_bits hb (not_not.mp hmask)

theorem closePath_eq {steps : List PathStep} :
    closePath (ps.map (renderPath sha)) (steps.map (renderStep sha)) =
      (if steps=[] then ps else ps++[steps]).map (renderPath sha) := by
  cases steps with
  | nil => rfl
  | cons step steps => simp [closePath,renderPath]

/-- The paths that have been read so far stay, and only paths with steps are kept. -/
theorem ensures_parsePathsetLoop (fuel : ℕ) (ps : List (List PathStep)) (steps : List PathStep)
    (hps : ∀ p∈ps, p≠[] ∧ ∀ step∈p, step.currency≠some .xrpLetters)
    (hsteps : ∀ step∈steps, step.currency≠some .xrpLetters) :
    Ensures (parsePathsetLoop sha fuel (ps.map (renderPath sha)) (steps.map (renderStep sha)))
      fun j =>
      ∃ ps' : List (List PathStep), j=.arr (ps'.map (renderPath sha)) ∧
        ∀ p∈ps', p≠[] ∧ ∀ step∈p, step.currency≠some .xrpLetters := by
  have hclosed : ∀ p∈(if steps=[] then ps else ps++[steps]),
      p≠[] ∧ ∀ step∈p, step.currency≠some .xrpLetters := by
    split
    · exact hps
    · rename_i hne
      exact forall_mem_append.mpr ⟨hps,forall_mem_singleton.mpr ⟨hne,hsteps⟩⟩
  induction fuel generalizing ps steps with
  | zero => exact ensures_throw
  | succ fuel ih =>
    rw [parsePathsetLoop]
    refine (ensures_any _).bind fun left _ => ?_
    split
    · exact ensures_pure ⟨ps,rfl,hps⟩
    refine (ensures_readUint 1).bind fun b hb => ?_
    rw [closePath_eq]
    split
    · exact ensures_pure ⟨_,rfl,hclosed⟩
    split
    · exact ih _ [] hclosed (by simp) (by simpa using hclosed)
    rename_i hzero _
    have hbyte : UInt8.ofNat b≠0 := by
      intro h
      have := congrArg UInt8.toNat h
      rw [UInt8.toNat_ofNat',UInt8.toNat_zero] at this
      omega
    refine (ensures_parsePathStep hbyte).bind fun j hj => ?_
    obtain ⟨step,rfl,hstep⟩ := hj
    have hsteps' : ∀ s∈steps++[step], s.currency≠some .xrpLetters :=
      forall_mem_append.mpr ⟨hsteps,forall_mem_singleton.mpr hstep⟩
    rw [show steps.map (renderStep sha)++[renderStep sha step]=(steps++[step]).map (renderStep sha)
      by simp]
    refine ih ps _ hps hsteps' ?_
    rw [if_neg (by simp)]
    exact forall_mem_append.mpr ⟨hps,forall_mem_singleton.mpr ⟨by simp,hsteps'⟩⟩

theorem ensures_parsePathset (ht : d.fieldType=.pathSet) :
    Ensures (parsePathset sha) fun j => ∃ l, Shown sha order 929984 d l j := by
  refine (ensures_any _).bind fun left _ => ?_
  refine (ensures_parsePathsetLoop (left+1) [] [] (by simp) (by simp)).mono fun j hj => ?_
  obtain ⟨ps,rfl,hps⟩ := hj
  exact ⟨_,shown_paths ht hps⟩

/-! ## Fields -/

/-- The types that the serialised fields have. -/
private def onWire : FieldType → Bool
  | .int64 | .uint96 | .uint160 | .uint192 | .uint224 | .uint256 | .uint384 | .uint512
  | .transaction | .ledgerEntry
  | .validation | .metadata | .notPresent | .done | .unknown => false
  | _ => true

theorem fieldType_of_serialized {d : FieldDef} (h : d∈fields) (hs : d.isSerialized) :
    onWire d.fieldType=true := by
  revert d
  decide +kernel

theorem ensures_parseFieldValue (hd : d∈fields) (hs : d.isSerialized)
    (hobject : d.fieldType≠.stObject) (harray : d.fieldType≠.stArray) (object array : Parser Json) :
    Ensures (parseFieldValue sha order object array d) fun j =>
      ∃ l, Shown sha order 929984 d l j := by
  have hint : ∀ {n : ℤ}, d.fieldType.IsInt → IntFits n d.fieldType →
      ∃ l, Shown sha order 929984 d l (renderInt order d n) := fun ht h => ⟨_,shown_int ht h⟩
  have hhash : ∀ {width : ℕ}, d.fieldType.hashWidth=some width → width ≤ 32 →
      Ensures (parseHex width) fun j => ∃ l, Shown sha order 929984 d l j := fun ht hle =>
    (ensures_readBytes _).bind fun bs hbs => ensures_pure ⟨_,shown_hash ht hbs (by omega)⟩
  have hmem := fieldType_of_serialized hd hs
  rw [parseFieldValue]
  cases ht : d.fieldType <;> simp only [ht,onWire,reduceCtorEq] at hmem <;> dsimp only
  case uint8 | uint32 =>
    refine (ensures_readUint _).bind fun v hv => ensures_pure ⟨_,shown_plain (by simp [ht]) ?_⟩
    rw [ht]
    simp only [IntFits]
    omega
  case uint16 =>
    refine (ensures_readUint 2).bind fun v hv => ?_
    have h := @hint v (by simp [FieldType.IsInt,ht]) (by rw [ht]; simp only [IntFits]; omega)
    simp only [renderInt,ht,Int.toNat_natCast] at h
    split_ifs at h ⊢ <;> exact ensures_pure h
  case int32 =>
    refine (ensures_readUint 4).bind fun v hv => ensures_pure ⟨_,shown_plain (by simp [ht]) ?_⟩
    have h₁ := Int.le_bmod (x := v) (m := 2^32) (by norm_num)
    have h₂ := Int.bmod_lt (x := v) (m := 2^32) (by norm_num)
    generalize (v : ℤ).bmod (2^32)=x at h₁ h₂ ⊢
    push_cast at h₁ h₂
    rw [ht]
    simp only [IntFits]
    omega
  case uint64 =>
    refine (ensures_readUint 8).bind fun v hv => ?_
    have h := @hint v (by simp [FieldType.IsInt,ht]) (by rw [ht]; simp only [IntFits]; omega)
    simp only [renderInt,ht,Int.toNat_natCast] at h
    split_ifs at h ⊢ <;> exact ensures_pure h
  case hash128 | hash160 | hash192 | hash256 => exact hhash (by rw [ht]; rfl) (by decide)
  case amount => exact ensures_parseAmount ht
  case blob => exact ensures_readVlBlob.bind fun bs hbs => ensures_pure ⟨_,shown_blob ht hbs⟩
  case accountId =>
    refine ensures_parseAccountId.mono fun j hj => ?_
    obtain ⟨a,rfl⟩ := hj
    exact ⟨_,shown_account ht a⟩
  case stObject => exact absurd ht hobject
  case stArray => exact absurd ht harray
  case vector256 => exact ensures_parseVector256 ht
  case pathSet => exact ensures_parsePathset ht
  case issue =>
    refine ensures_parseIssue.mono fun j hj => ?_
    obtain ⟨a,ha,rfl⟩ := hj
    exact ⟨_,shown_issue ht ha⟩
  case currency =>
    refine ensures_readCode.bind fun bytes hcode => ensures_pure ?_
    obtain ⟨code,rfl⟩ := hcode
    rw [decodeCurrencyCode_asBytes]
    exact ⟨_,shown_currency ht code.shown_ne⟩
  case xchainBridge => exact ensures_parseXchainBridge ht
  case number => exact ensures_parseNumber ht

end Rxrpl.Codec
