import Rxrpl.BinaryParser
import Rxrpl.FieldValue

/-!
# How the parser shows a value

`render` is the JSON that the parser gives for a value, in its canonical spelling. Everything
that the parser returns is the rendering of a value that reads back from it and lies within
what the wire can carry.
-/

namespace Rxrpl.Codec

open DecimalText TokenParser Classical List

/-! ## Texts -/

noncomputable def iouText (q : ℚ) : Bytes :=
  if h : ∃ t, (∃ raw, decodeIouValue raw=.ok t) ∧ read t=some q then h.choose else []

theorem iouText_eq {raw : ℕ} {t : Bytes} {q : ℚ} (h : decodeIouValue raw=.ok t)
    (hread : read t=some q) : iouText q=t := by
  have hex : ∃ t, (∃ raw, decodeIouValue raw=.ok t) ∧ read t=some q := ⟨t,⟨raw,h⟩,hread⟩
  rw [iouText,dif_pos hex]
  obtain ⟨⟨raw',h'⟩,hread'⟩ := hex.choose_spec
  exact decodeIouValue_unique h' h (hread'.trans hread.symm)

def NumberShown (q : ℚ) : Prop := ∃ n : Number, n.Normal ∧ n.value=q

noncomputable def numberText (q : ℚ) : Bytes :=
  if h : NumberShown q then h.choose.toDecimalString else []

theorem numberText_value {n : Number} (h : n.Normal) : numberText n.value=n.toDecimalString := by
  have hex : NumberShown n.value := ⟨n,h,rfl⟩
  rw [numberText,dif_pos hex,Number.eq_of_value hex.choose_spec.1 h hex.choose_spec.2]

def currencyText (code : CurrencyCode) : String := decodeCurrencyCode code.asBytes

section

variable (sha : Sha256) (order : HashMap.IterOrder)

/-! ## Renderings -/

def renderInt (d : FieldDef) (n : ℤ) : Json :=
  match d.fieldType with
  | .uint16 =>
    if d.name="TransactionType" then typeName (getTransactionTypeName order n) n.toNat
    else if d.name="LedgerEntryType" then typeName (getLedgerEntryTypeName order n) n.toNat
    else .int n
  | .uint64 => if isDecimalUint64 d.name then .str (ascii (natText n.toNat))
    else .str (ascii (hexWord n.toNat))
  | _ => .int n

def renderDoor : Option AccountId → Json
  | none => .str ""
  | some a => .str (encodeAccountId sha a)

def renderIssue : Asset → Json
  | .xrp => .obj [("currency",.str "XRP")]
  | .issued code _ issuer =>
    .obj [("currency",.str (currencyText code)),("issuer",.str (encodeAccountId sha issuer))]

def renderPart (key : String) : Option String → List (String × Json)
  | none => []
  | some s => [(key,.str s)]

def renderStep (step : PathStep) : Json :=
  .obj (renderPart "account" (step.account.map (encodeAccountId sha)) ++
    renderPart "currency" (step.currency.map currencyText) ++
    renderPart "issuer" (step.issuer.map (encodeAccountId sha)))

def renderPath (path : List PathStep) : Json := .arr (path.map (renderStep sha))

def renderBridge (b : Bridge) : Json :=
  .obj [("IssuingChainDoor",renderDoor sha b.issuingDoor),
    ("IssuingChainIssue",renderIssue sha b.issuingIssue),
    ("LockingChainDoor",renderDoor sha b.lockingDoor),
      ("LockingChainIssue",renderIssue sha b.lockingIssue)]

def renderHex (bs : Bytes) : Json := .str (ascii (hexEncodeUpper bs))

noncomputable def renderLeaf (d : FieldDef) : Leaf → Json
  | .int n => renderInt order d n
  | .bytes bs => renderHex bs
  | .account a => renderDoor sha a
  | .drops n => .str (ascii (intText n))
  | .iou q code issuer =>
    .obj [("currency",.str (currencyText code)),("issuer",.str (encodeAccountId sha issuer)),
      ("value",.str (ascii (iouText q)))]
  | .hashes hs => .arr (hs.map renderHex)
  | .paths ps => .arr (ps.map (renderPath sha))
  | .issue a => renderIssue sha a
  | .currency code => .str (currencyText code)
  | .bridge b => renderBridge sha b
  | .number q => .str (ascii (numberText q))

mutual

noncomputable def render (d : FieldDef) : Value → Json
  | .leaf l => renderLeaf sha order d l
  | .object members => .obj (renderMembers members)
  | .array items => .arr (renderItems items)

noncomputable def renderMembers : List (FieldDef × Value) → List (String × Json)
  | [] => []
  | (d,v)::members => (d.name,render d v)::renderMembers members

noncomputable def renderItems : List (FieldDef × Value) → List Json
  | [] => []
  | (d,v)::items => .obj [(d.name,render d v)]::renderItems items

end

end

/-! ## Renderings are read back -/

@[simp] theorem readHex_ascii (bs : Bytes) : readHex (ascii (hexEncodeUpper bs))=some bs := by
  rw [readHex,utf8_ascii fun c hc => hexEncodeUpper_lt hc,hexDecode_hexEncodeUpper]
  rfl

theorem readHash_ascii {bs : Bytes} {width : ℕ} (h : bs.length=width) :
    readHash width (ascii (hexEncodeUpper bs))=some bs := by
  simp [readHash,h]

@[simp] theorem readAccount_encodeAccountId (sha : Sha256) (a : AccountId) :
    readAccount sha (encodeAccountId sha a)=some a := by
  have hlen := length_encodeAccountId sha a
  rw [readAccount,if_neg (by omega),decodeAccountId_encodeAccountId]
  rfl

theorem encodeAccountId_ne_empty (sha : Sha256) (a : AccountId) : encodeAccountId sha a≠"" := by
  intro h
  have hlen := length_encodeAccountId sha a
  rw [h,show utf8 ""=[] from rfl] at hlen
  simp at hlen

/-- The texts of a code: the letters of a short code, `XRP`, or forty digits. -/
theorem readCurrency_decodeCurrencyCode (code : CurrencyCode) :
    readCurrency (decodeCurrencyCode code.asBytes)=some
      (if code=.xrpLetters then .xrp else code) := by
  have hlen := code.length_asBytes
  have hxrp : readCurrency "XRP"=some .xrp := by rw [readCurrency,if_pos rfl]
  rw [decodeCurrencyCode,if_neg (by omega)]
  dsimp only
  split
  · rename_i hstandard
    simp only [Bool.and_eq_true,all_eq_true,beq_iff_eq,decide_eq_true_eq] at hstandard
    obtain ⟨⟨⟨hfront,hback⟩,hletters⟩,-⟩ := hstandard
    have hthree : ((code.asBytes.drop 12).take 3).length=3 := by simp [hlen]
    have hascii : ∀ b∈(code.asBytes.drop 12).take 3, b < 128 := by
      intro b hb
      have h126 : b.toNat ≤ 126 := by simpa [UInt8.le_iff_toNat_le] using (hletters b hb).2
      rw [UInt8.lt_iff_toNat_lt]
      exact h126.trans_lt (by decide)
    have hbytes : code.asBytes=replicate 12 0++(code.asBytes.drop 12).take 3++replicate 5 0 := by
      have h₁ : code.asBytes.take 12=replicate 12 0 :=
        eq_replicate_iff.mpr ⟨by simp [hlen],hfront⟩
      have h₂ : code.asBytes.drop 15=replicate 5 0 := eq_replicate_iff.mpr ⟨by simp [hlen],hback⟩
      rw [← h₁,← h₂,append_assoc,show code.asBytes.drop 15=(code.asBytes.drop 12).drop 3 by simp,
        take_append_drop,take_append_drop]
    have hcode : code=.ofLetters ((code.asBytes.drop 12).take 3) hthree := by
      cases code
      simpa [CurrencyCode.ofLetters] using hbytes
    have hutf := utf8_ascii hascii
    generalize (code.asBytes.drop 12).take 3=letters at hthree hcode hutf
    rw [hcode]
    by_cases hx : letters=[88,82,80]
    · subst hx
      rw [if_pos (show CurrencyCode.ofLetters [88,82,80] hthree=.xrpLetters from rfl),
        show ascii [88,82,80]="XRP" from by decide,hxrp]
    · have hne : ascii letters≠"XRP" := by
        intro h
        rw [h] at hutf
        exact hx (hutf.symm.trans (by decide))
      rw [readCurrency,if_neg hne,dif_pos (by rw [hutf,hthree]),if_neg]
      · congr 2
      intro h
      have := congrArg CurrencyCode.asBytes h
      simp only [CurrencyCode.ofLetters,CurrencyCode.xrpLetters,append_left_inj,append_right_inj]
        at this
      exact hx this
  · split
    · rename_i hzero
      have hcode : code=.xrp := by
        cases code
        simp only [CurrencyCode.xrp,CurrencyCode.mk.injEq]
        exact eq_replicate_iff.mpr ⟨hlen,by simpa using hzero⟩
      rw [hxrp,hcode]
      rfl
    · rename_i hstandard hzero
      have hutf : utf8 (ascii (hexEncodeUpper code.asBytes))=hexEncodeUpper code.asBytes :=
        utf8_ascii fun c hc => hexEncodeUpper_lt hc
      have h40 : (utf8 (ascii (hexEncodeUpper code.asBytes))).length=40 := by rw [hutf]; simp [hlen]
      have hne : ascii (hexEncodeUpper code.asBytes)≠"XRP" := by
        intro h
        rw [h] at h40
        exact absurd h40 (by decide)
      rw [readCurrency,if_neg hne,dif_neg (by rw [h40]; decide),if_pos h40,readHex_ascii,
        Option.bind_some,
        dif_pos hlen,if_neg]
      rintro rfl
      exact hstandard (by decide)

theorem readCurrency_currencyText {code : CurrencyCode} (h : code≠.xrpLetters) :
    readCurrency (currencyText code)=some code := by
  rw [currencyText,readCurrency_decodeCurrencyCode,if_neg h]

end Rxrpl.Codec
