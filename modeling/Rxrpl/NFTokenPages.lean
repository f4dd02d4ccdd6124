import Rxrpl.PagedChain
import Rxrpl.ViewSuccessor
import Rxrpl.EscrowHandlers

/-!
# NFToken pages

The functions of `nftoken.rs`. An owner's tokens lie on pages under keys that begin with the owner
and end in 96 bits; the last page has ones there. A token's place is the first page whose key is
above the token's own low 96 bits. Pages are linked both ways through `PreviousPageMin` and
`NextPageMin`.

A token of a page is compared by the text of its id, in upper case.
-/

namespace Rxrpl.Tx

open Codec (AccountId)
open List

namespace Keylet

def nftokenPageMin (id : AccountId) : Hash256 := ⟨id.asBytes++List.replicate 12 0,by simp⟩

def nftokenPageMax (id : AccountId) : Hash256 := ⟨id.asBytes++List.replicate 12 0xff,by simp⟩

def nftokenPage (id : AccountId) (nftokenId : Hash256) : Hash256 :=
    ⟨id.asBytes++nftokenId.asBytes.drop 20,by simp⟩

end Keylet

open Keylet

/-! ## Texts -/

/-- `Hash256::from_slice(&hex::decode(s)?)`, where the caller tells the errors not apart. -/
def hashFromHex (s : String) : Option Hash256 :=
    (Codec.hexDecode (utf8 s)).toOption.bind Hash256.fromSlice

/-- `cmp` on texts, which compares their bytes. -/
def compareBytes (a b : Bytes) : Ordering := if a < b then .lt else if a=b then .eq else .gt

def compareTokenIds (a b : String) : Ordering :=
  if (utf8 a).length=64 ∧ (utf8 b).length=64 then
    match compareBytes ((utf8 a).drop 40) ((utf8 b).drop 40) with
    | .eq => compareBytes (utf8 a) (utf8 b)
    | ord => ord
  else compareBytes (utf8 a) (utf8 b)

def entryNFTokenId (entry : Json) : Option String :=
  ((entry.get "NFToken").bind fun n => n.get "NFTokenID").bind Json.asStr

def nftokenEntryId (entry : Json) : String := ((entryNFTokenId entry).map upper).getD ""

/-! ## Pages -/

def maxPageEntries : ℕ := 32

def pageTokens (page : Json) : List Json := ((page.get "NFTokens").bind Json.asArray).getD []

def pageLink (page : Json) (field : String) : Option Hash256 :=
    (strField page field).bind hashFromHex

def pageKeyHex (key : Hash256) : String := upper (hashText key)

/-- A new page with the given tokens, and the links that the caller adds. -/
def newTokenPage (tokens : List Json) (links : List (String × Json)) : Json :=
  Json.object
    ([("LedgerEntryType",.str "NFTokenPage"),("Flags",.int 0),("NFTokens",.arr tokens),
    ("PreviousTxnID",.str zeroHashText),("PreviousTxnLgrSeq",.int 0)]++links)

/-- An entry takes its place before the first token with a higher id. -/
def placeEntry (tokens : List Json) (entry : Json) (idHex : String) : List Json :=
  tokens.insertIdx
    ((tokens.findIdx? fun t => compareTokenIds (nftokenEntryId t) idHex == .gt).getD tokens.length)
      entry

variable {below : ReadView}

variable (owner : AccountId)

def findOwnerPage (nftokenId : Hash256) : ViewM below (Option Hash256) :=
  ViewM.succ (nftokenPage owner nftokenId) >>= fun
  | none => pure none
  | some key =>
    pure (if key ≤ nftokenPageMax owner ∧ key.asBytes.take 20=owner.asBytes then some key else none)

def readPage (key : Hash256) : ViewM below Json := ViewM.readEntry key .tefInternal

def writePage (key : Hash256) (page : Json) : ViewM below Unit := ViewM.update key page

/-- The end of `split_page_and_insert`: the page before the split one gets the link to the new page.
What cannot be read is passed over. -/
def relinkBefore (oldPrev : Option String) (newKeyHex : String) : ViewM below Unit :=
  match oldPrev.bind hashFromHex with
  | none => pure ()
  | some key =>
    ViewM.read key >>= fun data =>
    match data.bind Data.fromSlice with
    | none => pure ()
    | some page => ViewM.update key (page.set "NextPageMin" (.str newKeyHex))

def splitPageAndInsert (origKey : Hash256) (origPage : Json)
    (tokens : List Json) (entry : Json) : ViewM below Bool :=
  let mid := maxPageEntries/2
  ViewM.lift (okOr (tokens[mid]?.bind entryNFTokenId) .tefInternal) >>= fun boundaryId =>
  ViewM.lift (okOr (hashFromHex boundaryId) .tefInternal) >>= fun boundaryHash =>
  let newKey := nftokenPage owner boundaryHash
  let entryId := nftokenEntryId entry
  let isLower := compareTokenIds entryId (upper boundaryId) == .lt
  let lower := if isLower then placeEntry (tokens.take mid) entry entryId else tokens.take mid
  let higher := if isLower then tokens.drop mid else placeEntry (tokens.drop mid) entry entryId
  let oldPrev := strField origPage "PreviousPageMin"
  let links := ("NextPageMin",.str (pageKeyHex origKey))::(oldPrev.map fun p =>
    ("PreviousPageMin",.str p)).toList
  ViewM.insert newKey (newTokenPage lower links) >>= fun _ =>
  ViewM.update origKey ((origPage.set "NFTokens" (.arr higher)).set "PreviousPageMin"
    (.str (pageKeyHex newKey))) >>= fun _ =>
  relinkBefore oldPrev (pageKeyHex newKey) >>= fun _ =>
  pure true

def insertToken (nftokenId : Hash256) (entry : Json) : ViewM below Bool :=
  findOwnerPage owner nftokenId >>= fun
  | some pageKey =>
    readPage pageKey >>= fun page =>
    let tokens := pageTokens page
    if maxPageEntries ≤ tokens.length then splitPageAndInsert owner pageKey page tokens entry
    else
      ViewM.update pageKey
        (page.set "NFTokens" (.arr (placeEntry tokens entry (upper (hashText nftokenId))))) >>=
        fun _ =>
      pure false
  | none =>
    ViewM.insert (nftokenPageMax owner) (newTokenPage [entry] []) >>= fun _ =>
    pure true

/-- The middle of `merge_pages`: the higher page gets the predecessor of the lower one, which is
told. -/
def rethread (lo : Json) (hiKey : Hash256) (hi : Json) : ViewM below Json :=
  match pageLink lo "PreviousPageMin" with
  | some p0Key =>
    readPage p0Key >>= fun p0 =>
    writePage p0Key (p0.set "NextPageMin" (.str (pageKeyHex hiKey))) >>= fun _ =>
    pure (hi.set "PreviousPageMin" (.str (pageKeyHex p0Key)))
  | none => pure (hi.remove "PreviousPageMin")

/-- `tokens.sort_by(compare_token_ids)`. -/
def sortTokens (tokens : List Json) : List Json :=
  tokens.insertionSort fun a b => compareTokenIds (nftokenEntryId a) (nftokenEntryId b)≠.gt

def mergePages (loKey hiKey : Hash256) : ViewM below Bool :=
  ViewM.read loKey >>= fun loData =>
  ViewM.read hiKey >>= fun hiData =>
  match loData, hiData with
  | some loData, some hiData =>
    ViewM.lift loData.parse >>= fun lo =>
    ViewM.lift hiData.parse >>= fun hi =>
    if maxPageEntries < (pageTokens lo).length+(pageTokens hi).length then pure false
    else
      rethread lo hiKey (hi.set "NFTokens" (.arr (sortTokens (pageTokens lo++pageTokens hi)))) >>=
        fun hi =>
      writePage hiKey hi >>= fun _ =>
      ViewM.erase loKey >>= fun _ =>
      pure true
  | _, _ => pure false

/-- `merge_pages` with a neighbour, if there is one. -/
def mergeWith (neighbour : Option Hash256) (merge : Hash256 → ViewM below Bool) : ViewM below ℤ :=
  match neighbour with
  | none => pure 0
  | some key => merge key >>= fun merged => pure (if merged then 1 else 0)

def setLink (page : Json) (field : String) : Option Hash256 → Json
  | some key => page.set field (.str (pageKeyHex key))
  | none => page.remove field

/-- The neighbour of a page that goes gets the link to the page beyond. -/
def unlink (neighbour : Option Hash256) (field : String) (beyond : Option Hash256) :
    ViewM below Unit :=
  match neighbour with
  | none => pure ()
  | some key => readPage key >>= fun page => writePage key (setLink page field beyond)

/-- `remove_token` on the last page, when it has become empty: it takes the tokens of the page
before. -/
def refillLast (currKey : Hash256) (curr : Json) (prevKey : Hash256) : ViewM below Unit :=
  readPage prevKey >>= fun prev =>
  rethread prev currKey (curr.set "NFTokens" (.arr (pageTokens prev))) >>= fun curr =>
  writePage currKey curr >>= fun _ =>
  ViewM.erase prevKey

/-- `remove_token` on a page that has become empty. -/
def removeEmptied (fixPageLinks : Bool) (currKey : Hash256) (curr : Json)
    (prevKey nextKey : Option Hash256) : ViewM below ℤ :=
  match prevKey with
  | some pk =>
    if fixPageLinks ∧ currKey=nftokenPageMax owner then refillLast currKey curr pk >>= fun _ =>
      pure (-1)
    else
      unlink prevKey "NextPageMin" nextKey >>= fun _ =>
      unlink nextKey "PreviousPageMin" prevKey >>= fun _ =>
      ViewM.erase currKey >>= fun _ =>
      mergeWith nextKey (mergePages pk) >>= fun merged =>
      pure (-(1+merged))
  | none =>
    unlink nextKey "PreviousPageMin" none >>= fun _ =>
    ViewM.erase currKey >>= fun _ =>
    pure (-1)

def removeToken (nftokenId : Hash256) (fixPageLinks : Bool) :
    ViewM below (Option (Json × ℤ)) :=
  findOwnerPage owner nftokenId >>= fun
  | none => pure none
  | some currKey =>
    readPage currKey >>= fun curr =>
    let tokens := pageTokens curr
    match tokens.findIdx? fun t => nftokenEntryId t == upper (hashText nftokenId) with
    | none => pure none
    | some pos =>
      let removed := tokens.getD pos .null
      let tokens := tokens.eraseIdx pos
      let prevKey := pageLink curr "PreviousPageMin"
      let nextKey := pageLink curr "NextPageMin"
      if tokens.isEmpty then
        removeEmptied owner fixPageLinks currKey curr prevKey nextKey >>= fun delta =>
          pure (some (removed,delta))
      else
        writePage currKey (curr.set "NFTokens" (.arr tokens)) >>= fun _ =>
        mergeWith prevKey (fun pk => mergePages pk currKey) >>= fun before =>
        mergeWith nextKey (mergePages currKey) >>= fun after =>
        pure (some (removed,-before-after))

/-! ## The order of keys and texts -/

section

open Codec (hexEncodeUpper hexUpper hexValue hexDecode hexPairs hexDigit)

variable {a b : Hash256} {bs p x y : Bytes} {c : UInt8} {d e index : ℕ} {owner : AccountId}

theorem hexUpper_lt_iff (hd : d < 16) (he : e < 16) : hexUpper d < hexUpper e ↔ d < e := by
  have hall : ∀ d < 16, ∀ e < 16, hexUpper d < hexUpper e ↔ d < e := by decide
  exact hall d hd e he

theorem hexUpper_eq_iff (hd : d < 16) (he : e < 16) : hexUpper d=hexUpper e ↔ d=e := by
  have hall : ∀ d < 16, ∀ e < 16, hexUpper d=hexUpper e ↔ d=e := by decide
  exact hall d hd e he

theorem hexEncodeUpper_lt_iff : hexEncodeUpper x < hexEncodeUpper y ↔ x < y := by
  induction x generalizing y with
  | nil => cases y <;> simp [hexEncodeUpper]
  | cons b x ih =>
    cases y with
    | nil => simp [hexEncodeUpper]
    | cons c y =>
      have hb := b.toNat_lt
      have hc := c.toNat_lt
      have hrest := ih (y := y)
      simp only [hexEncodeUpper,flatMap_cons,cons_append,nil_append,cons_lt_cons_iff] at hrest ⊢
      rw [hrest,hexUpper_lt_iff (by omega) (by omega),hexUpper_lt_iff (by omega) (by omega),
        hexUpper_eq_iff (by omega) (by omega),hexUpper_eq_iff (by omega) (by omega),
          UInt8.lt_iff_toNat_lt,
        ← UInt8.toNat_inj]
      by_cases hxy : x < y <;> simp only [hxy,and_true,and_false,or_false] <;> omega

theorem hexEncodeUpper_injective (h : hexEncodeUpper x=hexEncodeUpper y) : x=y := by
  have hx := Codec.hexDecode_hexEncodeUpper x
  rw [h,Codec.hexDecode_hexEncodeUpper] at hx
  exact (Except.ok.inj hx).symm

theorem drop_hexEncodeUpper (bs : Bytes) (n : ℕ) :
    (hexEncodeUpper bs).drop (2*n)=hexEncodeUpper (bs.drop n) := by
  induction n generalizing bs with
  | zero => rfl
  | succ n ih =>
    cases bs with
    | nil => simp [hexEncodeUpper]
    | cons b bs => exact ih bs

/-- A character of a hexadecimal text, in upper case. -/
def Uppercases (c d : UInt8) : Prop := (Char.ofNat c.toNat).toUpper=Char.ofNat d.toNat

theorem upper_ascii {ds : Bytes} (h : Forall₂ Uppercases bs ds) : upper (ascii bs)=ascii ds := by
  rw [upper,ascii,ascii,String.toList_ofList]
  congr 1
  induction h with
  | nil => rfl
  | cons hc _ ih =>
    rw [map_cons,map_cons,map_cons,ih,hc]

theorem hexValue_upper (h : hexValue c=some d) : c < 128 ∧ d < 16 ∧ Uppercases c (hexUpper d) := by
  have hall : ∀ n < 256, ∀ d∈hexValue (UInt8.ofNat n), UInt8.ofNat n < 128 ∧ d < 16 ∧
      (Char.ofNat (UInt8.ofNat n).toNat).toUpper=Char.ofNat (hexUpper d).toNat := by decide +kernel
  have hc := hall c.toNat c.toNat_lt d
  rw [UInt8.ofNat_toNat] at hc
  exact hc h

theorem hexDigit_eq_ok (h : hexDigit c index=.ok d) : hexValue c=some d := by
  rw [hexDigit] at h
  split at h <;> cases h
  assumption

/-- A text that decodes is the hexadecimal text of its bytes, up to the case. -/
theorem hexPairs_upper {s : Bytes} (h : hexPairs index s=.ok bs) (heven : s.length % 2=0) :
    (∀ c∈s, c < 128) ∧ Forall₂ Uppercases s (hexEncodeUpper bs) := by
  induction index, s using Codec.hexPairs.induct generalizing bs with
  | case1 index c c' s ih =>
    rw [hexPairs] at h
    obtain ⟨hi,hhi,h⟩ := bind_ok h
    obtain ⟨lo,hlo,h⟩ := bind_ok h
    obtain ⟨bs',hs,h⟩ := bind_ok h
    cases h
    obtain ⟨hc,hhi16,hup⟩ := hexValue_upper (hexDigit_eq_ok hhi)
    obtain ⟨hc',hlo16,hup'⟩ := hexValue_upper (hexDigit_eq_ok hlo)
    obtain ⟨hascii,hrest⟩ := ih hs (by simp only [length_cons] at heven; omega)
    have hbyte : (UInt8.ofNat (16*hi+lo)).toNat=16*hi+lo := by
      rw [UInt8.toNat_ofNat']
      omega
    have hdiv : (16*hi+lo)/16=hi := by omega
    have hmod : (16*hi+lo) % 16=lo := by omega
    refine ⟨by simpa [hc,hc'] using hascii,?_⟩
    rw [hexEncodeUpper,flatMap_cons,hbyte,hdiv,hmod]
    exact .cons hup (.cons hup' hrest)
  | case2 s index hs =>
    rcases s with _ | ⟨c,_ | ⟨c',s⟩⟩
    · rw [hexPairs.eq_def] at h
      cases h
      exact ⟨by simp,.nil⟩
    · simp at heven
    · exact absurd rfl (hs c c' s)

theorem upper_of_hashFromHex {s : String} {h : Hash256} (hs : hashFromHex s=some h) :
    upper s=hashText h := by
  obtain ⟨bs,hbs,hslice⟩ := Option.bind_eq_some_iff.mp hs
  rw [Hash256.fromSlice_eq_some_iff] at hslice
  subst hslice
  have hd := toOption_eq_some.mp hbs
  rw [hexDecode] at hd
  split_ifs at hd with heven
  obtain ⟨hascii,hup⟩ := hexPairs_upper hd (by omega)
  rw [← ascii_utf8 hascii,upper_ascii hup,hashText]

@[simp] theorem hashFromHex_hashText (h : Hash256) : hashFromHex (hashText h)=some h := by
  rw [hashFromHex,hashText,utf8_ascii fun _ hb => Codec.hexEncodeUpper_lt hb,
    Codec.hexDecode_hexEncodeUpper]
  simp [Except.toOption]

@[simp] theorem pageKeyHex_eq (key : Hash256) : pageKeyHex key=hashText key := upper_hashText key

theorem utf8_hashText (h : Hash256) : utf8 (hashText h)=hexEncodeUpper h.asBytes :=
  utf8_ascii fun _ hb => Codec.hexEncodeUpper_lt hb

theorem compareBytes_hexEncodeUpper (x y : Bytes) :
    compareBytes (hexEncodeUpper x) (hexEncodeUpper y)=compareBytes x y := by
  have heq : hexEncodeUpper x=hexEncodeUpper y ↔ x=y := ⟨hexEncodeUpper_injective,congrArg _⟩
  simp only [compareBytes,hexEncodeUpper_lt_iff,heq]

theorem append_lt_append_iff : p++x < p++y ↔ x < y := by
  induction p with
  | nil => rfl
  | cons a p ih => simp [ih]

theorem nftokenPage_lt_iff :
    nftokenPage owner a < nftokenPage owner b ↔ a.asBytes.drop 20 < b.asBytes.drop 20 :=
      append_lt_append_iff

theorem nftokenPage_eq_iff : nftokenPage owner a=nftokenPage owner b ↔
    a.asBytes.drop 20=b.asBytes.drop 20 := by
  constructor
  · intro h
    exact append_cancel_left (congrArg Hash256.asBytes h)
  · intro h
    exact Hash256.ext (congrArg (owner.asBytes ++ ·) h)

theorem replicate_zero_le (x : Bytes) : ¬ x < replicate x.length 0 := by
  induction x with
  | nil => simp
  | cons b x ih =>
    rw [length_cons,replicate_succ,cons_lt_cons_iff]
    rintro (hlt | ⟨-,hlt⟩)
    · exact absurd hlt (by simp)
    · exact ih hlt

theorem le_replicate_max (x : Bytes) : ¬ replicate x.length 0xff < x := by
  induction x with
  | nil => simp
  | cons b x ih =>
    rw [length_cons,replicate_succ,cons_lt_cons_iff]
    rintro (hlt | ⟨-,hlt⟩)
    · have := b.toNat_lt
      rw [UInt8.lt_iff_toNat_lt] at hlt
      simp at hlt
      omega
    · exact ih hlt

theorem nftokenPageMin_le (owner : AccountId) (id : Hash256) :
    nftokenPageMin owner ≤ nftokenPage owner id := by
  have hlow := replicate_zero_le (id.asBytes.drop 20)
  rw [length_drop,id.length_asBytes] at hlow
  exact fun h => hlow (append_lt_append_iff.mp h)

theorem le_nftokenPageMax (owner : AccountId) (id : Hash256) :
    nftokenPage owner id ≤ nftokenPageMax owner := by
  have hlow := le_replicate_max (id.asBytes.drop 20)
  rw [length_drop,id.length_asBytes] at hlow
  exact fun h => hlow (append_lt_append_iff.mp h)

/-- What lies between two texts with a common beginning begins in the same way. -/
theorem take_of_between {k : Bytes} (hk : p.length ≤ k.length) (hlo : ¬ k < p++x)
    (hhi : ¬ p++y < k) :
    k.take p.length=p := by
  induction p generalizing k with
  | nil => rfl
  | cons a p ih =>
    cases k with
    | nil => simp at hk
    | cons b k =>
      simp only [cons_append,cons_lt_cons_iff,not_or,not_and] at hlo hhi
      have hab : b=a := UInt8.le_antisymm (UInt8.not_lt.mp hhi.1) (UInt8.not_lt.mp hlo.1)
      subst hab
      rw [length_cons,take_succ_cons,ih (by simpa using hk) (hlo.2 rfl) (hhi.2 rfl)]

theorem take_of_page_range {k : Hash256} (hlo : nftokenPageMin owner ≤ k)
    (hhi : k ≤ nftokenPageMax owner) : k.asBytes.take 20=owner.asBytes := by
  have htake := take_of_between (p := owner.asBytes) (k := k.asBytes) (by simp) hlo hhi
  rwa [owner.length_asBytes] at htake

theorem compareTokenIds_hashText (hne : nftokenPage owner a≠nftokenPage owner b) :
    compareTokenIds (hashText a) (hashText b)=if nftokenPage owner a < nftokenPage owner b then .lt
      else .gt := by
  have hlow : a.asBytes.drop 20≠b.asBytes.drop 20 := fun h => hne (nftokenPage_eq_iff.mpr h)
  have hcompare : compareBytes (a.asBytes.drop 20) (b.asBytes.drop 20) =
      if nftokenPage owner a < nftokenPage owner b then .lt else .gt := by
    simp only [compareBytes,nftokenPage_lt_iff,if_neg hlow]
  rw [compareTokenIds,if_pos (by simp [utf8_hashText]),utf8_hashText,utf8_hashText,
    drop_hexEncodeUpper _ 20,drop_hexEncodeUpper _ 20,compareBytes_hexEncodeUpper,hcompare]
  split <;> rename_i h
  · split at h <;> cases h
  · rfl

end

end Rxrpl.Tx
