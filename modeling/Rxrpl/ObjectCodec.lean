import Rxrpl.LeafCodec

/-!
# Objects and arrays

The two loops of the parser and the serialiser over fields, with the leaves as in
`LeafCodec` and `ParserOutput`. What the parser returns is the canonical text of one value;
what the serialiser writes is read back as the canonical text of a value, and that value is
the one that was given exactly when every leaf of it fits.
-/

namespace Rxrpl

open List
open Option hiding forall_mem_map map_map mem_map_of_mem pure_apply

namespace Json

/-- The keys of every object are strictly increasing, as in the source's map. -/
inductive WellFormed : Json → Prop
  | scalar {j} (harr : j.asArray=none) (hobj : j.asObject=none) : WellFormed j
  | arr {items} (h : ∀ x∈items, WellFormed x) : WellFormed (.arr items)
  | obj {members} (hsorted : members.Pairwise (·.1 < ·.1)) (h : ∀ m∈members, WellFormed m.2) :
    WellFormed (.obj members)

variable {k : String} {members : List (String × Json)} {x : Json}

theorem mem_insert {m : String × Json} (h : m∈insert k x members) : m=(k,x) ∨ m∈members := by
  induction members with
  | nil => simpa [insert] using h
  | cons m' members ih =>
    rw [insert] at h
    split at h
    · simpa using h
    split at h
    · rcases mem_cons.mp h with h | h
      · exact .inl h
      · exact .inr (mem_cons_of_mem _ h)
    · rcases mem_cons.mp h with h | h
      · exact .inr (h ▸ mem_cons_self)
      · exact (ih h).imp_right (mem_cons_of_mem _)

theorem pairwise_insert (h : members.Pairwise (·.1 < ·.1)) :
    (insert k x members).Pairwise (·.1 < ·.1) := by
  induction members with
  | nil => simp [insert]
  | cons m members ih =>
    obtain ⟨hm,hmembers⟩ := pairwise_cons.mp h
    rw [insert]
    split
    · rename_i hlt
      refine pairwise_cons.mpr ⟨fun m' hm' => ?_,h⟩
      rcases mem_cons.mp hm' with rfl | hm'
      · exact hlt
      · exact hlt.trans (hm m' hm')
    · split
      · rename_i heq
        exact pairwise_cons.mpr ⟨fun m' hm' => heq ▸ hm m' hm',hmembers⟩
      · rename_i hle hne
        refine pairwise_cons.mpr ⟨fun m' hm' => ?_,ih hmembers⟩
        rcases mem_insert hm' with rfl | hm'
        · exact lt_of_le_of_ne (not_lt.mp hle) (Ne.symm hne)
        · exact hm m' hm'

theorem insert_perm (h : ∀ m∈members, m.1≠k) : (insert k x members).Perm ((k,x)::members) := by
  induction members with
  | nil => exact .refl _
  | cons m members ih =>
    rw [insert]
    split
    · exact .refl _
    · rw [if_neg (h m mem_cons_self).symm]
      exact ((ih fun m' hm' => h m' (mem_cons_of_mem _ hm')).cons m).trans (.swap _ _ _)

theorem foldl_insert {l l' : List (String × Json)} (hperm : l'.Perm l)
    (hsorted : l.Pairwise (·.1 < ·.1)) : l'.foldl (fun map m => insert m.1 m.2 map) []=l := by
  have hloop : ∀ (l' acc : List (String × Json)), ((acc++l').map (·.1)).Nodup →
    acc.Pairwise (·.1 < ·.1) →
      (l'.foldl (fun map m => insert m.1 m.2 map) acc).Perm (acc++l') ∧
        (l'.foldl (fun map m => insert m.1 m.2 map) acc).Pairwise (·.1 < ·.1) := by
    intro l'
    induction l' with
    | nil =>
      intro acc _ hacc
      exact ⟨by simp,hacc⟩
    | cons m l' ih =>
      intro acc hnodup hacc
      have hne : ∀ m'∈acc, m'.1≠m.1 := by
        intro m' hm' heq
        rw [map_append,nodup_append] at hnodup
        exact hnodup.2.2 _ (mem_map_of_mem hm') _ (by simp) heq
      have hstep : (insert m.1 m.2 acc++l').Perm (acc++m::l') :=
        ((insert_perm hne).append_right l').trans perm_middle.symm
      obtain ⟨hp,hs⟩ := ih (insert m.1 m.2 acc) ((hstep.map _).nodup_iff.mpr hnodup)
        (pairwise_insert hacc)
      exact ⟨hp.trans hstep,hs⟩
  have hnodup : (l.map (·.1)).Nodup := by
    rw [Nodup,pairwise_map]
    exact hsorted.imp ne_of_lt
  obtain ⟨hp,hs⟩ := hloop l' [] (by simpa using (hperm.map _).nodup_iff.mpr hnodup) .nil
  refine (hp.trans hperm).eq_of_pairwise (fun a b _ _ h h' => absurd h' (lt_asymm h)) hs hsorted

end Json

namespace Codec

open TokenParser

/-! ## Fields of objects and arrays -/

/-- A serialised field whose identifier does not end an object. -/
structure FieldDef.IsMember (d : FieldDef) : Prop where
  mem_fields : d∈fields
  isSerialized : d.isSerialized
  ne_objectEnd : d.sortKey≠(14,1)
  ne_arrayEnd : d.sortKey≠(15,1)

/-- A serialised field whose identifier does not end an array. -/
structure FieldDef.IsItem (d : FieldDef) : Prop where
  mem_fields : d∈fields
  isSerialized : d.isSerialized
  ne_arrayEnd : d.sortKey≠(15,1)

variable {P : FieldDef → Leaf → Prop} {d : FieldDef} {vs : List (FieldDef × Value)}

theorem knownField_name (hd : d∈fields) (hs : d.isSerialized) : knownField d.name=some d := by
  rw [knownField,getField_name hd,filter_some,if_pos hs]

theorem of_knownField {name : String} (h : knownField name=some d) :
    d∈fields ∧ d.isSerialized ∧ d.name=name := by
  obtain ⟨hget,hs⟩ := filter_eq_some_iff.mp h
  obtain ⟨hd,hname⟩ := getField_eq_some_iff.mp hget
  exact ⟨hd,hs,hname⟩

theorem isSerialized_of_header {id : ℤ × ℤ} (h : getFieldByHeader id.1 id.2=some d)
    (hid : 0 ≤ id.1 ∧ id.1 < 256 ∧ 0 ≤ id.2 ∧ id.2 < 256) : d∈fields ∧ d.isSerialized ∧
      d.sortKey=id := by
  have hall : ∀ d∈fields, d.typeCode < 256 → d.nth < 256 → 0 ≤ d.typeCode → 0 ≤ d.nth →
    d.isSerialized := by
    decide +kernel
  obtain ⟨hd,htype,hnth,hkey⟩ := getFieldByHeader_eq_some_iff.mp h
  have htype' : d.typeCode=id.1 := congrArg Prod.fst hkey
  have hnth' : d.nth=id.2 := congrArg Prod.snd hkey
  exact ⟨hd,hall d hd (by omega) (by omega) htype hnth,hkey⟩

/-- The names of the fields of every object are strictly increasing. -/
inductive Value.Ordered : Value → Prop
  | leaf {l} : Ordered (.leaf l)
  | object {members} (hsorted : members.Pairwise (·.1.name < ·.1.name))
      (h : ∀ m∈members, Ordered m.2) :
      Ordered (.object members)
  | array {items} (h : ∀ m∈items, Ordered m.2) : Ordered (.array items)

theorem Value.All.imp {Q : FieldDef → Leaf → Prop} (hPQ : ∀ d l, P d l → Q d l) {v : Value}
    (h : v.All P d) : v.All Q d := by
  induction h with
  | leaf h => exact .leaf (hPQ _ _ h)
  | object hmarker _ ih => exact .object hmarker ih
  | array hmarker _ ih => exact .array hmarker ih

theorem Value.All.of_object (h : (Value.object vs).All P d) :
    (∀ m∈vs, m.1.sortKey≠(14,1) ∧ m.1.sortKey≠(15,1)) ∧ ∀ m∈vs, m.2.All P m.1 := by
  cases h with
  | object hmarker h => exact ⟨hmarker,h⟩

theorem Value.All.of_array (h : (Value.array vs).All P d) :
    (∀ m∈vs, m.1.sortKey≠(15,1)) ∧ ∀ m∈vs, m.2.All P m.1 := by
  cases h with
  | array hmarker h => exact ⟨hmarker,h⟩

section

variable {sha : Sha256} {order : HashMap.IterOrder}

theorem renderMembers_eq_map (vs : List (FieldDef × Value)) :
    renderMembers sha order vs=vs.map fun m => (m.1.name,render sha order m.1 m.2) := by
  induction vs with
  | nil => rw [renderMembers,map_nil]
  | cons m vs ih => rw [renderMembers,map_cons,ih]

variable {bytes : Bytes} {d : FieldDef} {fuel : ℕ} {items : List Json} {j : Json} {l : Leaf}
  {map members : List (String × Json)} {vs : List (FieldDef × Value)}

theorem names_of_readMembers (h : readMembers sha members=some vs) :
    vs.map (·.1.name)=members.map (·.1) := by
  induction members generalizing vs with
  | nil =>
    rw [readMembers] at h
    cases h
    rfl
  | cons m members ih =>
    rw [readMembers] at h
    obtain ⟨d,hd,h⟩ := bind_eq_some_iff.mp h
    obtain ⟨v,-,h⟩ := bind_eq_some_iff.mp h
    obtain ⟨vs,hvs,rfl⟩ := map_eq_some_iff.mp h
    rw [map_cons,map_cons,ih hvs,(of_knownField hd).2.2]

theorem fieldType_of_readLeaf (h : readLeaf sha d j=some l) : d.fieldType≠.stObject ∧
    d.fieldType≠.stArray := by
  constructor <;> intro ht <;> simp [readLeaf,ht] at h

theorem readField_of_leaf (hobject : d.fieldType≠.stObject) (harray : d.fieldType≠.stArray)
    (j : Json) : readField sha d j=(readLeaf sha d j).map .leaf := by
  cases j <;> simp only [readField,if_neg hobject,if_neg harray]

theorem readField_scalar (harr : j.asArray=none) (hobj : j.asObject=none) (d : FieldDef) :
    readField sha d j=(readLeaf sha d j).map .leaf := by
  cases j with
  | arr items => cases harr
  | obj members => cases hobj
  | _ => simp only [readField]

theorem serializeValue_of_leaf (hobject : d.fieldType≠.stObject) (harray : d.fieldType≠.stArray)
    (j : Json) : serializeValue sha d j=serializeLeaf sha d j := by
  cases j <;> rw [serializeValue.eq_def] <;> dsimp only <;> split <;> first | rfl | contradiction

/-! ## Canonical texts -/

variable (sha order)

/-- The text is the canonical one of the value, which it can be read back from. -/
structure Shows (limit : ℕ) (d : FieldDef) (v : Value) (j : Json) : Prop where
  all : v.All (fun d l => l.Within limit NumberShown d) d
  ordered : v.Ordered
  eq_render : j=render sha order d v
  read : readField sha d j=some v

structure ShowsMembers (limit : ℕ) (vs : List (FieldDef × Value)) (members : List (String × Json)) :
    Prop where
  all : ∀ d, (Value.object vs).All (fun d l => l.Within limit NumberShown d) d
  ordered : (Value.object vs).Ordered
  eq_render : members=renderMembers sha order vs
  read : readMembers sha members=some vs

structure ShowsItems (limit : ℕ) (vs : List (FieldDef × Value)) (items : List Json) : Prop where
  all : ∀ d, (Value.array vs).All (fun d l => l.Within limit NumberShown d) d
  ordered : (Value.array vs).Ordered
  eq_render : items=renderItems sha order vs
  read : readItems sha items=some vs

variable {sha order}
variable {limit : ℕ}

theorem Shown.shows (h : Shown sha order limit d l j) : Shows sha order limit d (.leaf l) j := by
  obtain ⟨hwithin,heq,hread⟩ := h
  obtain ⟨hobject,harray⟩ := fieldType_of_readLeaf hread
  refine ⟨.leaf hwithin,.leaf,by rw [render,heq],?_⟩
  rw [readField_of_leaf hobject harray,hread,map_some]

theorem ShowsMembers.shows (ht : d.fieldType=.stObject)
    (h : ShowsMembers sha order limit vs members) :
    Shows sha order limit d (.object vs) (.obj members) := by
  refine ⟨h.all d,h.ordered,by rw [render,h.eq_render],?_⟩
  rw [readField,if_pos ht,h.read,map_some]

theorem ShowsItems.shows (ht : d.fieldType=.stArray) (h : ShowsItems sha order limit vs items) :
    Shows sha order limit d (.array vs) (.arr items) := by
  refine ⟨h.all d,h.ordered,by rw [render,h.eq_render],?_⟩
  rw [readField,if_pos ht,h.read,map_some]

theorem showsMembers_of_forall (hsorted : vs.Pairwise (·.1.name < ·.1.name))
    (h : ∀ m∈vs, m.1.IsMember ∧ Shows sha order limit m.1 m.2 (render sha order m.1 m.2)) :
    ShowsMembers sha order limit vs (renderMembers sha order vs) := by
  refine ⟨fun d => .object (fun m hm => ⟨(h m hm).1.ne_objectEnd,(h m hm).1.ne_arrayEnd⟩)
    fun m hm => (h m hm).2.all,
    .object hsorted fun m hm => (h m hm).2.ordered,rfl,?_⟩
  clear hsorted
  induction vs with
  | nil => rw [renderMembers,readMembers]
  | cons m vs ih =>
    obtain ⟨hm,hvs⟩ := forall_mem_cons.mp h
    rw [renderMembers,readMembers,knownField_name hm.1.mem_fields hm.1.isSerialized,bind_some,
      hm.2.read,
      bind_some,ih hvs,map_some]

theorem showsItems_of_forall {vs : List (FieldDef × List (FieldDef × Value))}
    (h : ∀ m∈vs, m.1.IsItem ∧ ShowsMembers sha order limit m.2 (renderMembers sha order m.2)) :
    ShowsItems sha order limit (vs.map fun m => (m.1,.object m.2))
      (renderItems sha order (vs.map fun m => (m.1,.object m.2))) := by
  refine ⟨fun d => .array ?_ ?_,.array ?_,rfl,?_⟩
  · simp only [forall_mem_map]
    exact fun m hm => (h m hm).1.ne_arrayEnd
  · simp only [forall_mem_map]
    exact fun m hm => (h m hm).2.all m.1
  · simp only [forall_mem_map]
    exact fun m hm => (h m hm).2.ordered
  induction vs with
  | nil => rw [map_nil,renderItems,readItems]
  | cons m vs ih =>
    obtain ⟨hm,hvs⟩ := forall_mem_cons.mp h
    rw [map_cons,renderItems,render,readItems,knownField_name hm.1.mem_fields hm.1.isSerialized,
      bind_some,hm.2.read,bind_some,ih hvs,map_some]

/-! ## What the parser returns -/

variable (sha order) in
/-- The members that `parse_object` has read. -/
def MapShown (map : List (String × Json)) : Prop :=
  map.Pairwise (·.1 < ·.1) ∧
    ∀ m∈map, ∃ (d : FieldDef) (v : Value), d.IsMember ∧ m.1=d.name ∧ Shows sha order 929984 d v m.2

variable (sha order) in
/-- The items that `parse_array` has read. -/
def ItemsShown (items : List Json) : Prop :=
  ∀ x∈items, ∃ (d : FieldDef) (vs : List (FieldDef × Value)) (members : List (String × Json)),
    d.IsItem ∧ x=.obj [(d.name,.obj members)] ∧ ShowsMembers sha order 929984 vs members

theorem MapShown.insert (h : MapShown sha order map) (hd : d.IsMember) {v : Value}
    (hj : Shows sha order 929984 d v j) : MapShown sha order (Json.insert d.name j map) := by
  refine ⟨Json.pairwise_insert h.1,fun m hm => ?_⟩
  rcases Json.mem_insert hm with rfl | hm
  · exact ⟨d,v,hd,rfl,hj⟩
  · exact h.2 m hm

theorem MapShown.showsMembers (h : MapShown sha order map) :
    ∃ vs, ShowsMembers sha order 929984 vs map := by
  obtain ⟨hsorted,hmap⟩ := h
  have hvs : ∃ vs, map=renderMembers sha order vs ∧
      ∀ m∈vs, m.1.IsMember ∧ Shows sha order 929984 m.1 m.2 (render sha order m.1 m.2) := by
    clear hsorted
    induction map with
    | nil => exact ⟨[],by rw [renderMembers],by simp⟩
    | cons m map ih =>
      obtain ⟨⟨d,v,hd,hname,hshows⟩,hrest⟩ := forall_mem_cons.mp hmap
      obtain ⟨vs,rfl,hvs⟩ := ih hrest
      have heq := hshows.eq_render
      refine ⟨(d,v)::vs,?_,forall_mem_cons.mpr ⟨⟨hd,heq ▸ hshows⟩,hvs⟩⟩
      rw [renderMembers,← heq,← hname]
  obtain ⟨vs,rfl,hvs⟩ := hvs
  rw [renderMembers_eq_map,pairwise_map] at hsorted
  exact ⟨vs,showsMembers_of_forall hsorted hvs⟩

theorem ItemsShown.showsItems (h : ItemsShown sha order items) :
    ∃ vs, ShowsItems sha order 929984 vs items := by
  have hvs : ∃ vs : List (FieldDef × List (FieldDef × Value)),
      items=renderItems sha order (vs.map fun m => (m.1,.object m.2)) ∧
      ∀ m∈vs, m.1.IsItem ∧ ShowsMembers sha order 929984 m.2 (renderMembers sha order m.2) := by
    induction items with
    | nil => exact ⟨[],by rw [map_nil,renderItems],by simp⟩
    | cons x items ih =>
      obtain ⟨⟨d,ws,members,hd,rfl,hshows⟩,hrest⟩ := forall_mem_cons.mp h
      obtain ⟨vs,rfl,hvs⟩ := ih hrest
      have heq := hshows.eq_render
      refine ⟨(d,ws)::vs,?_,forall_mem_cons.mpr ⟨⟨hd,heq ▸ hshows⟩,hvs⟩⟩
      rw [map_cons,renderItems,render,← heq]
  obtain ⟨vs,rfl,hvs⟩ := hvs
  exact ⟨_,showsItems_of_forall hvs⟩

/-- Both loops keep what they have read; the induction is on the fuel. -/
theorem ensures_loops (fuel : ℕ) : (∀ map, MapShown sha order map →
      Ensures (parseObject sha order fuel map) fun j => ∃ map', j=.obj map' ∧
        MapShown sha order map') ∧
    (∀ items, ItemsShown sha order items →
      Ensures (parseArray sha order fuel items) fun j => ∃ items', j=.arr items' ∧
        ItemsShown sha order items') := by
  induction fuel with
  | zero =>
    refine ⟨fun map _ => ?_,fun items _ => ?_⟩
    · rw [parseObject]
      exact ensures_throw
    · rw [parseArray]
      exact ensures_throw
  | succ fuel ih =>
    obtain ⟨ihobject,iharray⟩ := ih
    have hempty : MapShown sha order [] := ⟨.nil,by simp⟩
    refine ⟨fun map hmap => ?_,fun items hitems => ?_⟩
    · rw [parseObject]
      refine (ensures_any remaining).bind fun left _ => ?_
      split
      · exact ensures_pure ⟨map,rfl,hmap⟩
      refine ensures_decodeFieldId.bind fun id hid => ?_
      split
      · exact ensures_pure ⟨map,rfl,hmap⟩
      split
      · exact ensures_pure ⟨map,rfl,hmap⟩
      rename_i hobjectEnd harrayEnd
      split
      · exact (ensures_any _).bind fun _ _ => ihobject map hmap
      rename_i d hd
      obtain ⟨hmem,hs,hkey⟩ := isSerialized_of_header hd hid
      have hmember : d.IsMember := ⟨hmem,hs,by rwa [hkey],by rwa [hkey]⟩
      have hvalue : Ensures
        (parseFieldValue sha order (parseObject sha order fuel []) (parseArray sha order fuel []) d)
          fun j => ∃ v, Shows sha order 929984 d v j := by
        by_cases hobject : d.fieldType=.stObject
        · simp only [parseFieldValue,hobject]
          refine (ihobject [] hempty).mono ?_
          rintro _ ⟨map',rfl,hmap'⟩
          obtain ⟨vs,hvs⟩ := hmap'.showsMembers
          exact ⟨_,hvs.shows hobject⟩
        by_cases harray : d.fieldType=.stArray
        · simp only [parseFieldValue,harray]
          refine (iharray [] (by simp [ItemsShown])).mono ?_
          rintro _ ⟨items',rfl,hitems'⟩
          obtain ⟨vs,hvs⟩ := hitems'.showsItems
          exact ⟨_,hvs.shows harray⟩
        refine (ensures_parseFieldValue hmem hs hobject harray _ _).mono ?_
        rintro j ⟨l,hl⟩
        exact ⟨_,hl.shows⟩
      refine hvalue.bind ?_
      rintro j ⟨v,hv⟩
      exact ihobject _ (hmap.insert hmember hv)
    · rw [parseArray]
      refine (ensures_any remaining).bind fun left _ => ?_
      split
      · exact ensures_pure ⟨items,rfl,hitems⟩
      refine ensures_decodeFieldId.bind fun id hid => ?_
      split
      · exact ensures_pure ⟨items,rfl,hitems⟩
      rename_i harrayEnd
      split
      · exact (ensures_any _).bind fun _ _ => iharray items hitems
      rename_i d hd
      obtain ⟨hmem,hs,hkey⟩ := isSerialized_of_header hd hid
      refine (ihobject [] hempty).bind ?_
      rintro _ ⟨map',rfl,hmap'⟩
      obtain ⟨vs,hvs⟩ := hmap'.showsMembers
      refine iharray _ fun x hx => ?_
      rcases mem_append.mp hx with hx | hx
      · exact hitems x hx
      · exact ⟨d,vs,map',⟨hmem,hs,by rwa [hkey]⟩,mem_singleton.mp hx,hvs⟩

theorem showsMembers_of_decode (h : decode sha order bytes=.ok j) :
    ∃ vs members, j=.obj members ∧ ShowsMembers sha order 929984 vs members := by
  rw [decode] at h
  split at h
  · rename_i json rest hparse
    cases h
    obtain ⟨map,rfl,hmap⟩ := (ensures_loops _).1 [] ⟨.nil,by simp⟩ hparse
    obtain ⟨vs,hvs⟩ := hmap.showsMembers
    exact ⟨vs,map,rfl,hvs⟩
  · cases h

/-! ## What the serialiser writes -/

/-- A field of an object with its bytes and the value that they are read back as. -/
structure Part where
  field : FieldDef
  bytes : Bytes
  value : Value

namespace Part

def wire (p : Part) : Bytes := encodeFieldId p.field.typeCode p.field.nth++p.bytes

variable (sha order) in
structure IsKept (p : Part) : Prop where
  isMember : p.field.IsMember
  shows : Shows sha order 918744 p.field p.value (render sha order p.field p.value)
  reads : ∀ fuel, p.bytes.length < fuel →
    Reads (parseFieldValue sha order (parseObject sha order fuel []) (parseArray sha order fuel [])
      p.field) p.bytes
      (render sha order p.field p.value)

end Part

variable {parts : List Part}

theorem length_encodeFieldId_pos (t f : ℤ) : 0 < (encodeFieldId t f).length := by
  rw [encodeFieldId]
  split
  · simp
  · split
    · simp
    · split <;> simp

theorem reads_header (hd : d∈fields) (hs : d.isSerialized) :
    Reads decodeFieldId (encodeFieldId d.typeCode d.nth) d.sortKey := by
  obtain ⟨ht,ht',hf,hf'⟩ := header_bounds hd hs
  exact reads_decodeFieldId ht ht' hf hf'

theorem parseObject_part {p : Part} (h : p.IsKept sha order) (hfuel : p.bytes.length < fuel)
    (map : List (String × Json)) (rest : Bytes) :
      parseObject sha order (fuel+1) map (p.wire++rest) =
      parseObject sha order fuel (Json.insert p.field.name (render sha order p.field p.value) map)
        rest := by
  have hne : (p.wire++rest).length≠0 := by
    have := length_encodeFieldId_pos p.field.typeCode p.field.nth
    simp only [Part.wire,length_append]
    omega
  rw [parseObject,bind_of_ok (show remaining (p.wire++rest)=.ok ((p.wire++rest).length,_) from rfl),
    if_neg hne,
    Part.wire,append_assoc,bind_of_ok
      (reads_header h.isMember.mem_fields h.isMember.isSerialized _),
    if_neg h.isMember.ne_objectEnd,if_neg h.isMember.ne_arrayEnd]
  have hget : getFieldByHeader p.field.sortKey.1 p.field.sortKey.2=some p.field :=
    getFieldByHeader_sortKey h.isMember.mem_fields h.isMember.isSerialized
  simp only [hget]
  rw [bind_of_ok (h.reads fuel hfuel rest)]

theorem parseObject_parts (h : ∀ p∈parts, p.IsKept sha order)
    (hfuel : (parts.flatMap Part.wire).length < fuel) (map : List (String × Json)) (rest : Bytes) :
    ∃ fuel', parseObject sha order fuel map (parts.flatMap Part.wire++rest) =
      parseObject sha order (fuel'+1)
        (parts.foldl (fun map p => Json.insert p.field.name (render sha order p.field p.value) map)
          map) rest := by
  induction parts generalizing fuel map with
  | nil =>
    obtain ⟨fuel',rfl⟩ := Nat.exists_eq_add_one_of_ne_zero (show fuel≠0 by omega)
    exact ⟨fuel',rfl⟩
  | cons p parts ih =>
    obtain ⟨hp,hparts⟩ := forall_mem_cons.mp h
    obtain ⟨fuel,rfl⟩ := Nat.exists_eq_add_one_of_ne_zero (show fuel≠0 by omega)
    have hpos := length_encodeFieldId_pos p.field.typeCode p.field.nth
    rw [flatMap_cons,length_append,Part.wire,length_append] at hfuel
    rw [flatMap_cons,append_assoc,parseObject_part hp (by omega),foldl_cons]
    exact ih hparts (by omega) _

theorem parseObject_objectEnd (fuel : ℕ) (map : List (String × Json)) (rest : Bytes) :
    parseObject sha order (fuel+1) map (objectEnd++rest)=.ok (.obj map,rest) := by
  have hread : Reads decodeFieldId objectEnd (14,1) :=
    reads_decodeFieldId (by decide) (by decide) (by decide) (by decide)
  rw [parseObject,
    bind_of_ok (show remaining (objectEnd++rest)=.ok ((objectEnd++rest).length,_) from rfl),
    if_neg (by simp [objectEnd,encodeFieldId]),bind_of_ok (hread rest),if_pos rfl,pure_apply]

theorem parseArray_arrayEnd (fuel : ℕ) (items : List Json) (rest : Bytes) :
    parseArray sha order (fuel+1) items (arrayEnd++rest)=.ok (.arr items,rest) := by
  have hread : Reads decodeFieldId arrayEnd (15,1) :=
    reads_decodeFieldId (by decide) (by decide) (by decide) (by decide)
  rw [parseArray,
    bind_of_ok (show remaining (arrayEnd++rest)=.ok ((arrayEnd++rest).length,_) from rfl),
    if_neg (by simp [arrayEnd,encodeFieldId]),bind_of_ok (hread rest),if_pos rfl,pure_apply]

/-- The members of an object are written in another order, and none is lost. -/
theorem assemble_parts (h : assemble (parts.map fun p => (p.field.name,.ok p.wire))=.ok bytes) :
    ∃ parts' : List Part, parts'.Perm parts ∧ bytes=parts'.flatMap Part.wire := by
  have hsort :
    (parts.map fun p => (p.field.name,(.ok p.wire : Except CodecError Bytes))).insertionSort
      (fun m m' => canonicalLE m.1 m'.1) =
      (parts.insertionSort fun p p' => canonicalLE p.field.name p'.field.name).map fun p =>
        (p.field.name,.ok p.wire) := by
    refine (map_insertionSort _ _ _ _ ?_).symm
    simp
  have hmapM : ∀ l : List Part,
    (l.map fun p => (p.field.name,(.ok p.wire : Except CodecError Bytes))).mapM (·.2) =
      .ok (l.map Part.wire) := by
    intro l
    induction l with
    | nil => rfl
    | cons p l ih =>
      rw [map_cons,mapM_cons,ih]
      rfl
  refine ⟨parts.insertionSort fun p p' => canonicalLE p.field.name p'.field.name,
    perm_insertionSort _ _,?_⟩
  rw [assemble,hsort,hmapM] at h
  cases h
  rfl

theorem ok_of_assemble {members : List (String × Except CodecError Bytes)}
    (h : assemble members=.ok bytes) : ∀ m∈members, ∃ b, m.2=.ok b := by
  have hmapM : ∀ (l : List (String × Except CodecError Bytes)) {bs}, l.mapM (·.2)=.ok bs →
      ∀ m∈l, ∃ b, m.2=.ok b := by
    intro l
    induction l with
    | nil => simp
    | cons m l ih =>
      intro bs hbs
      rw [mapM_cons] at hbs
      obtain ⟨b,hb,hbs⟩ := bind_ok hbs
      obtain ⟨bs',hbs',-⟩ := bind_ok hbs
      exact forall_mem_cons.mpr ⟨⟨b,hb⟩,ih hbs'⟩
  obtain ⟨bs,hbs,-⟩ := bind_ok h
  intro m hm
  exact hmapM _ hbs m ((perm_insertionSort _ members).mem_iff.mpr hm)

def Value.Writable (d : FieldDef) (v : Value) : Prop :=
    v.All (fun d l => l.Within 918744 (fun _ => True) d) d

def Value.Fits (d : FieldDef) (v : Value) : Prop :=
    v.All (fun d l => l.Within 918744 NumberFits d) d

theorem Value.fits_object_iff (hmarker : ∀ m∈vs, m.1.sortKey≠(14,1) ∧ m.1.sortKey≠(15,1)) :
    (Value.object vs).Fits d ↔ ∀ m∈vs, m.2.Fits m.1 := by
  exact ⟨fun h => (Value.All.of_object h).2,fun h => .object hmarker h⟩

theorem Value.fits_array_iff (hmarker : ∀ m∈vs, m.1.sortKey≠(15,1)) :
    (Value.array vs).Fits d ↔ ∀ m∈vs, m.2.Fits m.1 := by
  exact ⟨fun h => (Value.All.of_array h).2,fun h => .array hmarker h⟩

variable (sha order) in
/-- The bytes of a field are read back as the canonical text of a value. -/
def FieldTrip (j : Json) : Prop :=
  ∀ ⦃d : FieldDef⦄ ⦃v : Value⦄ ⦃bytes : Bytes⦄, readField sha d j=some v → v.Writable d →
    v.Ordered →
    serializeValue sha d j=.ok bytes →
    ∃ v', Shows sha order 918744 d v' (render sha order d v') ∧
      (∀ fuel, bytes.length < fuel →
        Reads (parseFieldValue sha order (parseObject sha order fuel [])
          (parseArray sha order fuel []) d) bytes
          (render sha order d v')) ∧
      (v'=v ↔ v.Fits d)

variable (sha order) in
/-- The bytes of the members of an object are read back as the canonical text of an object. -/
def MembersTrip (j : Json) : Prop :=
  ∀ ⦃members : List (String × Json)⦄ ⦃vs : List (FieldDef × Value)⦄ ⦃bytes :
    Bytes⦄, j=.obj members →
    readMembers sha members=some vs → (∀ m∈vs, m.1.sortKey≠(14,1) ∧ m.1.sortKey≠(15,1)) →
    (∀ m∈vs, m.2.Writable m.1) → (Value.object vs).Ordered →
    assemble (serializeMembers sha true members)=.ok bytes →
    ∃ vs', ShowsMembers sha order 918744 vs' (renderMembers sha order vs') ∧
      (∀ fuel rest, bytes.length < fuel → ∃ fuel', parseObject sha order fuel [] (bytes++rest) =
        parseObject sha order (fuel'+1) (renderMembers sha order vs') rest) ∧
      (vs'=vs ↔ ∀ m∈vs, m.2.Fits m.1)

theorem fieldTrip_leaf (hread : readLeaf sha d j=some l) (hl : (Value.leaf l).Writable d)
    (h : serializeValue sha d j=.ok bytes) :
      ∃ v', Shows sha order 918744 d v' (render sha order d v') ∧
      (∀ fuel, bytes.length < fuel →
        Reads (parseFieldValue sha order (parseObject sha order fuel [])
          (parseArray sha order fuel []) d) bytes
          (render sha order d v')) ∧ (v'=.leaf l ↔ (Value.leaf l).Fits d) := by
  obtain ⟨hobject,harray⟩ := fieldType_of_readLeaf hread
  rw [serializeValue_of_leaf hobject harray] at h
  have hwithin : l.Within 918744 (fun _ => True) d := by
    cases hl with
    | leaf hl => exact hl
  obtain ⟨l',⟨j',hshown,hreads⟩,hiff⟩ : ∃ l', Kept sha order d bytes l' ∧
    (l'=l ↔ l.Within 918744 NumberFits d) :=
    serializeLeaf_trip h hread hwithin
  have hshows := hshown.shows
  have heq := hshows.eq_render
  refine ⟨.leaf l',heq ▸ hshows,fun fuel _ => heq ▸ hreads _ _,?_⟩
  rw [Value.leaf.injEq,hiff]
  constructor
  · exact fun h => .leaf h
  · intro h
    cases h with
    | leaf h => exact h

theorem parts_of_members (ih : ∀ m∈members, FieldTrip sha order m.2)
    (hread : readMembers sha members=some vs)
    (hmarker : ∀ m∈vs, m.1.sortKey≠(14,1) ∧ m.1.sortKey≠(15,1))
    (hwritable : ∀ m∈vs, m.2.Writable m.1) (hordered : ∀ m∈vs, m.2.Ordered)
    (hok : ∀ m∈serializeMembers sha true members, ∃ b, m.2=.ok b) :
    ∃ parts : List Part,
      serializeMembers sha true members=(parts.map fun p => (p.field.name,.ok p.wire)) ∧
      (∀ p∈parts, p.IsKept sha order) ∧ parts.map (·.field)=vs.map (·.1) ∧
      ((parts.map fun p => (p.field,p.value))=vs ↔ ∀ m∈vs, m.2.Fits m.1) := by
  induction members generalizing vs with
  | nil =>
    rw [readMembers] at hread
    cases hread
    exact ⟨[],by rw [serializeMembers,map_nil],by simp,rfl,by simp⟩
  | cons m members ihmembers =>
    obtain ⟨name,x⟩ := m
    rw [readMembers] at hread
    obtain ⟨d,hd,hread⟩ := bind_eq_some_iff.mp hread
    obtain ⟨v,hv,hread⟩ := bind_eq_some_iff.mp hread
    obtain ⟨vs,hvs,rfl⟩ := map_eq_some_iff.mp hread
    obtain ⟨hmem,hs,rfl⟩ := of_knownField hd
    obtain ⟨ihx,ih⟩ := forall_mem_cons.mp ih
    obtain ⟨hmarkerd,hmarker⟩ := forall_mem_cons.mp hmarker
    obtain ⟨hwritablev,hwritable⟩ := forall_mem_cons.mp hwritable
    obtain ⟨horderedv,hordered⟩ := forall_mem_cons.mp hordered
    rw [serializeMembers,getField_name hmem] at hok
    simp only [shouldSerialize,hs,Bool.true_and,Bool.true_or,if_true] at hok
    obtain ⟨⟨b,hb⟩,hok⟩ := forall_mem_cons.mp hok
    obtain ⟨bytes,hbytes,hb'⟩ := bind_ok hb
    obtain ⟨v',hshows,hreads,hiff⟩ := ihx hv hwritablev horderedv hbytes
    obtain ⟨parts,hparts,hkept,hfields,hpartsiff⟩ := ihmembers ih hvs hmarker hwritable hordered hok
    refine ⟨⟨d,bytes,v'⟩::parts,?_,
      forall_mem_cons.mpr ⟨⟨⟨hmem,hs,hmarkerd.1,hmarkerd.2⟩,hshows,hreads⟩,
      hkept⟩,by rw [map_cons,map_cons,hfields],?_⟩
    · rw [serializeMembers,getField_name hmem,hparts,map_cons]
      simp only [shouldSerialize,hs,Bool.true_and,Bool.true_or,if_true]
      rw [hbytes]
      rfl
    · rw [map_cons,List.cons.injEq,hpartsiff,forall_mem_cons,Prod.mk.injEq,hiff]
      simp

theorem membersTrip_obj (ih : ∀ m∈members, FieldTrip sha order m.2) :
    MembersTrip sha order (.obj members) := by
  intro members' vs bytes hobj hread hmarker hwritable hordered h
  cases hobj
  obtain ⟨hsorted,hordered⟩ : vs.Pairwise (·.1.name < ·.1.name) ∧ ∀ m∈vs, m.2.Ordered := by
    cases hordered with
    | object hsorted h => exact ⟨hsorted,h⟩
  obtain ⟨parts,hparts,hkept,hfields,hiff⟩ :=
    parts_of_members ih hread hmarker hwritable hordered (ok_of_assemble h)
  rw [hparts] at h
  obtain ⟨parts',hperm,rfl⟩ := assemble_parts h
  have hkept' : ∀ p∈parts', p.IsKept sha order := fun p hp => hkept p (hperm.mem_iff.mp hp)
  have hnames : (parts.map fun p => (p.field,p.value)).Pairwise (·.1.name < ·.1.name) := by
    have hpair : (parts.map (·.field)).Pairwise (·.name < ·.name) := by
      rw [hfields,pairwise_map]
      exact hsorted
    rw [pairwise_map] at hpair ⊢
    exact hpair
  have hshows : ShowsMembers sha order 918744 (parts.map fun p => (p.field,p.value))
      (renderMembers sha order (parts.map fun p => (p.field,p.value))) := by
    refine showsMembers_of_forall hnames ?_
    rw [forall_mem_map]
    exact fun p hp => ⟨(hkept p hp).isMember,(hkept p hp).shows⟩
  refine ⟨parts.map fun p => (p.field,p.value),hshows,fun fuel rest hfuel => ?_,hiff⟩
  obtain ⟨fuel',hparse⟩ := parseObject_parts hkept' hfuel [] rest
  refine ⟨fuel',hparse.trans ?_⟩
  -- the parser's map restores the order of the keys
  have hrender : renderMembers sha order (parts.map fun p => (p.field,p.value)) =
      parts.map fun p => (p.field.name,render sha order p.field p.value) := by
    rw [renderMembers_eq_map,map_map]
    rfl
  have hfold :
    parts'.foldl (fun map p => Json.insert p.field.name (render sha order p.field p.value) map) [] =
      renderMembers sha order (parts.map fun p => (p.field,p.value)) := by
    have hsortedKeys : (parts.map fun p => (p.field.name,render sha order p.field p.value)).Pairwise
      (·.1 < ·.1) := by
      rw [pairwise_map] at hnames ⊢
      exact hnames
    rw [hrender,← Json.foldl_insert
      (hperm.map fun p => (p.field.name,render sha order p.field p.value)) hsortedKeys,
      foldl_map]
  rw [hfold]

theorem items_trip (ih : ∀ x∈items, ∀ name y, x=.obj [(name,y)] → MembersTrip sha order y)
    (hread : readItems sha items=some vs) (hmarker : ∀ m∈vs, m.1.sortKey≠(15,1))
    (hwritable : ∀ m∈vs, m.2.Writable m.1) (hordered : ∀ m∈vs, m.2.Ordered)
    (h : serializeItems sha items=.ok bytes) :
    ∃ ws : List (FieldDef × List (FieldDef × Value)),
      (∀ m∈ws, m.1.IsItem ∧ ShowsMembers sha order 918744 m.2 (renderMembers sha order m.2)) ∧
      (∀ fuel front rest, bytes.length < fuel →
        ∃ fuel', parseArray sha order fuel front (bytes++rest) =
        parseArray sha order (fuel'+1)
          (front++renderItems sha order (ws.map fun m => (m.1,.object m.2))) rest) ∧
      ((ws.map fun m => (m.1,Value.object m.2))=vs ↔ ∀ m∈vs, m.2.Fits m.1) := by
  induction items generalizing vs bytes with
  | nil =>
    rw [readItems] at hread
    cases hread
    rw [serializeItems] at h
    cases h
    refine ⟨[],by simp,fun fuel front rest hfuel => ?_,by simp⟩
    obtain ⟨fuel',rfl⟩ := Nat.exists_eq_add_one_of_ne_zero (show fuel≠0 by omega)
    exact ⟨fuel',by rw [map_nil,renderItems,append_nil,nil_append]⟩
  | cons x items ihitems =>
    rw [readItems.eq_def] at hread
    split at hread
    · cases ‹x::items=[]›
    · rename_i name members items' heq
      cases heq
      obtain ⟨d,hd,hread⟩ := bind_eq_some_iff.mp hread
      obtain ⟨ms,hms,hread⟩ := bind_eq_some_iff.mp hread
      obtain ⟨vs,hvs,rfl⟩ := map_eq_some_iff.mp hread
      obtain ⟨hmem,hs,rfl⟩ := of_knownField hd
      obtain ⟨ihx,ih⟩ := forall_mem_cons.mp ih
      obtain ⟨hmarkerd,hmarker⟩ := forall_mem_cons.mp hmarker
      obtain ⟨hwritablev,hwritable⟩ := forall_mem_cons.mp hwritable
      obtain ⟨horderedv,hordered⟩ := forall_mem_cons.mp hordered
      obtain ⟨hmarkerms,hwritablems⟩ := Value.All.of_object hwritablev
      -- the bytes of the first item
      rw [serializeItems] at h
      obtain ⟨first,hfirst,h⟩ := bind_ok h
      obtain ⟨others,hothers,h⟩ := bind_ok h
      cases h
      rw [serializeWrapper,getField_name hmem] at hfirst
      obtain ⟨wrapped,hwrapped,hfirst⟩ := bind_ok hfirst
      obtain ⟨inner,hinner,hwrapped⟩ := bind_ok hwrapped
      cases hwrapped
      rw [serializeWrapper] at hfirst
      cases hfirst
      rw [serializeObject] at hinner
      obtain ⟨ms',hshows,hparse,hiffms⟩ :=
        ihx _ _ rfl rfl hms hmarkerms hwritablems horderedv hinner
      obtain ⟨ws,hws,hloop,hiff⟩ := ihitems ih hvs hmarker hwritable hordered hothers
      refine ⟨(d,ms')::ws,forall_mem_cons.mpr ⟨⟨⟨hmem,hs,hmarkerd⟩,hshows⟩,hws⟩,?_,?_⟩
      · intro fuel front rest hfuel
        obtain ⟨fuel,rfl⟩ := Nat.exists_eq_add_one_of_ne_zero (show fuel≠0 by omega)
        have hpos := length_encodeFieldId_pos d.typeCode d.nth
        simp only [append_nil,length_append] at hfuel
        obtain ⟨fuel₁,hobject⟩ := hparse fuel (objectEnd++(others++rest)) (by omega)
        obtain ⟨fuel₂,harray⟩ :=
          hloop fuel (front++[.obj [(d.name,.obj (renderMembers sha order ms'))]]) rest (by omega)
        refine ⟨fuel₂,?_⟩
        have hsplit : encodeFieldId d.typeCode d.nth++inner++objectEnd++[]++others++rest =
            encodeFieldId d.typeCode d.nth++(inner++(objectEnd++(others++rest))) := by
          simp
        have hget : getFieldByHeader d.sortKey.1 d.sortKey.2=some d :=
          getFieldByHeader_sortKey hmem hs
        rw [hsplit,parseArray,bind_of_ok (show remaining _=.ok (length _,_) from rfl),
          if_neg (by simp only [length_append]; omega),bind_of_ok (reads_header hmem hs _),
            if_neg hmarkerd]
        simp only [hget]
        rw [bind_of_ok (hobject.trans (parseObject_objectEnd _ _ _)),Json.insert,harray,map_cons,
          renderItems,
          render,append_assoc,singleton_append]
      · rw [map_cons,List.cons.injEq,hiff,forall_mem_cons,Prod.mk.injEq,Value.object.injEq,hiffms,
          Value.fits_object_iff hmarkerms]
        simp
    · cases hread

theorem fieldTrip_obj (h : MembersTrip sha order (.obj members)) :
    FieldTrip sha order (.obj members) := by
  intro d v bytes hread hwritable hordered hser
  rw [readField] at hread
  split at hread
  · rename_i ht
    obtain ⟨vs,hvs,rfl⟩ := map_eq_some_iff.mp hread
    obtain ⟨hmarker,hms⟩ := Value.All.of_object hwritable
    rw [serializeValue] at hser
    simp only [ht] at hser
    obtain ⟨flat,hflat,hser⟩ := bind_ok hser
    cases hser
    obtain ⟨vs',hshows,hparse,hiff⟩ := h rfl hvs hmarker hms hordered hflat
    have hshows' := hshows.shows ht
    refine ⟨.object vs',by rw [render]; exact hshows',fun fuel hfuel rest => ?_,?_⟩
    · rw [length_append] at hfuel
      obtain ⟨fuel',hobject⟩ := hparse fuel (objectEnd++rest) (by omega)
      simp only [parseFieldValue,ht]
      rw [append_assoc,hobject,parseObject_objectEnd,render]
    · rw [Value.object.injEq,hiff,Value.fits_object_iff hmarker]
  · obtain ⟨l,hl,rfl⟩ := map_eq_some_iff.mp hread
    exact fieldTrip_leaf hl hwritable hser

theorem fieldTrip_arr (ih : ∀ x∈items, ∀ name y, x=.obj [(name,y)] → MembersTrip sha order y) :
    FieldTrip sha order (.arr items) := by
  intro d v bytes hread hwritable hordered hser
  rw [readField] at hread
  split at hread
  · rename_i ht
    obtain ⟨vs,hvs,rfl⟩ := map_eq_some_iff.mp hread
    obtain ⟨hmarker,hms⟩ := Value.All.of_array hwritable
    have hordered' : ∀ m∈vs, m.2.Ordered := by
      cases hordered with
      | array h => exact h
    rw [serializeValue] at hser
    simp only [ht] at hser
    obtain ⟨flat,hflat,hser⟩ := bind_ok hser
    cases hser
    obtain ⟨ws,hws,hparse,hiff⟩ := items_trip ih hvs hmarker hms hordered' hflat
    have hshows := (showsItems_of_forall hws).shows ht
    refine ⟨.array (ws.map fun m => (m.1,.object m.2)),
      by rw [render]; exact hshows,fun fuel hfuel rest => ?_,?_⟩
    · rw [length_append] at hfuel
      obtain ⟨fuel',harray⟩ := hparse fuel [] (arrayEnd++rest) (by omega)
      simp only [parseFieldValue,ht]
      rw [append_assoc,harray,parseArray_arrayEnd,render,nil_append]
    · rw [Value.array.injEq,hiff,Value.fits_array_iff hmarker]
  · obtain ⟨l,hl,rfl⟩ := map_eq_some_iff.mp hread
    exact fieldTrip_leaf hl hwritable hser

/-- Every field and every object is read back; the third part is for the wrappers of array items. -/
theorem trip (j : Json) :
    FieldTrip sha order j ∧ MembersTrip sha order j ∧ ∀ name y, j=.obj [(name,y)] →
      MembersTrip sha order y := by
  have hscalar : ∀ {j : Json}, j.asArray=none → j.asObject=none →
      FieldTrip sha order j ∧ MembersTrip sha order j ∧ ∀ name y, j=.obj [(name,y)] →
        MembersTrip sha order y := by
    intro j harr hobj
    have hne : ∀ members, j≠.obj members := by
      rintro members rfl
      cases hobj
    refine ⟨fun d v bytes hread hwritable _ hser => ?_,fun members _ _ h => absurd h (hne _),
      fun _ _ h => absurd h (hne _)⟩
    rw [readField_scalar harr hobj] at hread
    obtain ⟨l,hl,rfl⟩ := map_eq_some_iff.mp hread
    exact fieldTrip_leaf hl hwritable hser
  induction j using Json.induction with
  | null => exact hscalar rfl rfl
  | bool b => exact hscalar rfl rfl
  | int n => exact hscalar rfl rfl
  | float bits => exact hscalar rfl rfl
  | str s => exact hscalar rfl rfl
  | arr items ih =>
    refine ⟨fieldTrip_arr fun x hx => (ih x hx).2.2,fun members _ _ h => ?_,fun _ _ h => ?_⟩
    · cases h
    · cases h
  | obj members ih =>
    have hmembers := membersTrip_obj fun m hm => (ih m hm).1
    refine ⟨fieldTrip_obj hmembers,hmembers,?_⟩
    intro name y heq
    cases heq
    exact (ih (name,y) mem_cons_self).2.1

end

end Codec

end Rxrpl
