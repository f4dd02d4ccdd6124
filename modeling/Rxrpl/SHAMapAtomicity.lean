import Rxrpl.SHAMapHistory

/-!
# Failing calls

A call that fails should leave the map as it was. `update` and `delete` put the child
they have taken out back before they pass on an error; `insert` does so only for a leaf
that hangs on the node itself. A duplicate found deeper loses the whole branch of the
root, whatever other keys it holds.
-/

namespace Rxrpl

namespace SHAMap

variable {sha : Sha512Half} {m m' : SHAMap sha} {c c' : Fin 16 → KeyTrie}

def InMemory (m : SHAMap sha) : Prop := ∃ c, Represents (fun _ => False) c m

def contents (m : SHAMap sha) (key : Hash256) : Option Bytes :=
  match m.get key with
  | .ok data => data
  | .error _ => none

/-- Nothing that can be observed tells the maps apart. -/
structure Unchanged (m m' : SHAMap sha) : Prop where
  get_eq : ∀ key, m'.get key=m.get key
  forEach_eq : m'.forEach=m.forEach
  iterates_iff : ∀ l, m'.Iterates l ↔ m.Iterates l
  rootHash_eq : ∀ owned owned', (m'.rootHash owned').2=(m.rootHash owned).2

theorem Represents.contents_eq {away : KeyTrie → Prop} (h : Represents away c m) :
    m.contents=KeyTrie.find c := by
  funext key
  rw [contents,h.get_eq]

/-- All observations of a map are functions of the tries below its root, and the
contents alone determine those. -/
theorem Represents.unchanged_iff {away away' : KeyTrie → Prop} (h : Represents away c m)
    (h' : Represents away' c' m') (hkind : m'.kind=m.kind) : Unchanged m m' ↔ c'=c := by
  constructor
  · intro hu
    exact h'.eq_of_get h hu.get_eq
  rintro rfl
  exact {
    get_eq := fun key => by rw [h.get_eq,h'.get_eq]
    forEach_eq := by rw [h.forEach_eq,h'.forEach_eq]
    iterates_iff := fun l => by rw [h.iterates_iff,h'.iterates_iff]
    rootHash_eq := fun owned owned' => by rw [h.rootHash_eq,h'.rootHash_eq,hkind] }

theorem inMemory_run (kind : LeafKind) (store : Option NodeStore) (calls : List Call) :
    ((new kind store : SHAMap sha).run calls).InMemory := by
  obtain ⟨x,c,hx,hrep⟩ := (represents_new kind store).run_eq (by simp [new]) calls
  exact ⟨c,hx ▸ hrep⟩

theorem Call.effect_error_iff (hc : CanonicalRoot c) (a : Call) :
    (∀ e, (a.effect c).2=.error e → (a.effect c).1=c) ↔ ¬a.Clobbers (KeyTrie.find c) := by
  cases a with
  | put key data => simp [Call.effect,Call.Clobbers]
  | update key data | delete key =>
    simp only [Call.effect,Call.Clobbers]
    cases KeyTrie.find c key <;> simp
  | insert key data =>
    simp only [Call.effect,Call.Clobbers]
    cases hk : KeyTrie.find c key with
    | none => simp
    | some v =>
      have hiff := clobber_eq_self_iff hc (by simp [hk] : KeyTrie.find c key≠none)
      simp [hiff]

/-- A failing call changes nothing, if and only if it is not an `insert` of a present
key whose first nibble another present key shares. -/
theorem failed_call_unchanged_iff (m : SHAMap sha) (hm : m.InMemory) (hs : m.state≠.immutable)
    (a : Call) :
    (∀ e, (m.call a).2=.error e → Unchanged m (m.call a).1) ↔ ¬a.Clobbers m.contents := by
  obtain ⟨c,hrep⟩ := hm
  obtain ⟨x,hx,hrep'⟩ := hrep.call_eq hs a
  rw [hrep.contents_eq,← Call.effect_error_iff hrep.canonical,hx]
  simp only [hrep.unchanged_iff hrep' rfl]

def sampleMap : SHAMap sampleSha :=
    (new .accountState none).run [.put keyA [0x0A],.put keyB [0x0B]]

/-- Inserting `keyA` once more fails, and both entries are gone. -/
theorem failed_insert_drops_branch :
    (sampleMap.call (.insert keyA [0x0D])).2=.error .duplicateKey ∧
      sampleMap.get keyB=.ok (some [0x0B]) ∧
      (sampleMap.call (.insert keyA [0x0D])).1.get keyB=.ok none ∧
      sampleMap.forEach=.ok [(keyA,[0x0A]),(keyB,[0x0B])] ∧
      (sampleMap.call (.insert keyA [0x0D])).1.forEach=.ok [] ∧
      (sampleMap.rootHash fun _ => true).2 =
        .ofNat 0xb8dd49c529df3c79db706bd48351665be87a04c9bedf28eb7b2ab2d6610e165c ∧
      ((sampleMap.call (.insert keyA [0x0D])).1.rootHash fun _ => true).2=.zero := by
  refine ⟨?_,?_,?_,?_,?_,?_,?_⟩ <;> decide +kernel

/-- Removing a key that is not there, below the inner node of the two others. -/
theorem failed_delete_unchanged :
    (sampleMap.call (.delete (.ofNat (0x13 <<< 248)))).2=.error .notFound ∧
      Unchanged sampleMap (sampleMap.call (.delete (.ofNat (0x13 <<< 248)))).1 := by
  have herr : (sampleMap.call (.delete (.ofNat (0x13 <<< 248)))).2=.error .notFound := by decide
  exact ⟨herr,(failed_call_unchanged_iff sampleMap (inMemory_run _ _ _) (by decide) _).mpr id _
    herr⟩

end SHAMap

end Rxrpl
