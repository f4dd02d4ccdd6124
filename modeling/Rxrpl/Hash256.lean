import Rxrpl.RadixTrie
import Mathlib.Data.List.GetD

/-!
# 256-bit hashes and keys

`Hash256` is an array of 32 bytes. As a key of a SHAMap it is read as 64 nibbles,
the upper nibble of each byte first, and the byte order is the nibble order.
-/

namespace Rxrpl

open List

abbrev Bytes := List UInt8

instance neZero_sixteen : @NeZero ℕ Zero.ofOfNat0 16 := ⟨Nat.succ_ne_zero 15⟩

/-- The source's `Hash256([u8; 32])`. -/
structure Hash256 where
  asBytes : Bytes
  length_asBytes : asBytes.length=32
  deriving DecidableEq

namespace Hash256

attribute [simp] length_asBytes

@[ext] theorem ext {h h' : Hash256} (he : h.asBytes=h'.asBytes) : h=h' := by
  cases h; cases h'; cases he; rfl

/-- `Hash256::ZERO`, the hash of an empty map and the marker of an absent child. -/
def zero : Hash256 := ⟨List.replicate 32 0,by simp⟩

instance : Inhabited Hash256 := ⟨zero⟩

def ofNat (n : ℕ) : Hash256 :=
    ⟨(List.range 32).map fun i => UInt8.ofNat (n >>> (8*(31-i))),by simp⟩

def isZero (h : Hash256) : Bool := h.asBytes.all (· == 0)

def fromSlice (s : Bytes) : Option Hash256 := if h : s.length=32 then some ⟨s,h⟩ else none

/-- The derived `Ord`: lexicographic on the bytes. -/
instance : LT Hash256 := ⟨fun h h' => h.asBytes < h'.asBytes⟩

instance (h h' : Hash256) : Decidable (h < h') :=
    inferInstanceAs (Decidable (h.asBytes < h'.asBytes))

instance : LinearOrder Hash256 where
  le h h' := ¬ h' < h
  le_refl h := List.lt_irrefl h.asBytes
  le_trans a b c hab hbc := fun h => by
    have hle : a.asBytes ≤ c.asBytes := Std.le_trans (List.not_lt.mp hab) (List.not_lt.mp hbc)
    exact List.not_lt.mpr hle h
  lt_iff_le_not_ge a b := ⟨fun h => ⟨List.lt_asymm h,not_not.mpr h⟩,fun h => not_not.mp h.2⟩
  le_antisymm a b hab hba :=
    Hash256.ext (List.le_antisymm (List.not_lt.mp hab) (List.not_lt.mp hba))
  le_total a b := by
    by_cases h : b < a
    · exact .inr (List.lt_asymm h)
    · exact .inl h
  toDecidableLE h h' := inferInstanceAs (Decidable (¬ h' < h))
  toDecidableEq := inferInstance

theorem isZero_iff {h : Hash256} : h.isZero=true ↔ h=zero := by
  constructor
  · intro hz
    apply Hash256.ext
    simp only [isZero,all_eq_true,beq_iff_eq] at hz
    exact eq_replicate_iff.mpr ⟨h.length_asBytes,hz⟩
  · rintro rfl
    rfl

@[simp] theorem fromSlice_asBytes (h : Hash256) : fromSlice h.asBytes=some h := by
  simp [fromSlice]

theorem fromSlice_eq_some_iff {s : Bytes} {h : Hash256} : fromSlice s=some h ↔ s=h.asBytes := by
  constructor
  · intro hs
    simp only [fromSlice] at hs
    split_ifs at hs
    cases hs; rfl
  · rintro rfl
    exact fromSlice_asBytes h

end Hash256

/-- The nibble of a byte that an even or an odd depth reads. -/
def nibble (byte : UInt8) (odd : Bool) : Fin 16 :=
  if odd then ⟨byte.toNat % 16,Nat.mod_lt _ (by decide)⟩
  else ⟨byte.toNat/16,by have := byte.toNat_lt; omega⟩

/-- `select_branch`: the branch of `key` at `depth`. The byte index is clamped, since
a wire depth may exceed the 64 nibbles of a key. -/
def selectBranch (key : Hash256) (depth : ℕ) : Fin 16 :=
  nibble (key.asBytes.getD (min (depth/2) 31) 0) (depth % 2 == 1)

theorem byte_eq_of_nibbles {a b : UInt8} (hh : nibble a false=nibble b false)
    (hl : nibble a true=nibble b true) : a=b := by
  simp only [nibble,Bool.false_eq_true,if_false,if_true,Fin.mk.injEq] at hh hl
  apply UInt8.toNat_inj.mp
  omega

private theorem getD_eq_of_path {k k' : Hash256} {d i : ℕ} (hi : i < 32) (hd : 2*i+2 ≤ d)
    (hp : RadixTrie.path selectBranch k d=RadixTrie.path selectBranch k' d) :
    k.asBytes.getD i 0=k'.asBytes.getD i 0 := by
  have h₀ := RadixTrie.digit_eq_of_path_eq hp (i := 2*i) (by omega)
  have h₁ := RadixTrie.digit_eq_of_path_eq hp (i := 2*i+1) (by omega)
  have hm : min i 31=i := by omega
  simp only [selectBranch,show 2*i/2=i by omega,show (2*i+1)/2=i by omega,hm,
    show 2*i%2=0 by omega,show (2*i+1)%2=1 by omega] at h₀ h₁
  exact byte_eq_of_nibbles h₀ h₁

theorem selectBranch_separates : RadixTrie.Separates selectBranch 64 := by
  intro k k' hp
  apply Hash256.ext
  apply ext_getElem (by simp)
  intro i hi hi'
  have hi32 : i < 32 := by simpa using hi
  have h := getD_eq_of_path hi32 (by omega) hp
  rwa [getD_eq_getElem _ _ hi,getD_eq_getElem _ _ hi'] at h

/-- The order of the keys is the lexicographic order of their nibbles. -/
theorem selectBranch_lexicographic : RadixTrie.Lexicographic selectBranch := by
  intro k k' d hp hlt
  have hd : d < 64 := by
    by_contra hge
    have he := selectBranch_separates k k' (RadixTrie.path_eq_of_le hp (by omega))
    subst he
    exact lt_irrefl _ hlt
  have hi : d/2 < 32 := by omega
  have hbyte : k.asBytes.getD (d/2) 0 < k'.asBytes.getD (d/2) 0 := by
    rw [UInt8.lt_iff_toNat_lt]
    simp only [selectBranch,Nat.min_eq_left (show d/2 ≤ 31 by omega)] at hlt
    rcases Nat.mod_two_eq_zero_or_one d with he | he
    · simp only [he,nibble,show ((0:ℕ) == 1)=false from rfl,Bool.false_eq_true,if_false,
        Fin.mk_lt_mk] at hlt
      omega
    · -- at an odd depth the upper nibble has been compared one level higher
      have hu := RadixTrie.digit_eq_of_path_eq hp (i := d-1) (by omega)
      simp only [selectBranch,show (d-1)/2=d/2 by omega,Nat.min_eq_left (show d/2 ≤ 31 by omega),
        show (d-1)%2=0 by omega,nibble,show ((0:ℕ) == 1)=false from rfl,Bool.false_eq_true,
        if_false,Fin.mk.injEq] at hu
      simp only [he,nibble,beq_self_eq_true,if_true,Fin.mk_lt_mk] at hlt
      omega
  refine List.lt_iff_exists.mpr (Or.inr ⟨d/2,by simpa using hi,by simpa using hi,?_,?_⟩)
  · intro j hj
    have h := getD_eq_of_path (show j < 32 by omega) (show 2*j+2 ≤ d by omega) hp
    have hj₁ : j < k.asBytes.length := by simp; omega
    have hj₂ : j < k'.asBytes.length := by simp; omega
    rwa [getD_eq_getElem _ _ hj₁,getD_eq_getElem _ _ hj₂] at h
  · rwa [getD_eq_getElem,getD_eq_getElem] at hbyte

/-! ## Hashing -/

/-- `sha512_half` on the concatenation of its arguments: the first half of SHA-512,
which the source takes from a library. It is a parameter of everything below. -/
abbrev Sha512Half := Bytes → Hash256

def Sha512Half.ofTable (table : List (Bytes × Hash256)) : Sha512Half := fun s =>
    (table.lookup s).getD .zero

/-- The four-byte domain separators of `HashPrefix` that the tree hashes use. -/
inductive HashPrefix
  | transactionId | txNode | leafNode | innerNode
  deriving DecidableEq

/-- `HashPrefix::to_bytes`: `TXN\0`, `SND\0`, `MLN\0`, `MIN\0`. -/
def HashPrefix.toBytes : HashPrefix → Bytes
  | .transactionId => [0x54,0x58,0x4E,0x00]
  | .txNode => [0x53,0x4E,0x44,0x00]
  | .leafNode => [0x4D,0x4C,0x4E,0x00]
  | .innerNode => [0x4D,0x49,0x4E,0x00]

@[simp] theorem HashPrefix.length_toBytes (p : HashPrefix) : p.toBytes.length=4 := by
    cases p <;> rfl

theorem HashPrefix.toBytes_injective : Function.Injective HashPrefix.toBytes := by
  intro p q h
  cases p <;> cases q <;> first | rfl | simp [toBytes] at h

theorem HashPrefix.append_inj {p q : HashPrefix} {s t : Bytes} (h : p.toBytes++s=q.toBytes++t) :
    p=q ∧ s=t := by
  obtain ⟨hp,hs⟩ := List.append_inj h (by simp)
  exact ⟨toBytes_injective hp,hs⟩

end Rxrpl
