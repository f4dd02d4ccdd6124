import Rxrpl.HashMap
import Rxrpl.LedgerEntry

/-!
# Views of a ledger and the copy-on-write sandbox

A `ReadView` is what a transactor may read. A `Sandbox` over a view keeps the inserted, updated and
deleted entries in three maps, and the entries as they were below it in a fourth. What the maps
hold at one key is a `Row`; an operation changes the row of its key, and the rows always fit the
view below, which the type carries as a field.
-/

namespace Rxrpl.Tx

open Option

structure FeeSettings where
  baseFee : ℕ
  reserveBase : ℕ
  reserveIncrement : ℕ
  deriving DecidableEq

/-- `account_reserve`, in `u64`. -/
def FeeSettings.accountReserve (fees : FeeSettings) (ownerCount : ℕ) : ℕ :=
  (fees.reserveBase+ownerCount*fees.reserveIncrement) % 2^64

/-- The trait `ReadView`; `exists` is whether `read` finds an entry. -/
structure ReadView where
  read : Hash256 → Option Data
  succ : Hash256 → Option Hash256
  seq : ℕ
  fees : FeeSettings
  drops : ℕ
  parentCloseTime : ℕ
  closeTime : ℕ
  parentHash : Hash256

/-- A ledger without entries. -/
def emptyView : ReadView := ⟨fun _ => none,fun _ => none,1,⟨10,0,0⟩,0,0,0,.zero⟩

inductive ApplyError
  | alreadyExists | notFound
  deriving DecidableEq

/-! ## Changes -/

/-- The source's `SandboxChanges`. -/
structure SandboxChanges where
  inserts : HashMap Hash256 Data
  updates : HashMap Hash256 Data
  deletes : HashMap Hash256 Data
  originals : HashMap Hash256 Data
  destroyedDrops : ℕ

namespace SandboxChanges

def empty : SandboxChanges := ⟨∅,∅,∅,∅,0⟩

variable (below : ReadView)

variable (c : SandboxChanges)

def read (k : Hash256) : Option Data :=
  if (c.deletes.lookup k).isSome then none
  else match c.updates.lookup k with
    | some d => some d
    | none => match c.inserts.lookup k with
      | some d => some d
      | none => below.read k

def insert (k : Hash256) (d : Data) :
    Except ApplyError SandboxChanges :=
  if (c.read below k).isSome then .error .alreadyExists
  else if (c.deletes.lookup k).isSome then
    .ok { c with deletes := c.deletes.erase k, updates := c.updates.insert k d }
  else .ok { c with inserts := c.inserts.insert k d }

/-- The entry below is kept when it is changed for the first time. -/
def captureOriginal (k : Hash256) : SandboxChanges :=
  if (c.originals.lookup k).isSome then c
  else match below.read k with
    | some original => { c with originals := c.originals.insert k original }
    | none => c

def update (k : Hash256) (d : Data) :
    Except ApplyError SandboxChanges :=
  if (c.read below k).isNone then .error .notFound
  else if (c.inserts.lookup k).isSome then .ok { c with inserts := c.inserts.insert k d }
  else .ok { c.captureOriginal below k with updates := c.updates.insert k d }

def erase (k : Hash256) :
    Except ApplyError SandboxChanges :=
  match c.read below k with
  | none => .error .notFound
  | some d =>
    if (c.inserts.lookup k).isSome then .ok { c with inserts := c.inserts.erase k }
    else .ok { c.captureOriginal below k
      with updates := c.updates.erase k, deletes := c.deletes.insert k d }

variable (e : Σ _ : Hash256, Data)

/-- One turn of the first loop of `merge_child_changes`. -/
def mergeInsert : SandboxChanges :=
  if (c.deletes.lookup e.1).isSome then
    { c with deletes := c.deletes.erase e.1, updates := c.updates.insert e.1 e.2 }
  else { c with inserts := c.inserts.insert e.1 e.2 }

def mergeUpdate : SandboxChanges :=
  if (c.inserts.lookup e.1).isSome then { c with inserts := c.inserts.insert e.1 e.2 }
  else { c with updates := c.updates.insert e.1 e.2 }

def mergeDelete : SandboxChanges :=
  if (c.inserts.lookup e.1).isSome then { c with inserts := c.inserts.erase e.1 }
  else { c with updates := c.updates.erase e.1, deletes := c.deletes.insert e.1 e.2 }

/-- `originals.entry(key).or_insert(data)`. -/
def mergeOriginal : SandboxChanges :=
  if (c.originals.lookup e.1).isSome then c else { c with originals := c.originals.insert e.1 e.2 }

def addDestroyed (drops : ℕ) : SandboxChanges :=
  { c with destroyedDrops := (c.destroyedDrops+drops) % 2^64 }

/-- `merge_child_changes`. -/
def merge (c child : SandboxChanges) : SandboxChanges :=
  let c := child.inserts.entries.foldl mergeInsert c
  let c := child.updates.entries.foldl mergeUpdate c
  let c := child.deletes.entries.foldl mergeDelete c
  child.originals.entries.foldl mergeOriginal (c.addDestroyed child.destroyedDrops)

end SandboxChanges

/-! ## Rows -/

/-- What the four maps of a sandbox hold at one key. -/
@[ext] structure Row where
  inserted : Option Data
  updated : Option Data
  deleted : Option Data
  original : Option Data

/-- A row over an entry below: a key is inserted over nothing, and changed or deleted, not both,
over an entry, which is then kept. -/
structure Row.Valid (below : Option Data) (r : Row) : Prop where
  inserted : r.inserted.isSome → below=none ∧ r.updated=none ∧ r.deleted=none
  updated : r.updated.isSome → below.isSome ∧ r.original=below ∧ r.deleted=none
  deleted : r.deleted.isSome → below.isSome ∧ r.original=below
  original : r.original.isSome → below.isSome → r.original=below

def Row.read (below : Option Data) (r : Row) : Option Data :=
  if r.deleted.isSome then none
  else match r.updated with
    | some d => some d
    | none => match r.inserted with
      | some d => some d
      | none => below

namespace Row

variable (below : Option Data) (r : Row)

def insert (d : Data) : Row :=
  if r.deleted.isSome then { r with deleted := none, updated := some d }
    else { r with inserted := some d }

def update (d : Data) : Row :=
  if r.inserted.isSome then { r with inserted := some d }
  else { r with original := r.original.or below, updated := some d }

def erase : Row :=
  if r.inserted.isSome then { r with inserted := none }
  else { r with original := r.original.or below, updated := none, deleted := r.read below }

/-- A row with the row of a child sandbox folded in, loop by loop. -/
def mergeUpdate (d : Data) : Row :=
  if r.inserted.isSome then { r with inserted := some d } else { r with updated := some d }

def mergeDelete (d : Data) : Row :=
  if r.inserted.isSome then { r with inserted := none }
    else { r with updated := none, deleted := some d }

def merge (child : Row) : Row :=
  let r := (child.inserted.map r.insert).getD r
  let r := (child.updated.map r.mergeUpdate).getD r
  let r := (child.deleted.map r.mergeDelete).getD r
  { r with original := r.original.or child.original }

variable {below r}

theorem Valid.shapes (h : r.Valid below) :
    (∃ o, r=⟨none,none,none,o⟩ ∧ (o.isSome → below.isSome → o=below)) ∨
    (∃ d o, r=⟨some d,none,none,o⟩ ∧ below=none) ∨
      (∃ d b, r=⟨none,some d,none,some b⟩ ∧ below=some b) ∨
    (∃ d b, r=⟨none,none,some d,some b⟩ ∧ below=some b) := by
  obtain ⟨hi,hu,hd,ho⟩ := h
  obtain ⟨i,u,e,o⟩ := r
  cases i with
  | some d =>
    obtain ⟨hb,hu',hd'⟩ := hi rfl
    cases hu'
    cases hd'
    exact .inr (.inl ⟨d,o,rfl,hb⟩)
  | none =>
    cases u with
    | some d =>
      obtain ⟨hb,ho',hd'⟩ := hu rfl
      obtain ⟨b,rfl⟩ := isSome_iff_exists.mp hb
      cases hd'
      cases ho'
      exact .inr (.inr (.inl ⟨d,b,rfl,rfl⟩))
    | none =>
      cases e with
      | some d =>
        obtain ⟨hb,ho'⟩ := hd rfl
        obtain ⟨b,rfl⟩ := isSome_iff_exists.mp hb
        cases ho'
        exact .inr (.inr (.inr ⟨d,b,rfl,rfl⟩))
      | none => exact .inl ⟨o,rfl,ho⟩

theorem Valid.insert (h : r.Valid below) (hr : r.read below=none) (d : Data) :
    (r.insert d).Valid below ∧ (r.insert d).read below=some d := by
  obtain ⟨o,rfl,ho⟩ | ⟨d',o,rfl,rfl⟩ | ⟨d',b,rfl,rfl⟩ | ⟨d',b,rfl,rfl⟩ := h.shapes
  · have hb : below=none := by simpa [Row.read] using hr
    subst hb
    exact ⟨⟨by simp [Row.insert],by simp [Row.insert],by simp [Row.insert],by simp⟩,
      by simp [Row.insert,Row.read]⟩
  · simp [Row.read] at hr
  · simp [Row.read] at hr
  · exact ⟨⟨by simp [Row.insert],by simp [Row.insert],by simp [Row.insert],by simp [Row.insert]⟩,
      by simp [Row.insert,Row.read]⟩

private theorem or_eq_of_isSome {o below : Option Data} (h : o.isSome → below.isSome → o=below)
    (hb : below.isSome) : o.or below=below := by
  cases o with
  | none => rfl
  | some d => exact h rfl hb

theorem Valid.update (h : r.Valid below) (hr : (r.read below).isSome) (d : Data) :
    (r.update below d).Valid below ∧ (r.update below d).read below=some d := by
  obtain ⟨o,rfl,ho⟩ | ⟨d',o,rfl,rfl⟩ | ⟨d',b,rfl,rfl⟩ | ⟨d',b,rfl,rfl⟩ := h.shapes
  · have hb : below.isSome := by simpa [Row.read] using hr
    have hor := or_eq_of_isSome ho hb
    exact ⟨⟨by simp [Row.update],by simp [Row.update,hb,hor],by simp [Row.update],by
      simp [Row.update,hor]⟩,
      by simp [Row.update,Row.read]⟩
  · exact ⟨⟨by simp [Row.update],by simp [Row.update],by simp [Row.update],by simp⟩,
      by simp [Row.update,Row.read]⟩
  · exact ⟨⟨by simp [Row.update],by simp [Row.update],by simp [Row.update],by simp [Row.update]⟩,
      by simp [Row.update,Row.read]⟩
  · simp [Row.read] at hr

theorem Valid.erase (h : r.Valid below) (hr : (r.read below).isSome) :
    (r.erase below).Valid below ∧ (r.erase below).read below=none := by
  obtain ⟨o,rfl,ho⟩ | ⟨d',o,rfl,rfl⟩ | ⟨d',b,rfl,rfl⟩ | ⟨d',b,rfl,rfl⟩ := h.shapes
  · have hb : below.isSome := by simpa [Row.read] using hr
    have hor := or_eq_of_isSome ho hb
    exact ⟨⟨by simp [Row.erase],by simp [Row.erase],by simp [Row.erase,hb,hor],by
      simp [Row.erase,hor]⟩,
      by simp [Row.erase,Row.read,hb]⟩
  · exact ⟨⟨by simp [Row.erase],by simp [Row.erase],by simp [Row.erase],by simp⟩,
      by simp [Row.erase,Row.read]⟩
  · exact ⟨⟨by simp [Row.erase],by simp [Row.erase],by simp [Row.erase],by simp [Row.erase]⟩,
      by simp [Row.erase,Row.read]⟩
  · simp [Row.read] at hr

private theorem Valid.or_original {o : Option Data} (h : r.Valid below)
    (ho : r.original=none → o.isSome → below.isSome → o=below) :
    ({ r with original := r.original.or o } : Row).Valid below := by
  obtain ⟨hi,hu,hd,hor⟩ := h
  cases horiginal : r.original with
  | some b =>
    rw [horiginal] at hu hd hor
    exact ⟨hi,hu,hd,hor⟩
  | none =>
    rw [horiginal] at hu hd
    refine ⟨hi,fun hsome => ?_,fun hsome => ?_,ho horiginal⟩
    · have hb := hu hsome
      simp [← hb.2.1] at hb
    · have hb := hd hsome
      simp [← hb.2] at hb

theorem Valid.merge {child : Row} (h : r.Valid below) (hc : child.Valid (r.read below)) :
    (r.merge child).Valid below ∧ (r.merge child).read below=child.read (r.read below) := by
  obtain ⟨o',rfl,ho'⟩ | ⟨d',o',rfl,hb⟩ | ⟨d',b',rfl,hb⟩ | ⟨d',b',rfl,hb⟩ := hc.shapes
  · -- the child has left the key alone
    obtain ⟨o,rfl,ho⟩ | ⟨d,o,rfl,rfl⟩ | ⟨d,b,rfl,rfl⟩ | ⟨d,b,rfl,rfl⟩ := h.shapes
    · exact ⟨h.or_original fun _ => ho',rfl⟩
    · exact ⟨h.or_original fun _ _ hsome => (nomatch hsome),rfl⟩
    · exact ⟨h.or_original nofun,rfl⟩
    · exact ⟨h.or_original nofun,rfl⟩
  · obtain ⟨hvalid,hread⟩ := h.insert hb d'
    refine ⟨hvalid.or_original fun hnone _ hsome => ?_,hread⟩
    obtain ⟨o,rfl,ho⟩ | ⟨d,o,rfl,rfl⟩ | ⟨d,b,rfl,rfl⟩ | ⟨d,b,rfl,rfl⟩ := h.shapes
    · simp_all [Row.read]
    · cases hsome
    · simp [Row.read] at hb
    · simp [Row.insert] at hnone
  · obtain ⟨o,rfl,ho⟩ | ⟨d,o,rfl,rfl⟩ | ⟨d,b,rfl,rfl⟩ | ⟨d,b,rfl,rfl⟩ := h.shapes
    · obtain rfl : below=some b' := hb
      exact h.update rfl d'
    · obtain ⟨hvalid,hread⟩ := h.update rfl d'
      exact ⟨hvalid.or_original fun _ _ hsome => (nomatch hsome),hread⟩
    · exact h.update rfl d'
    · cases hb
  · obtain ⟨o,rfl,ho⟩ | ⟨d,o,rfl,rfl⟩ | ⟨d,b,rfl,rfl⟩ | ⟨d,b,rfl,rfl⟩ := h.shapes
    · obtain rfl : below=some b' := hb
      have hor := or_eq_of_isSome ho rfl
      exact ⟨⟨nofun,nofun,fun _ => ⟨rfl,hor⟩,fun _ _ => hor⟩,rfl⟩
    · obtain ⟨hvalid,hread⟩ := h.erase rfl
      exact ⟨hvalid.or_original fun _ _ hsome => (nomatch hsome),hread⟩
    · exact ⟨⟨nofun,nofun,fun _ => ⟨rfl,rfl⟩,fun _ _ => rfl⟩,rfl⟩
    · cases hb

end Row

namespace SandboxChanges

def row (c : SandboxChanges) (k : Hash256) : Row :=
  ⟨c.inserts.lookup k,c.updates.lookup k,c.deletes.lookup k,c.originals.lookup k⟩

def Valid (below : ReadView) (c : SandboxChanges) : Prop := ∀ k, (c.row k).Valid (below.read k)

theorem read_eq (below : ReadView) (c : SandboxChanges) (k : Hash256) :
    c.read below k=(c.row k).read (below.read k) := rfl

@[simp] theorem row_empty (k : Hash256) : empty.row k=⟨none,none,none,none⟩ := rfl

section

variable (below : ReadView) (c : SandboxChanges) (k : Hash256)

theorem captureOriginal_eq : c.captureOriginal below k =
    { c with originals := (c.captureOriginal below k).originals } := by
  unfold captureOriginal
  split
  · rfl
  · split <;> rfl

@[simp] theorem inserts_captureOriginal : (c.captureOriginal below k).inserts=c.inserts := by
  rw [captureOriginal_eq]

@[simp] theorem deletes_captureOriginal : (c.captureOriginal below k).deletes=c.deletes := by
  rw [captureOriginal_eq]

@[simp] theorem destroyedDrops_captureOriginal :
    (c.captureOriginal below k).destroyedDrops=c.destroyedDrops := by
  rw [captureOriginal_eq]

@[simp] theorem lookup_originals_captureOriginal (k' : Hash256) :
    (c.captureOriginal below k).originals.lookup k' =
      if k'=k then (c.originals.lookup k).or (below.read k) else c.originals.lookup k' := by
  unfold captureOriginal
  split
  · rename_i h
    obtain ⟨d,hd⟩ := isSome_iff_exists.mp h
    split
    · rename_i hk
      rw [hk,hd]
      rfl
    · rfl
  · rename_i h
    rw [not_isSome_iff_eq_none] at h
    rw [h]
    split <;> rename_i hb
    · simp [HashMap.lookup_insert_eq,hb]
    split
    · rename_i hk
      rw [hk,h,hb]
      rfl
    · rfl

end

variable {below : ReadView} {c c' : SandboxChanges} {d : Data} {k : Hash256}

theorem insert_spec (h : c.insert below k d=.ok c') :
    c.read below k=none ∧ (∀ k'≠k, c'.row k'=c.row k') ∧ c'.destroyedDrops=c.destroyedDrops ∧
      c'.row k=(c.row k).insert d := by
  unfold insert at h
  split at h
  · cases h
  rename_i hread
  rw [not_isSome_iff_eq_none] at hread
  split at h <;> rename_i hdel <;> cases h
  · exact ⟨hread,fun k' hk => by simp [row,hk],rfl,by simp [row,Row.insert,hdel]⟩
  · exact ⟨hread,fun k' hk => by simp [row,hk],rfl,by simp [row,Row.insert,hdel]⟩

theorem insert_ok (h : c.read below k=none) (d : Data) : ∃ c', c.insert below k d=.ok c' := by
  unfold insert
  rw [h]
  simp only [isSome_none,Bool.false_eq_true,if_false]
  split <;> exact ⟨_,rfl⟩

theorem update_spec (h : c.update below k d=.ok c') :
    (c.read below k).isSome ∧ (∀ k'≠k, c'.row k'=c.row k') ∧ c'.destroyedDrops=c.destroyedDrops ∧
      c'.row k=(c.row k).update (below.read k) d := by
  unfold update at h
  split at h
  · cases h
  rename_i hread
  rw [isNone_iff_eq_none,← ne_eq,ne_none_iff_isSome] at hread
  split at h <;> rename_i hins <;> cases h
  · exact ⟨hread,fun k' hk => by simp [row,hk],rfl,by simp [row,Row.update,hins]⟩
  · exact ⟨hread,fun k' hk => by simp [row,hk],by simp,by simp [row,Row.update,hins]⟩

theorem update_ok (h : (c.read below k).isSome) (d : Data) : ∃ c', c.update below k d=.ok c' := by
  unfold update
  rw [if_neg (by simpa [isNone_iff_eq_none,← isSome_iff_ne_none] using h)]
  split <;> exact ⟨_,rfl⟩

theorem erase_spec (h : c.erase below k=.ok c') :
    (c.read below k).isSome ∧ (∀ k'≠k, c'.row k'=c.row k') ∧ c'.destroyedDrops=c.destroyedDrops ∧
      c'.row k=(c.row k).erase (below.read k) := by
  unfold erase at h
  split at h
  · cases h
  rename_i d hread
  split at h <;> rename_i hins <;> cases h
  · exact ⟨by rw [hread]; rfl,fun k' hk => by simp [row,hk],rfl,by simp [row,Row.erase,hins]⟩
  · refine ⟨by rw [hread]; rfl,fun k' hk => by simp [row,hk],by simp,?_⟩
    rw [Row.erase,if_neg (show ¬ (c.row k).inserted.isSome from hins),← read_eq,hread]
    simp [row]

theorem erase_ok (h : (c.read below k).isSome) : ∃ c', c.erase below k=.ok c' := by
  obtain ⟨d,hd⟩ := isSome_iff_exists.mp h
  unfold erase
  rw [hd]
  dsimp only
  split <;> exact ⟨_,rfl⟩

theorem valid_empty : empty.Valid below := fun _ => ⟨by simp,by simp,by simp,by simp⟩

private theorem Valid.of_row {x : Option Data} (hv : c.Valid below)
    (hother : ∀ k'≠k, c'.row k'=c.row k')
    (hk : (c'.row k).Valid (below.read k) ∧ (c'.row k).read (below.read k)=x) :
    c'.Valid below ∧ c'.read below=Function.update (c.read below) k x := by
  constructor
  · intro k'
    by_cases hk' : k'=k
    · exact hk' ▸ hk.1
    · exact hother k' hk' ▸ hv k'
  · funext k'
    by_cases hk' : k'=k
    · rw [hk',Function.update_self,read_eq,hk.2]
    · rw [Function.update_of_ne hk',read_eq,read_eq,hother k' hk']

theorem Valid.insert (hv : c.Valid below) (h : c.insert below k d=.ok c') :
    c'.Valid below ∧ c'.read below=Function.update (c.read below) k (some d) := by
  obtain ⟨hread,hother,-,hrow⟩ := insert_spec h
  exact hv.of_row hother (hrow ▸ (hv k).insert hread d)

theorem Valid.update (hv : c.Valid below) (h : c.update below k d=.ok c') :
    c'.Valid below ∧ c'.read below=Function.update (c.read below) k (some d) := by
  obtain ⟨hread,hother,-,hrow⟩ := update_spec h
  exact hv.of_row hother (hrow ▸ (hv k).update hread d)

theorem Valid.erase (hv : c.Valid below) (h : c.erase below k=.ok c') :
    c'.Valid below ∧ c'.read below=Function.update (c.read below) k none := by
  obtain ⟨hread,hother,-,hrow⟩ := erase_spec h
  exact hv.of_row hother (hrow ▸ (hv k).erase hread)

variable (m : HashMap Hash256 Data)

private theorem row_mergeInserts (c : SandboxChanges) (k : Hash256) :
    (m.entries.foldl mergeInsert c).row k=((m.lookup k).map (c.row k).insert).getD (c.row k) := by
  refine HashMap.row_foldl row mergeInsert (fun r d => r.insert d) ?_ ?_ m c k
  · intro c e k hk
    unfold mergeInsert
    split <;> simp [row,hk]
  · intro c e
    unfold mergeInsert
    split <;> rename_i h <;> simp [row,Row.insert,h]

private theorem row_mergeUpdates (c : SandboxChanges) (k : Hash256) :
    (m.entries.foldl mergeUpdate c).row k =
      ((m.lookup k).map (c.row k).mergeUpdate).getD (c.row k) := by
  refine HashMap.row_foldl row mergeUpdate (fun r d => r.mergeUpdate d) ?_ ?_ m c k
  · intro c e k hk
    unfold mergeUpdate
    split <;> simp [row,hk]
  · intro c e
    unfold mergeUpdate
    split <;> rename_i h <;> simp [row,Row.mergeUpdate,h]

private theorem row_mergeDeletes (c : SandboxChanges) (k : Hash256) :
    (m.entries.foldl mergeDelete c).row k =
      ((m.lookup k).map (c.row k).mergeDelete).getD (c.row k) := by
  refine HashMap.row_foldl row mergeDelete (fun r d => r.mergeDelete d) ?_ ?_ m c k
  · intro c e k hk
    unfold mergeDelete
    split <;> simp [row,hk]
  · intro c e
    unfold mergeDelete
    split <;> rename_i h <;> simp [row,Row.mergeDelete,h]

private theorem row_mergeOriginals (c : SandboxChanges) (k : Hash256) :
    (m.entries.foldl mergeOriginal c).row
      k={ c.row k with original := (c.row k).original.or (m.lookup k) } := by
  rw [HashMap.row_foldl row mergeOriginal (fun r d => { r with original := r.original.or (some d) })
    _ _ m c k]
  · cases m.lookup k <;> simp
  · intro c e k hk
    unfold mergeOriginal
    split <;> simp [row,hk]
  · intro c e
    unfold mergeOriginal
    split <;> rename_i h
    · obtain ⟨d,hd⟩ := isSome_iff_exists.mp h
      simp [row,hd]
    · rw [not_isSome_iff_eq_none] at h
      simp [row,h]

theorem row_merge (c child : SandboxChanges) (k : Hash256) :
    (c.merge child).row k=(c.row k).merge (child.row k) := by
  simp only [merge,row_mergeOriginals]
  have hadd : ∀ (c : SandboxChanges) n, (c.addDestroyed n).row k=c.row k := fun _ _ => rfl
  rw [hadd,row_mergeDeletes,row_mergeUpdates,row_mergeInserts]
  rfl

@[simp] theorem destroyedDrops_merge (c child : SandboxChanges) :
    (c.merge child).destroyedDrops=(c.destroyedDrops+child.destroyedDrops) % 2^64 := by
  have hfold : ∀ (step : SandboxChanges → (Σ _ : Hash256,Data) → SandboxChanges),
      (∀ c e, (step c e).destroyedDrops=c.destroyedDrops) →
        ∀ l c, (List.foldl step c l).destroyedDrops=c.destroyedDrops := by
    intro step hstep l
    induction l with
    | nil => exact fun _ => rfl
    | cons e l ih => exact fun c => (ih _).trans (hstep c e)
  rw [merge,hfold mergeOriginal fun c e => by unfold mergeOriginal; split <;> rfl,addDestroyed,
    hfold mergeDelete fun c e => by unfold mergeDelete; split <;> rfl,
    hfold mergeUpdate fun c e => by unfold mergeUpdate; split <;> rfl,
    hfold mergeInsert fun c e => by unfold mergeInsert; split <;> rfl]

end SandboxChanges

/-! ## The sandbox -/

/-- The walk of `succ` over the successors below, past the deleted keys. A key is skipped at most
once, so the number of deleted keys is fuel enough. -/
def skipDeleted (below : ReadView) (deletes : HashMap Hash256 Data) : ℕ → Option Hash256 →
    Option Hash256
  | _, none => none
  | 0, some k => some k
  | fuel+1, some k => if (deletes.lookup k).isSome then skipDeleted below deletes fuel
    (below.succ k) else some k

def SandboxChanges.succ (below : ReadView) (c : SandboxChanges) (k : Hash256) : Option Hash256 :=
  c.inserts.entries.foldl
    (fun candidate e => if k < e.1 ∧ candidate.all (fun x => decide (e.1 < x)) then some e.1
      else candidate)
    (skipDeleted below c.deletes c.deletes.entries.length (below.succ k))

/-- The source's `Sandbox` over a view, with the rows that fit it. -/
structure Sandbox (below : ReadView) where
  changes : SandboxChanges
  valid : changes.Valid below
  sortedDirectories : Bool
  threadDirectories : Bool
  deliveredAmount : Option Json

namespace Sandbox

variable {below : ReadView}

def new (below : ReadView) : Sandbox below :=
    ⟨.empty,SandboxChanges.valid_empty,false,true,none⟩

variable (s : Sandbox below)

def read (k : Hash256) : Option Data := s.changes.read below k

def toReadView : ReadView :=
  { below with
    read := s.read
    succ := s.changes.succ below
    drops := below.drops-s.changes.destroyedDrops }

def child : Sandbox s.toReadView :=
  { new s.toReadView with sortedDirectories := s.sortedDirectories, threadDirectories :=
    s.threadDirectories }

def insert (k : Hash256) (d : Data) : Except ApplyError (Sandbox below) :=
  match h : s.changes.insert below k d with
  | .ok c => .ok { s with changes := c, valid := (s.valid.insert h).1 }
  | .error e => .error e

def update (k : Hash256) (d : Data) : Except ApplyError (Sandbox below) :=
  match h : s.changes.update below k d with
  | .ok c => .ok { s with changes := c, valid := (s.valid.update h).1 }
  | .error e => .error e

def erase (k : Hash256) : Except ApplyError (Sandbox below) :=
  match h : s.changes.erase below k with
  | .ok c => .ok { s with changes := c, valid := (s.valid.erase h).1 }
  | .error e => .error e

def destroyDrops (drops : ℕ) : Sandbox below :=
  { s with changes := s.changes.addDestroyed drops, valid := s.valid }

/-- `merge_child_changes` with the changes of a child. -/
def mergeChild (c : Sandbox s.toReadView) : Sandbox below :=
  { s with
    changes := s.changes.merge c.changes
    valid := fun k => by
      rw [SandboxChanges.row_merge]
      exact ((s.valid k).merge (c.valid k)).1 }

@[simp] theorem read_child : s.child.read=s.read := rfl

@[simp] theorem destroyedDrops_destroyDrops (drops : ℕ) :
    (s.destroyDrops drops).changes.destroyedDrops=(s.changes.destroyedDrops+drops) % 2^64 := rfl

@[simp] theorem read_mergeChild (c : Sandbox s.toReadView) :
    (s.mergeChild c).read=c.read := by
  funext k
  rw [read,SandboxChanges.read_eq]
  simp only [mergeChild,SandboxChanges.row_merge]
  exact ((s.valid k).merge (c.valid k)).2

/-- `s'` reads as `content` and is otherwise as `s`. -/
structure Became (s s' : Sandbox below) (content : Hash256 → Option Data) : Prop where
  read : s'.read=content
  destroyedDrops : s'.changes.destroyedDrops=s.changes.destroyedDrops
  sortedDirectories : s'.sortedDirectories=s.sortedDirectories
  threadDirectories : s'.threadDirectories=s.threadDirectories

theorem Became.rfl {s : Sandbox below} : s.Became s s.read :=
    ⟨Eq.refl _,Eq.refl _,Eq.refl _,Eq.refl _⟩

theorem Became.trans {s s' s'' : Sandbox below} {content content' : Hash256 → Option Data}
    (h : s.Became s' content) (h' : s'.Became s'' content') : s.Became s'' content' :=
  ⟨h'.read,h'.destroyedDrops.trans h.destroyedDrops,h'.sortedDirectories.trans h.sortedDirectories,
    h'.threadDirectories.trans h.threadDirectories⟩

variable {s s' : Sandbox below} {k : Hash256} {d : Data}

/-- A call on a sandbox does what it does to the changes, and keeps the settings. -/
inductive Lifts (s : Sandbox below) (x : Except ApplyError SandboxChanges)
    (y : Except ApplyError (Sandbox below)) : Prop
  | ok {s' : Sandbox below} (hx : x=.ok s'.changes) (hy : y=.ok s')
      (hs : s'.sortedDirectories=s.sortedDirectories)
      (ht : s'.threadDirectories=s.threadDirectories) :
      Lifts s x y
  | error (e : ApplyError) (hx : x=.error e) (hy : y=.error e) : Lifts s x y

theorem lifts_insert (k : Hash256) (d : Data) :
    s.Lifts (s.changes.insert below k d) (s.insert k d) := by
  unfold insert
  split <;> rename_i h
  · exact .ok h rfl rfl rfl
  · exact .error _ h rfl

theorem lifts_update (k : Hash256) (d : Data) :
    s.Lifts (s.changes.update below k d) (s.update k d) := by
  unfold update
  split <;> rename_i h
  · exact .ok h rfl rfl rfl
  · exact .error _ h rfl

theorem lifts_erase (k : Hash256) :
    s.Lifts (s.changes.erase below k) (s.erase k) := by
  unfold erase
  split <;> rename_i h
  · exact .ok h rfl rfl rfl
  · exact .error _ h rfl

section

variable {x : Except ApplyError SandboxChanges} {y : Except ApplyError (Sandbox below)}

theorem Lifts.of_ok (h : s.Lifts x y) (hy : y=.ok s') :
    x=.ok s'.changes ∧ s'.sortedDirectories=s.sortedDirectories ∧
      s'.threadDirectories=s.threadDirectories := by
  cases h with
  | ok hx hy' hs ht =>
    cases hy.symm.trans hy'
    exact ⟨hx,hs,ht⟩
  | error e hx hy' => cases hy.symm.trans hy'

theorem Lifts.exists_ok (h : s.Lifts x y) (hx : ∃ c, x=.ok c) : ∃ s', y=.ok s' := by
  obtain ⟨c,hx⟩ := hx
  cases h with
  | ok _ hy => exact ⟨_,hy⟩
  | error e hx' => cases hx.symm.trans hx'

end

theorem insert_spec (h : s.insert k d=.ok s') :
    s.read k=none ∧ s.Became s' (Function.update s.read k (some d)) := by
  obtain ⟨hc,hs,ht⟩ := (lifts_insert ..).of_ok h
  have hspec := SandboxChanges.insert_spec hc
  exact ⟨hspec.1,(s.valid.insert hc).2,hspec.2.2.1,hs,ht⟩

theorem insert_ok (h : s.read k=none) (d : Data) : ∃ s', s.insert k d=.ok s' :=
  (lifts_insert ..).exists_ok (SandboxChanges.insert_ok h d)

theorem update_spec (h : s.update k d=.ok s') :
    (s.read k).isSome ∧ s.Became s' (Function.update s.read k (some d)) := by
  obtain ⟨hc,hs,ht⟩ := (lifts_update ..).of_ok h
  have hspec := SandboxChanges.update_spec hc
  exact ⟨hspec.1,(s.valid.update hc).2,hspec.2.2.1,hs,ht⟩

theorem update_ok (h : (s.read k).isSome) (d : Data) : ∃ s', s.update k d=.ok s' :=
  (lifts_update ..).exists_ok (SandboxChanges.update_ok h d)

theorem erase_spec (h : s.erase k=.ok s') : (s.read k).isSome ∧
    s.Became s' (Function.update s.read k none) := by
  obtain ⟨hc,hs,ht⟩ := (lifts_erase ..).of_ok h
  have hspec := SandboxChanges.erase_spec hc
  exact ⟨hspec.1,(s.valid.erase hc).2,hspec.2.2.1,hs,ht⟩

theorem erase_ok (h : (s.read k).isSome) : ∃ s', s.erase k=.ok s' :=
  (lifts_erase ..).exists_ok (SandboxChanges.erase_ok h)

end Sandbox

/-! ## Programs over a sandbox -/

/-- A function of the source with a `&mut dyn ApplyView` and a result. What a failing function has
written is lost here; every caller of the source discards the view then. -/
abbrev ViewM (below : ReadView) := StateT (Sandbox below) (Except TransactionResult)

namespace ViewM

variable {below : ReadView} {α β : Type}

def fail (r : TransactionResult) : ViewM below α := fun _ => .error r

/-- `?` on a result that does not touch the view. -/
def lift (x : Except TransactionResult α) : ViewM below α := fun s =>
  match x with
  | .ok a => .ok (a,s)
  | .error r => .error r

def read (k : Hash256) : ViewM below (Option Data) := fun s => .ok (s.read k,s)

def sortedDirectories : ViewM below Bool := fun s => .ok (s.sortedDirectories,s)

def threadDirectories : ViewM below Bool := fun s => .ok (s.threadDirectories,s)

/-- `view.read(k).ok_or(r)?`, parsed. -/
def readEntry (k : Hash256) (r : TransactionResult) : ViewM below Json := fun s =>
  match s.read k with
  | none => .error r
  | some d => (d.parse).map fun v => (v,s)

private def mapErr : Except ApplyError (Sandbox below) →
    Except TransactionResult (Unit × Sandbox below)
  | .ok s => .ok ((),s)
  | .error _ => .error .tefInternal

def insert (k : Hash256) (v : Json) : ViewM below Unit := fun s => mapErr (s.insert k (.json v))

def update (k : Hash256) (v : Json) : ViewM below Unit := fun s => mapErr (s.update k (.json v))

def erase (k : Hash256) : ViewM below Unit := fun s => mapErr (s.erase k)

/-- An entry that is there is written back as it is, so that the transaction is recorded on it. -/
def touch (k : Hash256) : ViewM below Unit := fun s =>
  match s.read k with
  | none => .ok ((),s)
  | some d => mapErr (s.update k d)

variable {s s' : Sandbox below}

variable {a : α} {b : β} {content content' : Hash256 → Option Data} {d : Data}
  {f : α → ViewM below β} {k : Hash256} {r : TransactionResult} {u : Unit} {v : Json}
  {x : ViewM below α}

theorem bind_eq_ok : (x >>= f) s=.ok (b,s') ↔ ∃ a s₁, x s=.ok (a,s₁) ∧ f a s₁=.ok (b,s') := by
  change (x s >>= fun p => f p.1 p.2)=_ ↔ _
  cases hx : x s with
  | error r => simp [bind,Except.bind]
  | ok p =>
    obtain ⟨a,s₁⟩ := p
    simp [bind,Except.bind]

theorem bind_of_ok (hx : x s=.ok (a,s')) : (x >>= f) s=f a s' := by
  change (x s >>= fun p => f p.1 p.2)=_
  rw [hx]
  rfl

theorem pure_eq_ok {b : α} : (pure a : ViewM below α) s=.ok (b,s') ↔ a=b ∧ s=s' := by
  change (Except.ok (a,s)=.ok (b,s')) ↔ _
  simp

@[simp] theorem fail_eq_ok : fail r s=.ok (a,s') ↔ False := by
  simp [fail]

theorem lift_eq_ok {x : Except TransactionResult α} : lift x s=.ok (a,s') ↔ x=.ok a ∧ s=s' := by
  unfold lift
  split
  · rename_i b
    simp
  · simp

theorem read_eq_ok {d : Option Data} : read k s=.ok (d,s') ↔ s.read k=d ∧ s=s' := by
  simp [read]

theorem readEntry_eq_ok : readEntry k r s=.ok (v,s') ↔ s.read k=some (.json v) ∧ s=s' := by
  unfold readEntry
  split
  · rename_i h
    simp [h]
  rename_i d h
  rw [h]
  cases d with
  | json w => simp [Except.map]
  | raw bs => simp [Data.parse,Data.fromSlice,Except.map]

theorem lift_bind_eq_ok {x : Except TransactionResult α} :
    (lift x >>= f) s=.ok (b,s') ↔ ∃ a, x=.ok a ∧ f a s=.ok (b,s') := by
  rw [bind_eq_ok]
  simp only [lift_eq_ok]
  grind

theorem readEntry_bind_eq_ok {f : Json → ViewM below β} :
    (readEntry k r >>= f) s=.ok (b,s') ↔ ∃ v, s.read k=some (.json v) ∧ f v s=.ok (b,s') := by
  rw [bind_eq_ok]
  simp only [readEntry_eq_ok]
  grind

theorem ite_fail_eq_ok {c : Prop} [Decidable c] {x : ViewM below β} :
    (if c then fail r else x) s=.ok (b,s') ↔ ¬ c ∧ x s=.ok (b,s') := by
  by_cases hc : c <;> simp [hc]

private theorem mapErr_eq_ok {x : Except ApplyError (Sandbox below)} (h : mapErr x=.ok (u,s')) :
    x=.ok s' := by
  cases x with
  | ok s => cases h; rfl
  | error e => cases h

theorem insert_eq_ok (h : insert k v s=.ok (u,s')) :
    s.read k=none ∧ s.Became s' (Function.update s.read k (some (.json v))) :=
      Sandbox.insert_spec (mapErr_eq_ok h)

theorem update_eq_ok (h : update k v s=.ok (u,s')) :
    (s.read k).isSome ∧ s.Became s' (Function.update s.read k (some (.json v))) :=
  Sandbox.update_spec (mapErr_eq_ok h)

theorem erase_eq_ok (h : erase k s=.ok (u,s')) : (s.read k).isSome ∧
    s.Became s' (Function.update s.read k none) :=
  Sandbox.erase_spec (mapErr_eq_ok h)

theorem touch_eq_ok (h : touch k s=.ok (u,s')) : s.Became s' s.read := by
  unfold touch at h
  split at h
  · cases h
    exact .rfl
  · rename_i d hd
    have hb := (Sandbox.update_spec (mapErr_eq_ok h)).2
    rwa [← hd,Function.update_eq_self] at hb

/-! ### Runs that succeed -/

/-- A program returns `a` and leaves `content`. -/
def Does (x : ViewM below α) (s : Sandbox below) (a : α) (content : Hash256 → Option Data) : Prop :=
  ∃ s', x s=.ok (a,s') ∧ s.Became s' content

theorem Does.bind_run {s₁ : Sandbox below} (hx : x s=.ok (a,s₁)) (hs₁ : s.Became s₁ content)
    (hf : (f a).Does s₁ b content') : (x >>= f).Does s b content' := by
  obtain ⟨s₂,hf,hs₂⟩ := hf
  exact ⟨s₂,bind_eq_ok.mpr ⟨a,s₁,hx,hf⟩,hs₁.trans hs₂⟩

theorem Does.bind (hx : x.Does s a content)
    (hf : ∀ s₁ : Sandbox below, s₁.read=content → (f a).Does s₁ b content') :
    (x >>= f).Does s b content' := by
  obtain ⟨s₁,hx,hs₁⟩ := hx
  exact .bind_run hx hs₁ (hf s₁ hs₁.read)

theorem Does.bind_same (hx : x s=.ok (a,s)) (hf : (f a).Does s b content) :
    (x >>= f).Does s b content :=
  .bind_run hx .rfl hf

theorem readEntry_ok (h : s.read k=some (.json v)) (r : TransactionResult) :
    readEntry k r s=.ok (v,s) :=
  readEntry_eq_ok.mpr ⟨h,rfl⟩

section

variable {content : Hash256 → Option Data} {k : Hash256}

theorem does_pure (hs : s.read=content) (a : α) : (pure a : ViewM below α).Does s a content :=
    ⟨s,rfl,hs ▸ .rfl⟩

theorem does_insert (hs : s.read=content) (h : content k=none) (v : Json) :
    (insert k v).Does s () (Function.update content k (some (.json v))) := by
  subst hs
  obtain ⟨s',hs'⟩ := Sandbox.insert_ok h (.json v)
  exact ⟨s',by rw [insert,hs']; rfl,(Sandbox.insert_spec hs').2⟩

theorem does_update (hs : s.read=content) (h : (content k).isSome) (v : Json) :
    (update k v).Does s () (Function.update content k (some (.json v))) := by
  subst hs
  obtain ⟨s',hs'⟩ := Sandbox.update_ok h (.json v)
  exact ⟨s',by rw [update,hs']; rfl,(Sandbox.update_spec hs').2⟩

theorem does_erase (hs : s.read=content) (h : (content k).isSome) :
    (erase k).Does s () (Function.update content k none) := by
  subst hs
  obtain ⟨s',hs'⟩ := Sandbox.erase_ok h
  exact ⟨s',by rw [erase,hs']; rfl,(Sandbox.erase_spec hs').2⟩

end

/-! ### Frames -/

/-- A program changes rows of `K` only, and no settings. -/
def Frame (K : Set Hash256) (x : ViewM below α) : Prop :=
  ∀ ⦃s a s'⦄, x s=.ok (a,s') →
    (∀ k∉K, s'.changes.row k=s.changes.row k) ∧ s'.changes.destroyedDrops=s.changes.destroyedDrops ∧
      s'.sortedDirectories=s.sortedDirectories ∧ s'.threadDirectories=s.threadDirectories

variable {K K' : Set Hash256}

theorem frame_same (h : ∀ s a s', x s=.ok (a,s') → s'=s) : Frame K x := by
  intro s a s' hx
  rw [h s a s' hx]
  exact ⟨fun _ _ => rfl,rfl,rfl,rfl⟩

theorem frame_pure (a : α) : Frame K (pure a : ViewM below α) := frame_same fun _ _ _ h =>
    (pure_eq_ok.mp h).2.symm

theorem frame_lift (x : Except TransactionResult α) : Frame K (lift x : ViewM below α) :=
  frame_same fun _ _ _ h => (lift_eq_ok.mp h).2.symm

theorem frame_read (k : Hash256) : Frame K (read k : ViewM below (Option Data)) :=
  frame_same fun _ _ _ h => (read_eq_ok.mp h).2.symm

theorem frame_readEntry (k : Hash256) (r : TransactionResult) :
    Frame K (readEntry k r : ViewM below Json) :=
  frame_same fun _ _ _ h => (readEntry_eq_ok.mp h).2.symm

theorem frame_sortedDirectories : Frame K (sortedDirectories : ViewM below Bool) :=
  frame_same fun s a s' h => by cases h; rfl

theorem frame_threadDirectories : Frame K (threadDirectories : ViewM below Bool) :=
  frame_same fun s a s' h => by cases h; rfl

/-- The continuation needs its frame for the values that the first program returns. -/
theorem frame_bind_of (hx : Frame K x) (hf : ∀ s a s', x s=.ok (a,s') → Frame K (f a)) :
    Frame K (x >>= f) := by
  intro s b s' h
  obtain ⟨a,s₁,h₁,h₂⟩ := bind_eq_ok.mp h
  obtain ⟨hrow,hd,hs,ht⟩ := hx h₁
  obtain ⟨hrow',hd',hs',ht'⟩ := hf s a s₁ h₁ h₂
  exact ⟨fun k hk => (hrow' k hk).trans (hrow k hk),hd'.trans hd,hs'.trans hs,ht'.trans ht⟩

theorem frame_bind (hx : Frame K x) (hf : ∀ a, Frame K (f a)) : Frame K (x >>= f) :=
  frame_bind_of hx fun _ a _ _ => hf a

theorem Frame.mono (h : Frame K x) (hK : K⊆K') : Frame K' x := fun _ _ _ hx =>
  ⟨fun k hk => (h hx).1 k fun hk' => hk (hK hk'),(h hx).2⟩

theorem frame_insert (hk : k∈K) (v : Json) : Frame K (insert k v : ViewM below Unit) := by
  intro s u s' h
  have hb := (insert_eq_ok h).2
  have hc := ((Sandbox.lifts_insert ..).of_ok (mapErr_eq_ok h)).1
  exact ⟨fun k' hk' => (SandboxChanges.insert_spec hc).2.1 k' fun he =>
    hk' (he ▸ hk),hb.destroyedDrops,
    hb.sortedDirectories,hb.threadDirectories⟩

theorem frame_update (hk : k∈K) (v : Json) : Frame K (update k v : ViewM below Unit) := by
  intro s u s' h
  have hb := (update_eq_ok h).2
  have hc := ((Sandbox.lifts_update ..).of_ok (mapErr_eq_ok h)).1
  exact ⟨fun k' hk' => (SandboxChanges.update_spec hc).2.1 k' fun he =>
    hk' (he ▸ hk),hb.destroyedDrops,
    hb.sortedDirectories,hb.threadDirectories⟩

theorem frame_erase (hk : k∈K) : Frame K (erase k : ViewM below Unit) := by
  intro s u s' h
  have hb := (erase_eq_ok h).2
  have hc := ((Sandbox.lifts_erase ..).of_ok (mapErr_eq_ok h)).1
  exact ⟨fun k' hk' => (SandboxChanges.erase_spec hc).2.1 k' fun he =>
    hk' (he ▸ hk),hb.destroyedDrops,
    hb.sortedDirectories,hb.threadDirectories⟩

theorem Frame.read_eq (h : Frame K x) (hx : x s=.ok (a,s')) (hk : k∉K) : s'.read k=s.read k := by
  rw [Sandbox.read,Sandbox.read,SandboxChanges.read_eq,SandboxChanges.read_eq,(h hx).1 k hk]

end ViewM

end Rxrpl.Tx
