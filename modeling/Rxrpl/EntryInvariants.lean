import Rxrpl.TxCommit

/-!
# Invariants of ledger entries

A property of single entries, such as "a key of this kind holds an entry of that type", is kept by a
program when it is kept by every entry the program writes. The rules below carry such properties
through the directory functions.
-/

namespace Rxrpl.Tx

open Codec (AccountId)

def AllEntries (P : Hash256 → Json → Prop) (read : Hash256 → Option Data) : Prop :=
  ∀ k v, read k=some (.json v) → P k v

section

variable {P : Hash256 → Json → Prop} {read : Hash256 → Option Data}

theorem AllEntries.update (h : AllEntries P read) {k : Hash256} {v : Json} (hv : P k v) :
    AllEntries P (Function.update read k (some (.json v))) := by
  intro k' v' hread
  by_cases hk : k'=k
  · subst hk
    rw [Function.update_self] at hread
    cases hread
    exact hv
  · rw [Function.update_of_ne hk] at hread
    exact h k' v' hread

theorem AllEntries.erase (h : AllEntries P read) (k : Hash256) :
    AllEntries P (Function.update read k none) := by
  intro k' v' hread
  by_cases hk : k'=k
  · subst hk
    rw [Function.update_self] at hread
    cases hread
  · rw [Function.update_of_ne hk] at hread
    exact h k' v' hread

end

namespace ViewM

variable {below : ReadView} {α β : Type} {P : Hash256 → Json → Prop}

/-! ## What programs maintain -/

/-- From entries with the property a program goes to entries with the property, and its result is as
described. -/
def Maintains (P : Hash256 → Json → Prop) (x : ViewM below α) (Q : α → Prop) : Prop :=
  ∀ ⦃s a s'⦄, x s=.ok (a,s') → AllEntries P s.read → AllEntries P s'.read ∧ Q a

variable {Q : α → Prop} {k : Hash256} {v : Json} {x : ViewM below α}

theorem maintains_of_same (h : ∀ s a s', x s=.ok (a,s') → s'=s ∧ (AllEntries P s.read → Q a)) :
    Maintains P x Q := by
  intro s a s' hx hs
  obtain ⟨rfl,hQ⟩ := h s a s' hx
  exact ⟨hs,hQ hs⟩

theorem maintains_pure {a : α} (h : Q a) : Maintains P (pure a : ViewM below α) Q :=
  maintains_of_same fun _ _ _ hx => ⟨(pure_eq_ok.mp hx).2.symm,fun _ => (pure_eq_ok.mp hx).1 ▸ h⟩

theorem maintains_lift (x : Except TransactionResult α) :
    Maintains P (lift x : ViewM below α) fun a => x=.ok a :=
  maintains_of_same fun _ _ _ hx => ⟨(lift_eq_ok.mp hx).2.symm,fun _ => (lift_eq_ok.mp hx).1⟩

theorem maintains_read (k : Hash256) :
    Maintains P (read k : ViewM below (Option Data)) fun d => ∀ v, d=some (.json v) → P k v :=
  maintains_of_same fun _ _ _ hx => by
    obtain ⟨rfl,rfl⟩ := read_eq_ok.mp hx
    exact ⟨rfl,fun hs v hv => hs k v hv⟩

theorem maintains_readEntry (k : Hash256) (r : TransactionResult) :
    Maintains P (readEntry k r : ViewM below Json) (P k) :=
  maintains_of_same fun _ _ _ hx => by
    obtain ⟨hread,rfl⟩ := readEntry_eq_ok.mp hx
    exact ⟨rfl,fun hs => hs k _ hread⟩

theorem maintains_sortedDirectories : Maintains P (sortedDirectories : ViewM below Bool) fun _ =>
    True :=
  maintains_of_same fun s a s' h => by cases h; exact ⟨rfl,fun _ => trivial⟩

theorem maintains_threadDirectories : Maintains P (threadDirectories : ViewM below Bool) fun _ =>
    True :=
  maintains_of_same fun s a s' h => by cases h; exact ⟨rfl,fun _ => trivial⟩

theorem maintains_bind {f : α → ViewM below β} {R : β → Prop} (hx : Maintains P x Q)
    (hf : ∀ a, Q a → Maintains P (f a) R) : Maintains P (x >>= f) R := by
  intro s b s' h hs
  obtain ⟨a,s₁,h₁,h₂⟩ := bind_eq_ok.mp h
  obtain ⟨hs₁,hQ⟩ := hx h₁ hs
  exact hf a hQ h₂ hs₁

theorem maintains_insert (hv : P k v) :
    Maintains P (insert k v : ViewM below Unit) fun _ => True := fun s _ _ h hs => by
  rw [(insert_eq_ok h).2.read]
  exact ⟨hs.update hv,trivial⟩

theorem maintains_update (hv : P k v) :
    Maintains P (update k v : ViewM below Unit) fun _ => True := fun s _ _ h hs => by
  rw [(update_eq_ok h).2.read]
  exact ⟨hs.update hv,trivial⟩

theorem maintains_erase (k : Hash256) : Maintains P (erase k : ViewM below Unit) fun _ => True :=
    fun s _ _ h hs => by
  rw [(erase_eq_ok h).2.read]
  exact ⟨hs.erase k,trivial⟩

end ViewM

/-! ## Directories -/

/-- The fields in which a directory function rewrites a page. -/
def linkFields : List String := ["Indexes","IndexNext","IndexPrevious"]

/-- A property that a directory function cannot break on the pages it rewrites. -/
structure RewriteClosed (crypto : Crypto) (root : Hash256) (P : Hash256 → Json → Prop) : Prop where
  rewrite : ∀ page < 2^64, ∀ v v', FieldsAgree linkFields v v' →
    P (Keylet.dirNode crypto root page) v →
    P (Keylet.dirNode crypto root page) v'

/-- Such a property that the pages it makes have as well. -/
structure PageClosed (crypto : Crypto) (root : Hash256) (describe : List (String × Json))
    (P : Hash256 → Json → Prop) : Prop extends RewriteClosed crypto root P where
  make : ∀ page < 2^64, ∀ thread extra indexes, (extra=[] ∨ ∃ x, extra=[("IndexPrevious",x)]) →
    P (Keylet.dirNode crypto root page) (makePage root thread describe extra indexes)

theorem fieldsAgree_remove {except : List String} {k : String} (h : k∈except) (v : Json) :
    FieldsAgree except v (v.remove k) := by
  intro f hf
  have hne : f≠k := fun he => hf (he ▸ h)
  rw [Json.get_remove,if_neg hne]

section

variable {crypto : Crypto} {below : ReadView} {root : Hash256} {describe : List (String × Json)}
  {P : Hash256 → Json → Prop}

open Keylet ViewM

variable {node : Json} {page : ℕ}

theorem maintains_appendPage (hP : PageClosed crypto root describe P) (entryHex : String)
    {lastPage : ℕ} (hlast : lastPage < 2^64) {rootPage : Json} (hroot : P root rootPage)
    (hnode : P (dirNode crypto root lastPage) node) :
    Maintains P (appendPage crypto root entryHex describe lastPage rootPage node : ViewM below ℕ)
      fun _ => True := by
  have hset : ∀ {p v f} x, p < 2^64 → f∈linkFields → P (dirNode crypto root p) v →
    P (dirNode crypto root p) (v.set f x) :=
    fun x hp hf => hP.rewrite _ hp _ _ (fieldsAgree_set hf _ x)
  have hsetRoot : ∀ {v f} x, f∈linkFields → P root v → P root (v.set f x) := fun x hf =>
    hset (p := 0) x (by simp) hf
  have hnew : (lastPage+1) % 2^64 < 2^64 := Nat.mod_lt _ (by simp)
  refine maintains_bind (Q := fun _ => True) ?_ fun _ _ =>
    maintains_bind maintains_threadDirectories fun thread _ =>
    maintains_bind (maintains_insert (hP.make _ hnew _ _ _ ?_)) fun _ _ => maintains_pure trivial
  · split
    · rename_i h
      rw [h] at hnode
      exact maintains_update
        (hsetRoot _ (by simp [linkFields]) (hsetRoot _ (by simp [linkFields]) hnode))
    · refine maintains_bind (maintains_update (hset _ hlast (by simp [linkFields]) hnode))
        fun _ _ => ?_
      exact maintains_update (hsetRoot _ (by simp [linkFields]) hroot)
  · split
    · exact .inr ⟨_,rfl⟩
    · exact .inl rfl

theorem maintains_dirInsert (hP : PageClosed crypto root describe P) (entry : Hash256)
    (sorted : Bool) :
    Maintains P (dirInsert crypto root entry sorted describe : ViewM below ℕ) fun _ => True := by
  have hzero : (0 : ℕ) < 2^64 := by simp
  refine maintains_bind (maintains_read root) fun bytes hbytes => ?_
  cases bytes with
  | none =>
    exact maintains_bind maintains_threadDirectories fun _ _ =>
      maintains_bind (maintains_insert (hP.make 0 hzero _ _ _ (.inl rfl))) fun _ _ =>
        maintains_pure trivial
  | some bytes =>
    refine maintains_bind (maintains_lift _) fun rootPage hparse => ?_
    have hroot : P root rootPage := hbytes rootPage (by rw [Data.parse_eq_ok hparse])
    have hlast := readU64Field_lt rootPage "IndexPrevious"
    refine maintains_bind (Q := P (dirNode crypto root (readU64Field rootPage "IndexPrevious"))) ?_
      fun node hnode => ?_
    · unfold readLastPage
      split
      · rename_i h
        rw [h]
        exact maintains_pure hroot
      · exact maintains_readEntry _ _
    · dsimp only
      split
      · exact maintains_pure trivial
      split
      · exact maintains_bind
          (maintains_update
          (hP.rewrite _ hlast _ _ (fieldsAgree_set (by simp [linkFields]) _ _) hnode))
          fun _ _ => maintains_pure trivial
      · exact maintains_appendPage hP _ hlast hroot hnode

theorem maintains_patchLink (hP : RewriteClosed crypto root P) (hpage : page < 2^64)
    {field : String}
    (hfield : field∈linkFields) (val : ℕ) :
    Maintains P (patchLink crypto root page field val : ViewM below Unit) fun _ => True := by
  refine maintains_bind (maintains_read _) fun bytes hbytes => ?_
  split
  · rename_i n
    refine maintains_update (hP.rewrite _ hpage n _ ?_ (hbytes n rfl))
    split
    · exact fieldsAgree_remove hfield _
    · exact fieldsAgree_set hfield _ _
  · exact maintains_pure trivial

theorem maintains_dropPage (hP : RewriteClosed crypto root P) (hpage : page < 2^64)
    (hnode : P (dirNode crypto root page) node) (keepRoot : Bool) :
    Maintains P (dropPage crypto root page node keepRoot : ViewM below Unit) fun _ => True := by
  have hlink : ∀ field, readU64Field node field < 2^64 := readU64Field_lt node
  refine maintains_bind maintains_sortedDirectories fun sorted _ => ?_
  split
  · refine maintains_bind (maintains_read _) fun _ _ => ?_
    split
    · exact maintains_update
        (hP.rewrite _ hpage _ _ (fieldsAgree_set (by simp [linkFields]) _ _) hnode)
    · exact maintains_bind (maintains_erase _) fun _ _ => maintains_erase _
  · refine maintains_bind
      (maintains_bind (maintains_patchLink hP (hlink _) (by simp [linkFields]) _) fun _ _ =>
      maintains_patchLink hP (hlink _) (by simp [linkFields]) _) fun _ _ =>
        maintains_bind (maintains_erase _) fun _ _ => ?_
    split
    · exact maintains_pure trivial
    refine maintains_bind (maintains_read _) fun bytes _ => ?_
    split
    · split
      · exact maintains_erase _
      · exact maintains_pure trivial
    · exact maintains_pure trivial

theorem maintains_dirRemovePageImpl (hP : RewriteClosed crypto root P) (hpage : page < 2^64)
    (entry : Hash256) (keepRoot : Bool) :
    Maintains P (dirRemovePageImpl crypto root page entry keepRoot : ViewM below Unit) fun _ =>
      True := by
  refine maintains_bind (maintains_read _) fun bytes hbytes => ?_
  cases bytes with
  | none => exact maintains_pure trivial
  | some bytes =>
    refine maintains_bind (maintains_lift _) fun node hparse => ?_
    have hnode : P (dirNode crypto root page) node := hbytes node (by rw [Data.parse_eq_ok hparse])
    dsimp only
    split
    · exact maintains_pure trivial
    refine maintains_bind maintains_sortedDirectories fun sorted _ => ?_
    split
    · exact maintains_dropPage hP hpage hnode _
    · split
      · exact maintains_erase _
      · exact maintains_update
          (hP.rewrite _ hpage _ _ (fieldsAgree_set (by simp [linkFields]) _ _) hnode)

theorem maintains_dirRemove (hP : RewriteClosed crypto root P) (entry : Hash256) (keepRoot : Bool) :
    Maintains P (dirRemove crypto root entry keepRoot : ViewM below Unit) fun _ => True := by
  refine maintains_bind (Q := fun page => ∀ p, page=some p → p < 2^64) ?_ fun page hpage => ?_
  · refine maintains_of_same fun s page s' h => ⟨(findPage_spec crypto h).1,fun _ p hp => ?_⟩
    exact (findPage_spec crypto h).2 p hp (by simp)
  · cases page with
    | none => exact maintains_pure trivial
    | some page => exact maintains_dirRemovePageImpl hP (hpage page rfl) _ _

theorem maintains_unlinkTicket {id : AccountId} (hP : RewriteClosed crypto (ownerDir crypto id) P)
    (ticketKey : Hash256) (ticket : Data) :
    Maintains P (unlinkTicket crypto id ticketKey ticket : ViewM below Unit) fun _ => True := by
  unfold unlinkTicket
  split
  · rename_i page h
    exact maintains_dirRemovePageImpl hP (ticketPage_lt h) _ _
  · exact maintains_dirRemove hP _ _

end

end Rxrpl.Tx
