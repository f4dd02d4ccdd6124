import Rxrpl.TxEngine

/-!
# What a commit writes

On an open ledger the writes of `apply_to_ledger` do not fail, because a sandbox deletes only keys
that are there. After the commit the ledger reads as the sandbox did, up to the fields in which the
engine records the transaction.
-/

namespace Rxrpl.Tx

/-! ## Writes to the ledger -/

namespace Ledger

variable {l : Ledger}

theorem forEach_putState (hopen : l.isOpen=true) (entries : List (Σ _ : Hash256, Data)) :
    forEach putState entries l =
      (.ok (),{ l with stateMap := entries.foldl (fun m e => m.insert e.1 e.2) l.stateMap }) := by
  induction entries generalizing l with
  | nil => rfl
  | cons e entries ih =>
    have hput : putState e l=.ok { l with stateMap := l.stateMap.insert e.1 e.2 } := by
      rw [putState,if_neg (by simp [hopen])]
    rw [forEach,hput,List.foldl_cons]
    exact ih hopen

theorem lookup_foldl_insert (m m' : HashMap Hash256 Data) (k : Hash256) :
    (m.entries.foldl (fun (m : HashMap Hash256 Data) e => m.insert e.1 e.2) m').lookup k =
      (m.lookup k).or (m'.lookup k) := by
  rw [HashMap.row_foldl (fun (m : HashMap Hash256 Data) k => m.lookup k)
    (fun m e => m.insert e.1 e.2)
    (fun _ v => some v) _ _ m m' k]
  · cases m.lookup k <;> rfl
  · intro m e k hk
    exact AList.lookup_insert_ne hk
  · intro m e
    exact AList.lookup_insert m

theorem forEach_deleteState (hopen : l.isOpen=true) {entries : List (Σ _ : Hash256, Data)}
    (hnodup : entries.NodupKeys) (hmem : ∀ e∈entries, (l.read e.1).isSome) :
      forEach deleteState entries l =
      (.ok (),{ l with stateMap := entries.foldl (fun m e => m.erase e.1) l.stateMap }) := by
  induction entries generalizing l with
  | nil => rfl
  | cons e entries ih =>
    have he : (l.stateMap.lookup e.1).isSome := hmem e (by simp)
    have hdel : deleteState e l=.ok { l with stateMap := l.stateMap.erase e.1 } := by
      rw [deleteState,if_neg (by simp [hopen]),if_neg (by simp [← Option.isSome_iff_ne_none,he])]
    rw [List.nodupKeys_cons] at hnodup
    rw [forEach,hdel,List.foldl_cons]
    refine ih hopen hnodup.2 fun e' he' => ?_
    -- the keys of the other entries are still there
    have hne : e'.1≠e.1 := fun h => hnodup.1 (h ▸ List.mem_keys_of_mem he')
    rw [read,HashMap.lookup_erase_eq,if_neg hne]
    exact hmem e' (List.mem_cons_of_mem _ he')

theorem lookup_foldl_erase (m m' : HashMap Hash256 Data) (k : Hash256) :
    (m.entries.foldl (fun (m : HashMap Hash256 Data) e => m.erase e.1) m').lookup k =
      if (m.lookup k).isSome then none else m'.lookup k := by
  rw [HashMap.row_foldl (fun (m : HashMap Hash256 Data) k => m.lookup k) (fun m e => m.erase e.1)
    (fun _ _ => none) _ _ m m' k]
  · cases m.lookup k <;> rfl
  · intro m e k hk
    exact AList.lookup_erase_ne hk
  · intro m e
    exact AList.lookup_erase e.1 m

theorem addTransaction_ok (hopen : l.isOpen=true) (key : Hash256) (leaf : Bytes) :
    addTransaction key leaf l=.ok
      { l with txMap := l.txMap.insert key leaf, txCount := (l.txCount+1) % 2^32 } := by
  rw [addTransaction,if_neg (by simp [hopen])]

end Ledger

namespace SandboxChanges

def destroyedAfter (c : SandboxChanges) (l : Ledger) : ℕ :=
  if 0 < c.destroyedDrops then (l.destroyedDrops+c.destroyedDrops) % 2^64 else l.destroyedDrops

theorem Valid.applyToLedger {c : SandboxChanges} {l : Ledger} {fees : FeeSettings}
    (hv : c.Valid (l.view fees)) (hopen : l.isOpen=true) :
    ∃ m, c.applyToLedger l =
        (.ok (),{ l with stateMap := m, destroyedDrops := c.destroyedAfter l }) ∧
      ∀ k, m.lookup k=c.read (l.view fees) k := by
  let m₁ := c.inserts.entries.foldl (fun (m : HashMap Hash256 Data) e => m.insert e.1 e.2)
    l.stateMap
  let m₂ := c.updates.entries.foldl (fun (m : HashMap Hash256 Data) e => m.insert e.1 e.2) m₁
  let m₃ := c.deletes.entries.foldl (fun (m : HashMap Hash256 Data) e => m.erase e.1) m₂
  have hlookup₂ : ∀ k, m₂.lookup k=(c.updates.lookup k).or
    ((c.inserts.lookup k).or (l.stateMap.lookup k)) := by
    intro k
    rw [Ledger.lookup_foldl_insert,Ledger.lookup_foldl_insert]
  have hdel : ∀ e∈c.deletes.entries, (({ l with stateMap := m₂ } : Ledger).read e.1).isSome := by
    intro e he
    have hrow := (hv e.1).deleted (by
      rw [show (c.row e.1).deleted=some e.2 from HashMap.mem_entries_iff.mp he]
      rfl)
    have hbase : (l.stateMap.lookup e.1).isSome := hrow.1
    rw [Ledger.read,hlookup₂]
    simp [hbase]
  refine ⟨m₃,?_,fun k => ?_⟩
  · rw [SandboxChanges.applyToLedger,Ledger.forEach_putState hopen]
    simp only [Ledger.andThen]
    rw [Ledger.forEach_putState (show ({ l with stateMap := m₁ } : Ledger).isOpen=true from hopen)]
    simp only
    rw [Ledger.forEach_deleteState
      (show ({ l with stateMap := m₂ } : Ledger).isOpen=true from hopen)
      c.deletes.nodupKeys hdel]
    simp only [destroyedAfter]
    split
    · rw [Ledger.forEach,Ledger.addDestroyed,
        if_neg (fun h => by cases h.symm.trans (congrArg _ hopen))]
      rfl
    · rfl
  · rw [Ledger.lookup_foldl_erase,hlookup₂]
    simp only [SandboxChanges.read]
    split
    · rfl
    · cases c.updates.lookup k <;> cases c.inserts.lookup k <;> rfl

end SandboxChanges

/-! ## The recorded transaction -/

/-- Two objects that differ in the given fields at most. -/
def FieldsAgree (except : List String) (v v' : Json) : Prop := ∀ f∉except, v'.get f=v.get f

def Data.AgreeOff (except : List String) (d d' : Data) : Prop :=
  d'=d ∨ ∃ v v', d=.json v ∧ d'=.json v' ∧ FieldsAgree except v v'

/-- The fields that record the transaction on every entry it touched. -/
def stampFields : List String := ["PreviousTxnID","PreviousTxnLgrSeq"]

/-- The fields in which the engine writes a transaction. -/
def recordFields : List String := "AccountTxnID"::stampFields

variable {d d' : Data} {except except' : List String} {v v' : Json} {view : ReadView}

theorem fieldsAgree_set {k : String} (h : k∈except) (v x : Json) :
    FieldsAgree except v (v.set k x) := by
  intro f hf
  have hne : f≠k := fun he => hf (he ▸ h)
  rw [Json.get_set_ne hne]

theorem FieldsAgree.trans {v'' : Json} (h : FieldsAgree except v v')
    (h' : FieldsAgree except v' v'') :
    FieldsAgree except v v'' := fun f hf => (h' f hf).trans (h f hf)

theorem FieldsAgree.mono (h : FieldsAgree except v v') (hs : except⊆except') :
    FieldsAgree except' v v' := fun f hf => h f fun hm => hf (hs hm)

theorem Data.AgreeOff.mono (h : d.AgreeOff except d') (hs : except⊆except') :
    d.AgreeOff except' d' := by
  obtain h | ⟨v,v',hd,hd',ha⟩ := h
  · exact .inl h
  · exact .inr ⟨v,v',hd,hd',ha.mono hs⟩

theorem Data.AgreeOff.trans {d'' : Data} (h : d.AgreeOff except d') (h' : d'.AgreeOff except d'') :
    d.AgreeOff except d'' := by
  obtain rfl | ⟨v,v',rfl,rfl,ha⟩ := h
  · exact h'
  obtain rfl | ⟨w,w',hw,rfl,ha'⟩ := h'
  · exact .inr ⟨v,v',rfl,rfl,ha⟩
  · cases hw
    exact .inr ⟨v,w',rfl,rfl,ha.trans ha'⟩

theorem agreeOff_stampEntry (txId : String) (ledgerSeq : ℕ) (d : Data) :
    d.AgreeOff stampFields (stampEntry txId ledgerSeq d) := by
  unfold stampEntry
  split
  · split
    · exact .inr ⟨_,_,rfl,rfl,(fieldsAgree_set (by simp [stampFields]) _ _).trans
        (fieldsAgree_set (by simp [stampFields]) _ _)⟩
    · exact .inl rfl
  · exact .inl rfl

theorem agreeOff_threadEntry (txId : String) (d : Data) :
    d.AgreeOff recordFields (threadEntry txId d) := by
  unfold threadEntry
  split
  · split
    · exact .inr ⟨_,_,rfl,rfl,fieldsAgree_set (by simp [recordFields]) _ _⟩
    · exact .inl rfl
  · exact .inl rfl

namespace SandboxChanges

theorem row_stampPreviousTxn (c : SandboxChanges) (txId : String) (ledgerSeq : ℕ) (k : Hash256) :
    (c.stampPreviousTxn txId ledgerSeq).row k={ c.row k with
        inserted := (c.row k).inserted.map (stampEntry txId ledgerSeq)
        updated := (c.row k).updated.map (stampEntry txId ledgerSeq) } := by
  simp [row,stampPreviousTxn]

theorem row_threadAccountTxnId (c : SandboxChanges) (accountKey : Hash256) (txId : String)
    (k : Hash256) :
    ∃ f g : Data → Data, (c.threadAccountTxnId accountKey txId).row k =
        { c.row k with inserted := (c.row k).inserted.map f, updated := (c.row k).updated.map g } ∧
      (∀ d : Data, d.AgreeOff recordFields (f d)) ∧ ∀ d : Data, d.AgreeOff recordFields (g d) := by
  have hid : ∀ d : Data, d.AgreeOff recordFields (id d) := fun d => .inl rfl
  unfold threadAccountTxnId
  by_cases hk : k=accountKey
  · subst hk
    split
    · exact ⟨id,threadEntry txId,
        by simp [row,HashMap.lookup_modifyExisting],hid,agreeOff_threadEntry txId⟩
    · exact ⟨threadEntry txId,id,
        by simp [row,HashMap.lookup_modifyExisting],agreeOff_threadEntry txId,hid⟩
  · split <;> exact ⟨id,id,by simp [row,HashMap.lookup_modifyExisting,hk],hid,hid⟩

/-- Changes whose written entries are those of `c`, rewritten within the given fields. -/
def Rewrites (except : List String) (c c' : SandboxChanges) : Prop :=
  c'.destroyedDrops=c.destroyedDrops ∧ ∀ k, ∃ f g : Data → Data,
    c'.row k={ c.row k with inserted :=
      (c.row k).inserted.map f, updated := (c.row k).updated.map g } ∧
      (∀ d : Data, d.AgreeOff except (f d)) ∧ ∀ d : Data, d.AgreeOff except (g d)

theorem rewrites_stampPreviousTxn (c : SandboxChanges) (txId : String) (ledgerSeq : ℕ) :
    Rewrites stampFields c (c.stampPreviousTxn txId ledgerSeq) :=
  ⟨rfl,fun k => ⟨_,_,row_stampPreviousTxn c txId ledgerSeq k,agreeOff_stampEntry _ _,
    agreeOff_stampEntry _ _⟩⟩

variable {below : ReadView} {c c' : SandboxChanges} {except : List String}

theorem Rewrites.trans {c'' : SandboxChanges} (h : Rewrites except c c')
    (h' : Rewrites except c' c'') : Rewrites except c c'' := by
  refine ⟨h'.1.trans h.1,fun k => ?_⟩
  obtain ⟨f,g,hrow,hf,hg⟩ := h.2 k
  obtain ⟨f',g',hrow',hf',hg'⟩ := h'.2 k
  refine ⟨f' ∘ f,g' ∘ g,?_,fun d => (hf d).trans (hf' _),fun d => (hg d).trans (hg' _)⟩
  rw [hrow',hrow]
  simp

theorem Rewrites.mono {except' : List String} (h : Rewrites except c c') (hs : except⊆except') :
    Rewrites except' c c' := by
  refine ⟨h.1,fun k => ?_⟩
  obtain ⟨f,g,hrow,hf,hg⟩ := h.2 k
  exact ⟨f,g,hrow,fun d => (hf d).mono hs,fun d => (hg d).mono hs⟩

theorem Rewrites.valid (h : Rewrites except c c') (hv : c.Valid below) : c'.Valid below := by
  intro k
  obtain ⟨f,g,hrow,-,-⟩ := h.2 k
  obtain ⟨hi,hu,hd,ho⟩ := hv k
  rw [hrow]
  exact ⟨by simpa using hi,by simpa using hu,hd,ho⟩

/-- What rewritten changes read: an entry that the changes wrote is rewritten, any other is as it
was. -/
theorem Rewrites.read (h : Rewrites except c c') (k : Hash256) :
    (c.read below k=none ∧ c'.read below k=none) ∨
      (∃ d d', c.read below k=some d ∧ c'.read below k=some d' ∧ d.AgreeOff except d' ∧
        ((c.row k).inserted=none → (c.row k).updated=none → d'=d)) := by
  obtain ⟨f,g,hrow,hf,hg⟩ := h.2 k
  rw [read_eq,read_eq,hrow]
  obtain ⟨i,u,e,o⟩ := c.row k
  cases e with
  | some e => exact .inl ⟨rfl,rfl⟩
  | none =>
    cases u with
    | some u => exact .inr ⟨u,g u,rfl,rfl,hg u,by simp⟩
    | none =>
      cases i with
      | some i => exact .inr ⟨i,f i,rfl,rfl,hf i,by simp⟩
      | none =>
        cases hb : below.read k with
        | none => exact .inl ⟨rfl,rfl⟩
        | some d => exact .inr ⟨d,d,rfl,rfl,.inl rfl,fun _ _ => rfl⟩

end SandboxChanges

/-! ## The commit -/

theorem rewrites_committedChanges (env : Env) (txType : TransactionType) (tx : Json)
    (txHash : Hash256) (ledgerSeq : ℕ) (o : Outcome view) :
    SandboxChanges.Rewrites recordFields o.sandbox.changes
      (committedChanges env txType tx txHash ledgerSeq o) := by
  have hs := (o.sandbox.changes.rewrites_stampPreviousTxn (hashText txHash) ledgerSeq).mono
    (List.subset_cons_self "AccountTxnID" stampFields)
  unfold committedChanges
  dsimp only
  split
  · exact hs.trans
      ⟨by unfold SandboxChanges.threadAccountTxnId; split <;> rfl,
      SandboxChanges.row_threadAccountTxnId _ _ _⟩
  · exact hs

theorem rewrites_committedChanges_of_not_success (env : Env) (txType : TransactionType) (tx : Json)
    (txHash : Hash256) (ledgerSeq : ℕ) {o : Outcome view} (h : o.result.isSuccess=false) :
    SandboxChanges.Rewrites stampFields o.sandbox.changes
      (committedChanges env txType tx txHash ledgerSeq o) := by
  unfold committedChanges
  rw [h]
  simpa using o.sandbox.changes.rewrites_stampPreviousTxn (hashText txHash) ledgerSeq

theorem commit_ok (env : Env) (txType : TransactionType) (tx : Json) {l : Ledger}
    {fees : FeeSettings} (o : Outcome (l.view fees)) (hopen : l.isOpen=true) {txHash : Hash256}
    (hhash : computeTxHash env.crypto tx=.ok txHash) :
      ∃ m leaf, commit env txType tx l o=(.ok o.result,{ l with
          stateMap := m
          txMap := l.txMap.insert txHash leaf
          destroyedDrops := o.sandbox.changes.destroyedAfter l
          txCount := (l.txCount+1) % 2^32 }) ∧
      ∀ k, m.lookup k=(committedChanges env txType tx txHash l.header.sequence o).read
        (l.view fees) k := by
  have hr := rewrites_committedChanges env txType tx txHash l.header.sequence o
  obtain ⟨m,hm,hread⟩ := (hr.valid o.sandbox.valid).applyToLedger hopen
  refine ⟨m,env.leaf tx
    o.sandbox.changes (committedChanges env txType tx txHash l.header.sequence o) l.txCount
    o.result o.delivered,?_,hread⟩
  have hd : (committedChanges env txType tx txHash l.header.sequence o).destroyedAfter l =
      o.sandbox.changes.destroyedAfter l := by
    simp only [SandboxChanges.destroyedAfter,hr.1]
  rw [commit,hhash]
  dsimp only
  rw [hm]
  dsimp only
  rw [Ledger.addTransaction_ok (by exact hopen),hd]

end Rxrpl.Tx
