import Rxrpl.HashMap
import Rxrpl.InputRuns
import Rxrpl.Json
import Rxrpl.SortedMap

/-!
# The transaction queue

The queue keeps its entries by hash, and three indexes of the hashes: by fee level, by account, and
by account and sequence. The index by fee level has one place for each level. A queue in which no
two entries have the same level is consistent after every call; a second entry of a level pushes the
first one out of that index, and it can then be neither seen nor drained.
-/

namespace Rxrpl.Txq

open InputRun List

inductive TxqError
  | queueFull
  | accountQueueFull
  | feeTooLowForReplacement
  | duplicate
  deriving DecidableEq

structure QueueEntry where
  hash : Hash256
  tx : Json
  feeLevel : ℕ
  account : String
  sequence : ℕ
  lastLedgerSequence : Option ℕ
  preflightPassed : Bool

/-- The counters of `QueueMetrics` that the queue itself changes. -/
structure QueueMetrics where
  totalQueued : ℕ := 0
  totalExpired : ℕ := 0
  totalReplaced : ℕ := 0

def maxAccountQueueDepth : ℕ := 10

structure TxQueue where
  byFee : SortedMap ℕᵒᵈ Hash256
  byHash : HashMap Hash256 QueueEntry
  byAccount : HashMap String (List Hash256)
  byAccountSeq : HashMap (String × ℕ) Hash256
  maxSize : ℕ
  metrics : QueueMetrics

namespace TxQueue

def new (maxSize : ℕ) : TxQueue := ⟨∅,∅,∅,∅,maxSize,{}⟩

def len (q : TxQueue) : ℕ := q.byHash.keys.length

def accountTxs (q : TxQueue) (account : String) : List Hash256 :=
    (q.byAccount.lookup account).getD []

/-- The list of an account without a hash; an empty list is taken out. -/
def dropFromAccount (byAccount : HashMap String (List Hash256)) (account : String)
    (hash : Hash256) : HashMap String (List Hash256) :=
  match byAccount.lookup account with
  | none => byAccount
  | some hashes =>
    let rest := hashes.filter (· ≠ hash)
    if rest.isEmpty then byAccount.erase account else byAccount.insert account rest

def remove (q : TxQueue) (hash : Hash256) : Option QueueEntry × TxQueue :=
  match q.byHash.lookup hash with
  | none => (none,q)
  | some entry => (some entry,
    { q with
      byHash := q.byHash.erase hash
      byFee := q.byFee.retain fun _ h => h≠hash
      byAccount := dropFromAccount q.byAccount entry.account hash
      byAccountSeq := q.byAccountSeq.erase (entry.account,entry.sequence) })

/-- An entry that is in none of the indexes is put into all of them. -/
def enqueue (q : TxQueue) (entry : QueueEntry) : TxQueue :=
  { q with
    byFee := q.byFee.insert (.toDual entry.feeLevel) entry.hash
    byAccount := q.byAccount.insert entry.account (q.accountTxs entry.account++[entry.hash])
    byAccountSeq := q.byAccountSeq.insert (entry.account,entry.sequence) entry.hash
    byHash := q.byHash.insert entry.hash entry
    metrics := { q.metrics with totalQueued := (q.metrics.totalQueued+1) % 2^64 } }

/-- The last part of `submit`, with the two limits. -/
def acceptEntry (q : TxQueue) (entry : QueueEntry) : Except TxqError Unit × TxQueue :=
  if q.maxSize ≤ q.len then (.error .queueFull,q)
  else if maxAccountQueueDepth ≤ (q.accountTxs entry.account).length
    then (.error .accountQueueFull,q)
  else (.ok (),q.enqueue entry)

def dropReplaced (q : TxQueue) (hash : Hash256) : TxQueue :=
  let q := (q.remove hash).2
  { q with metrics := { q.metrics with totalReplaced := (q.metrics.totalReplaced+1) % 2^64 } }

/-- `submit`. The old entry of the account and sequence is removed before the limits are checked. -/
def submit (q : TxQueue) (entry : QueueEntry) : Except TxqError Unit × TxQueue :=
  if (q.byHash.lookup entry.hash).isSome then (.error .duplicate,q)
  else match q.byAccountSeq.lookup (entry.account,entry.sequence) with
    | none => q.acceptEntry entry
    | some existingHash =>
      match q.byHash.lookup existingHash with
      | none => q.acceptEntry entry
      | some existing =>
        if entry.feeLevel ≤ existing.feeLevel then (.error .feeTooLowForReplacement,q)
        else (q.dropReplaced existingHash).acceptEntry entry

def removeAll (q : TxQueue) (hashes : List Hash256) : TxQueue :=
    hashes.foldl (fun q hash => (q.remove hash).2) q

/-- `remove_if`: the predicate is asked once for each entry. -/
def removeIf (q : TxQueue) (shouldRemove : Hash256 → Bool) : TxQueue :=
    q.removeAll (q.byHash.keys.filter shouldRemove)

def removeExpired (q : TxQueue) (currentLedgerSeq : ℕ) : TxQueue :=
  let expired :=
    (q.byHash.entries.filter fun e => e.2.lastLedgerSequence.any (· < currentLedgerSeq)).map (·.1)
  let q := q.removeAll expired
  { q with metrics :=
    { q.metrics with totalExpired := (q.metrics.totalExpired+expired.length) % 2^64 } }

def peek (q : TxQueue) : Option QueueEntry := q.byFee.first.bind fun e => q.byHash.lookup e.2

def drainForRetry (q : TxQueue) : List QueueEntry × TxQueue :=
  (q.byFee.values.filterMap q.byHash.lookup,
    { q with byFee := ∅, byHash := ∅, byAccount := ∅, byAccountSeq := ∅ })

/-! ## Consistency -/

def Queued (q : TxQueue) (entry : QueueEntry) : Prop := q.byHash.lookup entry.hash=some entry

/-- The four indexes describe the same entries, within the two limits. -/
structure Consistent (q : TxQueue) : Prop where
  hash : ∀ h e, q.byHash.lookup h=some e → e.hash=h
  fee : ∀ level h, (.toDual level,h)∈q.byFee.entries ↔ ∃ e, q.Queued e ∧ e.hash=h ∧
    e.feeLevel=level
  account : ∀ a h, h∈q.accountTxs a ↔ ∃ e, q.Queued e ∧ e.hash=h ∧ e.account=a
  once : ∀ a, (q.accountTxs a).Nodup
  nonempty : ∀ a, q.byAccount.lookup a≠some []
  accountSeq : ∀ a s h, q.byAccountSeq.lookup (a,s)=some h ↔
    ∃ e, q.Queued e ∧ e.hash=h ∧ e.account=a ∧ e.sequence=s
  size : q.len ≤ q.maxSize
  depth : ∀ a, (q.accountTxs a).length ≤ maxAccountQueueDepth

theorem consistent_new (n : ℕ) : (new n).Consistent where
  hash := fun _ _ h => nomatch h
  fee := fun _ _ => ⟨(fun h => nomatch h),(fun ⟨_,h,_⟩ => nomatch h)⟩
  account := fun _ _ => ⟨(fun h => nomatch h),(fun ⟨_,h,_⟩ => nomatch h)⟩
  once := fun _ => nodup_nil
  nonempty := fun _ h => nomatch h
  accountSeq := fun _ _ _ => ⟨(fun h => nomatch h),(fun ⟨_,h,_⟩ => nomatch h)⟩
  size := Nat.zero_le _
  depth := fun _ => Nat.zero_le _

variable {q : TxQueue}

variable {e e' : QueueEntry}

theorem Consistent.queued (h : q.Consistent) {hash : Hash256} (he : q.byHash.lookup hash=some e) :
    q.Queued e ∧ e.hash=hash := by
  have hhash := h.hash hash e he
  exact ⟨by rw [Queued,hhash,he],hhash⟩

theorem Queued.unique (h : q.Queued e) (h' : q.Queued e') (hhash : e.hash=e'.hash) : e=e' := by
  rw [Queued,hhash] at h
  exact Option.some.inj (h.symm.trans h')

theorem Consistent.unique_accountSeq (h : q.Consistent) (he : q.Queued e) (he' : q.Queued e')
    (haccount : e.account=e'.account) (hsequence : e.sequence=e'.sequence) : e=e' := by
  have h₁ := (h.accountSeq e.account e.sequence e.hash).mpr ⟨e,he,rfl,rfl,rfl⟩
  have h₂ := (h.accountSeq e.account e.sequence e'.hash).mpr
    ⟨e',he',rfl,haccount.symm,hsequence.symm⟩
  exact he.unique he' (Option.some.inj (h₁.symm.trans h₂))

/-! ## Removal -/

theorem accountTxs_dropFromAccount (byAccount : HashMap String (List Hash256)) (account a : String)
    (hash : Hash256) :
    ((dropFromAccount byAccount account hash).lookup a).getD [] =
      if a=account then ((byAccount.lookup account).getD []).filter (· ≠ hash)
        else (byAccount.lookup a).getD [] := by
  unfold dropFromAccount
  split
  · rename_i hnone
    split
    · rename_i ha
      rw [ha,hnone]
      rfl
    · rfl
  · rename_i hashes hsome
    dsimp only
    split
    · rename_i hempty
      rw [HashMap.lookup_erase_eq,hsome,Option.getD_some]
      split
      · exact (List.isEmpty_iff.mp hempty).symm
      · rfl
    · rw [HashMap.lookup_insert_eq,hsome,Option.getD_some]
      split <;> rfl

theorem lookup_dropFromAccount_ne_nil {byAccount : HashMap String (List Hash256)}
    (h : ∀ a, byAccount.lookup a≠some []) (account a : String) (hash : Hash256) :
      (dropFromAccount byAccount account hash).lookup a≠some [] := by
  unfold dropFromAccount
  split
  · exact h a
  dsimp only
  split
  · rw [HashMap.lookup_erase_eq]
    split
    · exact (fun hnone => nomatch hnone)
    · exact h a
  · rename_i hempty
    rw [HashMap.lookup_insert_eq]
    split
    · intro heq
      exact hempty (List.isEmpty_iff.mpr (Option.some.inj heq))
    · exact h a

section

variable {hash : Hash256} {entry : QueueEntry}

theorem remove_eq (he : q.byHash.lookup hash=some entry) : q.remove hash=(some entry,{ q with
      byHash := q.byHash.erase hash
      byFee := q.byFee.retain fun _ h => h≠hash
      byAccount := dropFromAccount q.byAccount entry.account hash
      byAccountSeq := q.byAccountSeq.erase (entry.account,entry.sequence) }) := by
  rw [remove,he]

theorem lookup_remove (h : Hash256) :
    (q.remove hash).2.byHash.lookup h=if h=hash then none else q.byHash.lookup h := by
  unfold remove
  split
  · rename_i hnone
    split
    · rename_i heq
      rw [heq,hnone]
    · rfl
  · exact HashMap.lookup_erase_eq _ _ _

theorem queued_remove {e : QueueEntry} : (q.remove hash).2.Queued e ↔ q.Queued e ∧ e.hash≠hash := by
  rw [Queued,lookup_remove,Queued]
  split
  · rename_i heq
    simp [heq]
  · rename_i hne
    simp [hne]

theorem accountTxs_remove (he : q.byHash.lookup hash=some entry) (a : String) :
    (q.remove hash).2.accountTxs a =
      if a=entry.account then (q.accountTxs a).filter (· ≠ hash) else q.accountTxs a := by
  rw [accountTxs,remove_eq he,accountTxs_dropFromAccount]
  split
  · rename_i ha
    rw [ha,accountTxs]
  · rfl

theorem len_remove (he : q.byHash.lookup hash=some entry) : (q.remove hash).2.len+1=q.len := by
  have hmem : hash∈q.byHash.keys := AList.mem_keys.mp (AList.lookup_isSome.mp (by rw [he]; rfl))
  rw [len,remove_eq he,len]
  simp only [AList.keys_erase,length_erase_of_mem hmem]
  have := length_pos_of_mem hmem
  omega

@[simp] theorem maxSize_remove : (q.remove hash).2.maxSize=q.maxSize := by
  unfold remove
  split <;> rfl

theorem Consistent.remove (h : q.Consistent) (hash : Hash256) : (q.remove hash).2.Consistent := by
  cases he : q.byHash.lookup hash with
  | none =>
    rw [TxQueue.remove,he]
    exact h
  | some entry =>
    obtain ⟨hqueued,hhash⟩ := h.queued he
    have hquery : ∀ P : QueueEntry → Prop, (∃ e, (q.remove hash).2.Queued e ∧ P e) ↔
      ∃ e, q.Queued e ∧ e.hash≠hash ∧ P e := by
      intro P
      simp only [queued_remove,and_assoc]
    constructor
    case hash =>
      intro k e hk
      rw [lookup_remove] at hk
      split_ifs at hk
      exact h.hash k e hk
    case fee =>
      intro level k
      rw [hquery,remove_eq he,SortedMap.mem_retain,h.fee]
      simp only [decide_eq_true_eq]
      constructor
      · rintro ⟨⟨e,hq,rfl,hlevel⟩,hne⟩
        exact ⟨e,hq,hne,rfl,hlevel⟩
      · rintro ⟨e,hq,hne,rfl,hlevel⟩
        exact ⟨⟨e,hq,rfl,hlevel⟩,hne⟩
    case account =>
      intro a k
      rw [hquery,accountTxs_remove he]
      by_cases ha : a=entry.account
      · rw [if_pos ha,mem_filter,h.account,decide_eq_true_eq]
        constructor
        · rintro ⟨⟨e,hq,rfl,hacc⟩,hne⟩
          exact ⟨e,hq,hne,rfl,hacc⟩
        · rintro ⟨e,hq,hne,rfl,hacc⟩
          exact ⟨⟨e,hq,rfl,hacc⟩,hne⟩
      · rw [if_neg ha,h.account]
        constructor
        · rintro ⟨e,hq,rfl,rfl⟩
          refine ⟨e,hq,fun heq => ha ?_,rfl,rfl⟩
          rw [hq.unique hqueued (heq.trans hhash.symm)]
        · rintro ⟨e,hq,-,rfl,hacc⟩
          exact ⟨e,hq,rfl,hacc⟩
    case once =>
      intro a
      rw [accountTxs_remove he]
      split
      · exact (h.once a).filter _
      · exact h.once a
    case nonempty =>
      intro a
      rw [remove_eq he]
      exact lookup_dropFromAccount_ne_nil h.nonempty entry.account a hash
    case accountSeq =>
      intro a s k
      rw [hquery,remove_eq he,HashMap.lookup_erase_eq]
      by_cases hkey : (a,s)=(entry.account,entry.sequence)
      · rw [if_pos hkey]
        constructor
        · exact (fun hnone => nomatch hnone)
        · rintro ⟨e,hq,hne,rfl,rfl,rfl⟩
          obtain ⟨hacc,hseq⟩ := Prod.mk.inj hkey
          exact (hne
            ((congrArg (·.hash) (h.unique_accountSeq hq hqueued hacc hseq)).trans hhash)).elim
      · rw [if_neg hkey,h.accountSeq]
        constructor
        · rintro ⟨e,hq,rfl,rfl,rfl⟩
          refine ⟨e,hq,fun heq => hkey ?_,rfl,rfl,rfl⟩
          rw [hq.unique hqueued (heq.trans hhash.symm)]
        · rintro ⟨e,hq,-,rfl,hacc,hseq⟩
          exact ⟨e,hq,rfl,hacc,hseq⟩
    case size =>
      have := len_remove he
      have := h.size
      rw [maxSize_remove]
      omega
    case depth =>
      intro a
      rw [accountTxs_remove he]
      split
      · exact (length_filter_le _ _).trans (h.depth a)
      · exact h.depth a

theorem Consistent.removeAll (h : q.Consistent) (hashes : List Hash256) :
    (q.removeAll hashes).Consistent := by
  induction hashes generalizing q with
  | nil => exact h
  | cons hash hashes ih => exact ih (h.remove hash)

end

theorem Consistent.withMetrics (h : q.Consistent) (metrics : QueueMetrics) :
    { q with metrics }.Consistent :=
  ⟨h.hash,h.fee,h.account,h.once,h.nonempty,h.accountSeq,h.size,h.depth⟩

/-! ## Submission -/

/-- A new entry whose hash, account and sequence, and fee level are free. -/
structure Fits (q : TxQueue) (entry : QueueEntry) : Prop where
  hash : q.byHash.lookup entry.hash=none
  accountSeq : q.byAccountSeq.lookup (entry.account,entry.sequence)=none
  size : q.len < q.maxSize
  depth : (q.accountTxs entry.account).length < maxAccountQueueDepth

/-- No queued entry has the fee level of a new one. -/
def FreeLevel (q : TxQueue) (entry : QueueEntry) : Prop := ∀ e, q.Queued e →
    e.feeLevel≠entry.feeLevel

section

variable {entry : QueueEntry}

theorem queued_enqueue (hfits : q.Fits entry) {e : QueueEntry} : (q.enqueue entry).Queued e ↔
    e=entry ∨ q.Queued e := by
  rw [Queued,enqueue,HashMap.lookup_insert_eq,Queued]
  by_cases heq : e.hash=entry.hash
  · rw [if_pos heq,heq,hfits.hash]
    simp [eq_comm]
  rw [if_neg heq]
  constructor
  · exact .inr
  · rintro (rfl | h)
    · exact (heq rfl).elim
    · exact h

theorem accountTxs_enqueue (a : String) :
    (q.enqueue entry).accountTxs a=if a=entry.account then q.accountTxs a++[entry.hash]
      else q.accountTxs a := by
  rw [accountTxs,enqueue,HashMap.lookup_insert_eq]
  split
  · rename_i ha
    rw [Option.getD_some,ha]
  · rfl

/-- A new entry leaves the queue consistent exactly when its fee level is free: the index by fee
level keeps the other entries then. -/
theorem Consistent.enqueue_iff (h : q.Consistent) (hfits : q.Fits entry) :
    (q.enqueue entry).Consistent ↔ q.FreeLevel entry := by
  have hfresh : ∀ e, q.Queued e → e.hash≠entry.hash := by
    intro e he heq
    rw [Queued,heq,hfits.hash] at he
    cases he
  constructor
  · intro h' e he heq
    have hold := (h'.fee e.feeLevel e.hash).mpr ⟨e,(queued_enqueue hfits).mpr (.inr he),rfl,rfl⟩
    have hnew := (h'.fee e.feeLevel entry.hash).mpr
      ⟨entry,(queued_enqueue hfits).mpr (.inl rfl),rfl,heq.symm⟩
    exact hfresh e he (SortedMap.value_unique hold hnew)
  · intro hfree
    have hquery : ∀ P : QueueEntry → Prop, (∃ e, (q.enqueue entry).Queued e ∧ P e) ↔ P entry ∨
      ∃ e, q.Queued e ∧ P e := by
      intro P
      simp only [queued_enqueue hfits,or_and_right,exists_or,exists_eq_left]
    constructor
    case hash =>
      intro k e hk
      rw [enqueue,HashMap.lookup_insert_eq] at hk
      split at hk
      · rename_i hkey
        rw [← Option.some.inj hk,hkey]
      · exact h.hash k e hk
    case fee =>
      intro level k
      rw [hquery,enqueue,SortedMap.mem_insert,Prod.mk.injEq,OrderDual.toDual_inj,h.fee]
      constructor
      · rintro (⟨rfl,rfl⟩ | ⟨hold,-⟩)
        · exact .inl ⟨rfl,rfl⟩
        · exact .inr hold
      · rintro (⟨rfl,rfl⟩ | ⟨e,he,rfl,rfl⟩)
        · exact .inl ⟨rfl,rfl⟩
        · exact .inr ⟨⟨e,he,rfl,rfl⟩,fun heq => hfree e he (OrderDual.toDual_inj.mp heq)⟩
    case account =>
      intro a k
      rw [hquery,accountTxs_enqueue]
      by_cases ha : a=entry.account
      · rw [if_pos ha,mem_append,mem_singleton,h.account]
        constructor
        · rintro (hold | rfl)
          · exact .inr hold
          · exact .inl ⟨rfl,ha.symm⟩
        · rintro (⟨rfl,-⟩ | hold)
          · exact .inr rfl
          · exact .inl hold
      · rw [if_neg ha,h.account]
        constructor
        · exact .inr
        · rintro (⟨-,hacc⟩ | hold)
          · exact (ha hacc.symm).elim
          · exact hold
    case once =>
      intro a
      rw [accountTxs_enqueue]
      split
      · rw [nodup_append]
        refine ⟨h.once a,nodup_singleton _,fun k hk k' hk' => ?_⟩
        obtain ⟨e,he,rfl,-⟩ := (h.account a k).mp hk
        rw [mem_singleton.mp hk']
        exact hfresh e he
      · exact h.once a
    case nonempty =>
      intro a
      rw [enqueue,HashMap.lookup_insert_eq]
      split
      · simp
      · exact h.nonempty a
    case accountSeq =>
      intro a s k
      rw [hquery,enqueue,HashMap.lookup_insert_eq]
      by_cases hkey : (a,s)=(entry.account,entry.sequence)
      · obtain ⟨rfl,rfl⟩ := Prod.mk.inj hkey
        rw [if_pos rfl,Option.some.injEq,← h.accountSeq,hfits.accountSeq]
        simp
      · rw [if_neg hkey,h.accountSeq]
        constructor
        · exact .inr
        · rintro (⟨-,rfl,rfl⟩ | hold)
          · exact (hkey rfl).elim
          · exact hold
    case size =>
      have hnot : entry.hash∉q.byHash.keys := fun hmem =>
        AList.lookup_eq_none.mp hfits.hash (AList.mem_keys.mpr hmem)
      have hsize := hfits.size
      rw [len] at hsize
      rw [len,enqueue]
      simp only [AList.keys_insert,length_cons,erase_of_not_mem hnot]
      exact hsize
    case depth =>
      intro a
      rw [accountTxs_enqueue]
      split
      · rename_i ha
        have := hfits.depth
        rw [ha,length_append,length_singleton]
        omega
      · exact h.depth a

theorem acceptEntry_of_fits (hfits : q.Fits entry) :
    q.acceptEntry entry=(.ok (),q.enqueue entry) := by
  rw [acceptEntry,if_neg (Nat.not_le.mpr hfits.size),if_neg (Nat.not_le.mpr hfits.depth)]

/-- Without an entry of its account and sequence, a new entry is refused or fits. -/
theorem acceptEntry_cases (hhash : q.byHash.lookup entry.hash=none)
    (hseq : q.byAccountSeq.lookup (entry.account,entry.sequence)=none) :
    (∃ e, q.acceptEntry entry=(.error e,q)) ∨ q.Fits entry := by
  by_cases hsize : q.maxSize ≤ q.len
  · exact .inl ⟨_,if_pos hsize⟩
  · by_cases hdepth : maxAccountQueueDepth ≤ (q.accountTxs entry.account).length
    · exact .inl ⟨.accountQueueFull,by rw [acceptEntry,if_neg hsize,if_pos hdepth]⟩
    · exact .inr ⟨hhash,hseq,Nat.not_le.mp hsize,Nat.not_le.mp hdepth⟩

theorem Consistent.fits_dropReplaced (h : q.Consistent) (hhash : q.byHash.lookup entry.hash=none)
    {old : QueueEntry} (hold : q.Queued old) (haccount : old.account=entry.account)
    (hsequence : old.sequence=entry.sequence) : (q.dropReplaced old.hash).Fits entry := by
  have hmem : old.hash∈q.accountTxs entry.account := (h.account _ _).mpr ⟨old,hold,rfl,haccount⟩
  constructor
  · show (q.remove old.hash).2.byHash.lookup entry.hash=none
    rw [lookup_remove,hhash,ite_self]
  · show (q.remove old.hash).2.byAccountSeq.lookup (entry.account,entry.sequence)=none
    rw [remove_eq hold,HashMap.lookup_erase_eq,haccount,hsequence,if_pos rfl]
  · show (q.remove old.hash).2.len < (q.remove old.hash).2.maxSize
    have := len_remove hold
    have := h.size
    rw [maxSize_remove]
    omega
  · show ((q.remove old.hash).2.accountTxs entry.account).length < maxAccountQueueDepth
    rw [accountTxs_remove hold,if_pos haccount.symm]
    have hlt :
      ((q.accountTxs entry.account).filter (· ≠ old.hash)).length < (q.accountTxs
      entry.account).length :=
      length_filter_lt_length_iff_exists.mpr ⟨old.hash,hmem,by simp⟩
    exact hlt.trans_le (h.depth _)

/-- Everything that a submission to a consistent queue can do: it leaves the queue as it is, or it
puts the entry into a consistent queue, in which the same fee levels are free for it. -/
theorem Consistent.submit_cases (h : q.Consistent) (entry : QueueEntry) :
    (∃ e, q.submit entry=(.error e,q)) ∨
      ∃ q' : TxQueue, q'.Consistent ∧ q'.Fits entry ∧ q.submit entry=(.ok (),q'.enqueue entry) ∧
        (q'.FreeLevel entry ↔ q.FreeLevel entry) := by
  unfold submit
  split
  · exact .inl ⟨_,rfl⟩
  rename_i hnew
  have hhash : q.byHash.lookup entry.hash=none := by simpa using hnew
  split
  · rename_i hseq
    rcases acceptEntry_cases hhash hseq with herror | hfits
    · exact .inl herror
    · exact .inr ⟨q,h,hfits,acceptEntry_of_fits hfits,Iff.rfl⟩
  · rename_i existingHash hseq
    obtain ⟨old,hold,rfl,haccount,hsequence⟩ := (h.accountSeq _ _ _).mp hseq
    rw [hold]
    dsimp only
    split
    · exact .inl ⟨_,rfl⟩
    rename_i hfee
    have hfits := h.fits_dropReplaced hhash hold haccount hsequence
    refine .inr
      ⟨q.dropReplaced old.hash,(h.remove old.hash).withMetrics _,hfits,acceptEntry_of_fits hfits,?_⟩
    constructor
    · intro hfree e he heq
      -- the replaced entry pays less, so that it is not the one of this level
      have hne : e.hash≠old.hash := fun hsame => by
        rw [he.unique hold hsame] at heq
        omega
      exact hfree e (queued_remove.mpr ⟨he,hne⟩) heq
    · intro hfree e he
      exact hfree e (queued_remove.mp he).1

end

/-! ## What the queue hands out -/

/-- The queue is consistent, `peek` returns an entry of the highest fee level, and `drain_for_retry`
returns every entry once, those with higher fee levels first. -/
structure Delivers (q : TxQueue) : Prop where
  consistent : q.Consistent
  peeks : ∀ e, q.Queued e → ∃ top, q.peek=some top ∧ q.Queued top ∧ ∀ e, q.Queued e →
    e.feeLevel ≤ top.feeLevel
  drainsOnce : q.drainForRetry.1.Nodup
  drainsAll : ∀ e, e∈q.drainForRetry.1 ↔ q.Queued e
  drainsByFee : q.drainForRetry.1.Pairwise fun e e' => e'.feeLevel ≤ e.feeLevel

theorem Consistent.entry_of_mem (h : q.Consistent) {x : ℕᵒᵈ × Hash256} (hx : x∈q.byFee.entries)
    (he : q.byHash.lookup x.2=some e) : e.feeLevel=x.1.ofDual := by
  obtain ⟨e',hq,hhash,hlevel⟩ := (h.fee x.1.ofDual x.2).mp hx
  rw [← hhash,hq] at he
  rw [← Option.some.inj he,hlevel]

theorem mem_drained (h : q.Consistent) : e∈q.drainForRetry.1 ↔ q.Queued e := by
  simp only [drainForRetry,SortedMap.values,mem_filterMap,mem_map]
  constructor
  · rintro ⟨k,-,hk⟩
    exact (h.queued hk).1
  · intro he
    exact ⟨e.hash,⟨_,(h.fee e.feeLevel e.hash).mpr ⟨e,he,rfl,rfl⟩,rfl⟩,he⟩

theorem Consistent.delivers (h : q.Consistent) : q.Delivers := by
  refine ⟨h,fun e he => ?_,?_,fun e => mem_drained h,?_⟩
  · cases hfirst : q.byFee.first with
    | none =>
      have hmem := (h.fee e.feeLevel e.hash).mpr ⟨e,he,rfl,rfl⟩
      rw [SortedMap.first,head?_eq_none_iff] at hfirst
      rw [hfirst] at hmem
      cases hmem
    | some x =>
      obtain ⟨top,htop,hhash,hlevel⟩ := (h.fee x.1.ofDual x.2).mp (mem_of_mem_head? hfirst)
      refine ⟨top,?_,htop,fun e' he' => ?_⟩
      · rw [peek,hfirst,Option.bind_some,← hhash]
        exact htop
      · have hle := SortedMap.first_le hfirst ((h.fee e'.feeLevel e'.hash).mpr ⟨e',he',rfl,rfl⟩)
        rw [hlevel]
        exact hle
  · -- a hash has one fee level, and an entry one hash
    have hvalues : q.byFee.values.Nodup := by
      refine Nodup.map_on (fun x hx y hy hxy => ?_) (Nodup.of_map (·.1) q.byFee.nodup_keys)
      obtain ⟨e,he,hhash,hlevel⟩ := (h.fee x.1.ofDual x.2).mp hx
      obtain ⟨e',he',hhash',hlevel'⟩ := (h.fee y.1.ofDual y.2).mp hy
      have heq := he.unique he' (hhash.trans (hxy.trans hhash'.symm))
      exact Prod.ext (OrderDual.ofDual.injective (hlevel.symm.trans (heq ▸ hlevel'))) hxy
    refine hvalues.filterMap fun k k' e hk hk' => ?_
    exact (h.hash k e hk).symm.trans (h.hash k' e hk')
  · rw [drainForRetry,SortedMap.values,filterMap_map,pairwise_filterMap]
    refine q.byFee.sorted.imp_of_mem fun {x y} hx hy hlt e he e' he' => ?_
    rw [h.entry_of_mem hx he,h.entry_of_mem hy he']
    exact le_of_lt hlt

/-! ## Runs -/

inductive QueueCall
  | submit (entry : QueueEntry)
  | remove (hash : Hash256)
  | removeIf (shouldRemove : Hash256 → Bool)
  | removeExpired (currentLedgerSeq : ℕ)

def call (q : TxQueue) : QueueCall → TxQueue
  | .submit entry => (q.submit entry).2
  | .remove hash => (q.remove hash).2
  | .removeIf shouldRemove => q.removeIf shouldRemove
  | .removeExpired currentLedgerSeq => q.removeExpired currentLedgerSeq

/-- After the call the queue delivers all that is queued, and a submission that is refused has
changed nothing. -/
structure LosesNothing (q : TxQueue) (c : QueueCall) : Prop where
  delivers : (q.call c).Delivers
  refused : ∀ entry e, c=.submit entry → (q.submit entry).1=.error e → ∀ x, (q.call c).Queued x ↔
    q.Queued x

/-- A submission that is accepted has a fee level of its own. -/
def OwnLevel (q : TxQueue) (c : QueueCall) : Prop :=
  ∀ entry, c=.submit entry → (q.submit entry).1=.ok () → q.FreeLevel entry

theorem losesNothing_iff (h : q.Consistent) (c : QueueCall) : q.LosesNothing c ↔ q.OwnLevel c := by
  have hother : (∀ entry, c≠.submit entry) → (q.call c).Consistent →
    (q.LosesNothing c ↔ q.OwnLevel c) := by
    intro hc hcons
    exact ⟨fun _ entry heq => (hc entry heq).elim,fun _ =>
      ⟨hcons.delivers,fun entry _ heq => (hc entry heq).elim⟩⟩
  cases c with
  | submit entry =>
    obtain ⟨e,hsubmit⟩ | ⟨q',hq',hfits,hsubmit,hfree⟩ := h.submit_cases entry
    · have hcall : q.call (.submit entry)=q := by rw [call,hsubmit]
      constructor
      · rintro - entry' heq hok
        cases heq
        rw [hsubmit] at hok
        cases hok
      · intro _
        refine ⟨?_,fun _ _ _ _ x => by rw [hcall]⟩
        rw [hcall]
        exact h.delivers
    · have hcall : q.call (.submit entry)=q'.enqueue entry := by rw [call,hsubmit]
      constructor
      · rintro ⟨hdelivers,-⟩ entry' heq -
        cases heq
        rw [hcall] at hdelivers
        exact hfree.mp ((hq'.enqueue_iff hfits).mp hdelivers.consistent)
      · intro hown
        have hlevel := hown entry rfl (by rw [hsubmit])
        refine ⟨?_,fun entry' e heq herror => ?_⟩
        · rw [hcall]
          exact ((hq'.enqueue_iff hfits).mpr (hfree.mpr hlevel)).delivers
        · cases heq
          rw [hsubmit] at herror
          cases herror
  | remove hash => exact hother (fun _ heq => nomatch heq) (h.remove hash)
  | removeIf shouldRemove => exact hother (fun _ heq => nomatch heq) (h.removeAll _)
  | removeExpired seq => exact hother (fun _ heq => nomatch heq) ((h.removeAll _).withMetrics _)

/-- A queue loses nothing along a sequence of calls if and only if no submission is accepted whose
fee level is that of an entry in the queue. -/
theorem queue_loses_nothing_iff (n : ℕ) (calls : List QueueCall) :
    Along call LosesNothing (new n) calls ↔ Along call OwnLevel (new n) calls :=
  along_congr Consistent (fun _ => True) (fun _ c h _ => losesNothing_iff h c)
    (fun _ c h _ hown => ((losesNothing_iff h c).mpr hown).delivers.consistent)
      (consistent_new n) fun _ _ => trivial

def sampleEntry (hash : ℕ) (account : String) (feeLevel : ℕ) : QueueEntry :=
  ⟨.ofNat hash,.null,feeLevel,account,1,none,true⟩

def sampleCalls : List QueueCall :=
    [.submit (sampleEntry 1 "alice" 256),.submit (sampleEntry 2 "bob" 256)]

/-- The first entry is still queued, but not in the index by fee level: draining returns the second
one only. Once the second one is removed, `peek` sees nothing and draining loses the first one. -/
theorem equal_levels_lose_entry :
    (sampleCalls.foldl call (new 5)).len=2 ∧ ¬ Along call LosesNothing (new 5) sampleCalls ∧
      ((sampleCalls.foldl call (new 5)).call (.remove (.ofNat 2))).len=1 ∧
      ((sampleCalls.foldl call (new 5)).call (.remove (.ofNat 2))).peek.isNone ∧
      ((sampleCalls.foldl call (new 5)).call (.remove (.ofNat 2))).drainForRetry.1.length=0 := by
  have hdrained : (sampleCalls.foldl call (new 5)).drainForRetry.1.map (·.hash)=[.ofNat 2] := by
    decide
  have hfirst : ((sampleCalls.foldl call (new 5)).byHash.lookup (.ofNat 1)).map (·.hash) =
      some (.ofNat 1) := by
    decide
  refine ⟨by decide,?_,by decide,by decide,by decide⟩
  rintro ⟨-,⟨hdelivers,-⟩,-⟩
  obtain ⟨e,he,hhash⟩ := Option.map_eq_some_iff.mp hfirst
  have hqueued : (sampleCalls.foldl call (new 5)).Queued e := by rw [Queued,hhash,he]
  have hmem := mem_map_of_mem (f := (·.hash)) ((hdelivers.drainsAll e).mpr hqueued)
  rw [hhash] at hmem
  have hnot : Hash256.ofNat 1∉(sampleCalls.foldl call (new 5)).drainForRetry.1.map (·.hash) := by
    rw [hdrained]
    decide
  exact hnot hmem

end TxQueue

end Rxrpl.Txq
