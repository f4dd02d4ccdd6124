import Rxrpl.EntryKeys
import Rxrpl.InvariantChecks
import Rxrpl.KeyedSum
import Rxrpl.TxFates

/-!
# What the invariant checks say about XRP

No XRP is created when the account roots hold no more than before, apart from what escrows and
payment channels have released. None of the default checks adds up balances: of the balance of a
written account root they see only that it is in range, so that any other balance in range gets the
same verdict.
-/

namespace Rxrpl.Tx

open Finset

noncomputable instance : Fintype Hash256 :=
  haveI : Finite Hash256 :=
    Finite.of_injective (fun h : Hash256 => fun i : Fin 32 => (h.asBytes.getD i 0).toFin)
      fun h h' he => by
      apply Hash256.ext
      apply List.ext_getElem (by rw [h.length_asBytes,h'.length_asBytes])
      intro i hi hi'
      have hb := congrFun he ⟨i,by rwa [h.length_asBytes] at hi⟩
      rw [UInt8.toFin_inj,List.getD_eq_getElem _ _ hi,List.getD_eq_getElem _ _ hi'] at hb
      exact hb
  Fintype.ofFinite _

/-! ## The XRP in an entry -/

def accountDrops : Data → ℕ
  | .json v => if entryType v=some "AccountRoot" then getBalance v else 0
  | .raw _ => 0

/-- The XRP that an escrow or payment channel holds back. -/
def lockedDrops : Data → ℕ
  | .json v =>
    if entryType v=some "Escrow" then (getXrpAmount v).getD 0
    else if entryType v=some "PayChannel" then (getXrpAmount v).getD 0-getBalance v
    else 0
  | .raw _ => 0

noncomputable def released (before after : Hash256 → Option Data) : ℕ :=
  ∑ k, ((before k).elim 0 lockedDrops-(after k).elim 0 lockedDrops)

/-- The account roots gain no more than is released, the destroyed drops counted in. -/
def NoXrpCreated (below : ReadView) (c : SandboxChanges) : Prop :=
  KeyedSum.total (fun _ => accountDrops) (c.read below)+c.destroyedDrops ≤
    KeyedSum.total (fun _ => accountDrops) below.read+released below.read (c.read below)

/-! ## Balances that the checks accept -/

/-- An account root with a balance in range. -/
def holdsXrp (v : Json) : Bool :=
  entryType v=some "AccountRoot" && (strField v "Balance").any fun s =>
    !startsWithMinus s && (parseU64 s).any (· ≤ maxXrpDrops)

/-- Another balance for such an account root. -/
def withBalance (drops : ℕ) : Data → Data
  | .json v => .json (if holdsXrp v then setBalance v drops else v)
  | .raw bytes => .raw bytes

def rebalance (b : Hash256 → ℕ) (es : Entries) : Entries := es.map fun e =>
    ⟨e.1,withBalance (b e.1) e.2⟩

namespace SandboxChanges

/-- The changes with other balances in the account roots that they write. -/
def withBalances (c : SandboxChanges) (b : Hash256 → ℕ) : SandboxChanges :=
  { c with
    inserts := c.inserts.filterMap fun k d => some (withBalance (b k) d)
    updates := c.updates.filterMap fun k d => some (withBalance (b k) d) }

/-- An account root whose balance is in range is inserted or updated. -/
def WritesXrp (c : SandboxChanges) : Prop :=
  ∃ k v, (c.updates.lookup k=some (.json v) ∨ c.inserts.lookup k=some (.json v)) ∧ holdsXrp v

end SandboxChanges

theorem not_startsWithMinus_natString (n : ℕ) : startsWithMinus (natString n)=false := by
  have hdigit : ∀ c∈DecimalText.natText n, c≠45 := by
    intro c hc hminus
    have := DecimalText.isDigit_of_mem_natText hc
    rw [hminus] at this
    exact absurd this (by decide)
  have hlt : ∀ c∈DecimalText.natText n, c < 128 := fun _ hc => Codec.natText_lt hc
  have hchar : ∀ m < 128, Char.ofNat m = '-' → m=45 := by decide
  cases htext : DecimalText.natText n with
  | nil => exact absurd htext (DecimalText.natText_ne_nil n)
  | cons c cs =>
    have hc : c∈DecimalText.natText n := by simp [htext]
    simp only [startsWithMinus,natString,ascii,htext,List.map_cons,String.toList_ofList,
      List.head?_cons,decide_eq_false_iff_not,Option.some.injEq]
    intro hminus
    exact hdigit c hc
      (UInt8.toNat_inj.mp (hchar c.toNat (by simpa [UInt8.lt_iff_toNat_lt] using hlt c hc) hminus))

section

variable {b : Hash256 → ℕ} {v : Json}

theorem holdsXrp_iff : holdsXrp v ↔ entryType v=some "AccountRoot" ∧
    ∃ s drops, strField v "Balance"=some s ∧
    startsWithMinus s=false ∧ parseU64 s=some drops ∧ drops ≤ maxXrpDrops := by
  cases h : strField v "Balance" with
  | none => simp [holdsXrp,h]
  | some s => cases hs : parseU64 s <;> simp [holdsXrp,h,hs]

@[simp] theorem entryType_setBalance (v : Json) (n : ℕ) :
    entryType (setBalance v n)=entryType v := by
  simp [entryType,setBalance]

theorem forEntries_rebalance {f : Hash256 → Json → Except String Unit}
    (hf : ∀ key v, holdsXrp v → f key (setBalance v (b key))=f key v) (es : Entries) :
    forEntries f (rebalance b es)=forEntries f es := by
  induction es with
  | nil => rfl
  | cons e es ih =>
    obtain ⟨key,d⟩ := e
    cases d with
    | raw bytes => exact ih
    | json v =>
      have hcons : forEntries f (rebalance b (⟨key,.json v⟩::es)) =
          f key (if holdsXrp v then setBalance v (b key) else v) >>= fun _ =>
            forEntries f (rebalance b es) := rfl
      rw [hcons,ih]
      split
      · rename_i h
        rw [hf key v h]
        rfl
      · rfl

theorem forType_rebalance {type : String} (htype : type≠"AccountRoot")
    (f : Hash256 → Json → Except String Unit) (es : Entries) :
    forType type f (rebalance b es)=forType type f es := by
  apply forEntries_rebalance
  intro key v h
  have hroot := (holdsXrp_iff.mp h).1
  simp [hroot,Ne.symm htype]

theorem forType_root_rebalance {f : Hash256 → Json → Except String Unit}
    (hf : ∀ key v, holdsXrp v → f key (setBalance v (b key))=f key v) (es : Entries) :
    forType "AccountRoot" f (rebalance b es)=forType "AccountRoot" f es := by
  apply forEntries_rebalance
  intro key v h
  simp only [entryType_setBalance,hf key v h]

theorem forM_rebalance {f : (Σ _ : Hash256, Data) → Except String Unit}
    (hf : ∀ key v, holdsXrp v → f ⟨key,.json (setBalance v (b key))⟩=f ⟨key,.json v⟩)
      (es : Entries) :
    (rebalance b es).forM f=es.forM f := by
  induction es with
  | nil => rfl
  | cons e es ih =>
    obtain ⟨key,d⟩ := e
    have hhead : f ⟨key,withBalance (b key) d⟩=f ⟨key,d⟩ := by
      cases d with
      | raw bytes => rfl
      | json v =>
        simp only [withBalance]
        split
        · rename_i h
          exact hf key v h
        · rfl
    calc (f ⟨key,withBalance (b key) d⟩ >>= fun _ => (rebalance b es).forM f)
        = f ⟨key,d⟩ >>= fun _ => es.forM f := by rw [hhead,ih]

variable (c : SandboxChanges)

theorem entries_filterMap_withBalance (m : HashMap Hash256 Data) :
    (m.filterMap fun k d => some (withBalance (b k) d)).entries=rebalance b m.entries := by
  simp [HashMap.filterMap,rebalance]

theorem updatesInserts_withBalances :
    (c.withBalances b).updatesInserts=rebalance b c.updatesInserts := by
  simp [SandboxChanges.updatesInserts,SandboxChanges.withBalances,entries_filterMap_withBalance,
    rebalance]

theorem insertsUpdates_withBalances :
    (c.withBalances b).insertsUpdates=rebalance b c.insertsUpdates := by
  simp [SandboxChanges.insertsUpdates,SandboxChanges.withBalances,entries_filterMap_withBalance,
    rebalance]

theorem updates_withBalances : (c.withBalances b).updates.entries=rebalance b c.updates.entries :=
  entries_filterMap_withBalance _

theorem inserts_withBalances : (c.withBalances b).inserts.entries=rebalance b c.inserts.entries :=
  entries_filterMap_withBalance _

end

/-- A check that looks no further at a balance than whether it is in range. -/
def IgnoresBalances (check : InvariantCheck) : Prop :=
  ∀ (c : SandboxChanges) (b : Hash256 → ℕ), (∀ k, b k ≤ maxXrpDrops) → ∀ dropsBefore dropsAfter tx,
    check.check (c.withBalances b) dropsBefore dropsAfter tx=check.check c dropsBefore dropsAfter tx

section

variable {b : Hash256 → ℕ}

theorem parseU64_balance (hb : ∀ k, b k ≤ maxXrpDrops) (k : Hash256) :
    parseU64 (natString (b k))=some (b k) :=
  parseU64_natString (lt_of_le_of_lt (hb k) (by decide))

theorem xrpBalanceRange_ignores : IgnoresBalances xrpBalanceRange := by
  intro c b hb _ _ _
  simp only [xrpBalanceRange,updatesInserts_withBalances]
  apply forType_root_rebalance
  intro key v h
  obtain ⟨-,s,drops,hs,hminus,hdrops,hle⟩ := holdsXrp_iff.mp h
  simp [setBalance,Json.asStr,not_startsWithMinus_natString,parseU64_balance hb,
    Nat.not_lt.mpr (hb key),hs,hminus,hdrops,
    Nat.not_lt.mpr hle]

theorem noNegativeBalance_ignores : IgnoresBalances noNegativeBalance := by
  intro c b _ _ _ _
  simp only [noNegativeBalance,updatesInserts_withBalances]
  apply forType_root_rebalance
  intro key v h
  obtain ⟨-,s,drops,hs,hminus,-,-⟩ := holdsXrp_iff.mp h
  simp [setBalance,Json.asStr,not_startsWithMinus_natString,hs,hminus]

theorem validLedgerEntryType_ignores (lib : CheckLibrary) :
    IgnoresBalances (validLedgerEntryType lib) := by
  intro c b _ _ _ _
  simp only [validLedgerEntryType,inserts_withBalances]
  apply forM_rebalance
  intro key v h
  simp [Data.fromSlice]

theorem ledgerEntryTypesMatch_ignores (lib : CheckLibrary) :
    IgnoresBalances (ledgerEntryTypesMatch lib) := by
  intro c b _ _ _ _
  simp only [ledgerEntryTypesMatch,updates_withBalances]
  apply forM_rebalance
  intro key v h
  have horiginals : (c.withBalances b).originals=c.originals := rfl
  rw [horiginals]
  cases c.originals.lookup key with
  | none => rfl
  | some original => cases original <;> simp [Data.fromSlice]

theorem validNewAccountRoot_ignores : IgnoresBalances validNewAccountRoot := by
  intro c b hb _ _ _
  simp only [validNewAccountRoot,inserts_withBalances]
  apply forType_root_rebalance
  intro key v h
  obtain ⟨-,s,drops,hs,-,hdrops,-⟩ := holdsXrp_iff.mp h
  simp [setBalance,Json.asStr,parseU64_balance hb,hs,hdrops]

theorem nftokenCountTracking_ignores : IgnoresBalances nftokenCountTracking := by
  intro c b _ _ _ tx
  simp only [nftokenCountTracking,updates_withBalances]
  apply forType_root_rebalance
  intro key v h
  simp [setBalance,checkCounter,SandboxChanges.withBalances]

theorem validClawback_ignores (lib : CheckLibrary) : IgnoresBalances (validClawback lib) := by
  intro c b _ _ _ tx
  have hother : ∀ v, holdsXrp v → isTrustLineOrMptoken v=false := by
    intro v h
    simp [isTrustLineOrMptoken,(holdsXrp_iff.mp h).1]
  have hsame : ∀ v n, isTrustLineOrMptoken (setBalance v n)=isTrustLineOrMptoken v := by
    intro v n
    simp [isTrustLineOrMptoken]
  have hany :
    ((c.withBalances b).updates.entries.any fun e => e.2.fromSlice.any isTrustLineOrMptoken) =
      c.updates.entries.any fun e => e.2.fromSlice.any isTrustLineOrMptoken := by
    rw [updates_withBalances,rebalance,List.any_map]
    congr 1
    funext e
    obtain ⟨key,d⟩ := e
    cases d with
    | raw bytes => rfl
    | json v =>
      by_cases h : holdsXrp v <;> simp [withBalance,Data.fromSlice,h,hsame]
  simp only [validClawback,hany]
  rw [updates_withBalances,forEntries_rebalance]
  · rfl
  · intro key v h
    simp [hsame,hother v h]

theorem validMptIssuance_ignores : IgnoresBalances validMptIssuance := by
  intro c b _ _ _ tx
  simp only [validMptIssuance,inserts_withBalances]
  rw [forEntries_rebalance]
  · rfl
  · intro key v h
    simp only [checkLifecycle,entryType_setBalance]

theorem validLoan_ignores : IgnoresBalances validLoan := by
  intro c b _ _ _ _
  simp only [validLoan,updatesInserts_withBalances]
  apply forEntries_rebalance
  intro key v h
  simp [(holdsXrp_iff.mp h).1]

theorem defaultInvariantChecks_ignore (crypto : Crypto) (lib : CheckLibrary) :
    ∀ check∈defaultInvariantChecks crypto lib, IgnoresBalances check := by
  simp only [defaultInvariantChecks,List.forall_mem_cons,List.not_mem_nil,false_imp_iff,
    implies_true,and_true]
  refine ⟨fun _ _ _ _ _ _ => rfl,xrpBalanceRange_ignores,noNegativeBalance_ignores,
    fun _ _ _ _ _ _ => rfl,
    validLedgerEntryType_ignores lib,ledgerEntryTypesMatch_ignores lib,?_,?_,?_,
      validNewAccountRoot_ignores,
    fun _ _ _ _ _ _ => rfl,?_,nftokenCountTracking_ignores,?_,?_,validClawback_ignores lib,?_,
      validMptIssuance_ignores,
    validLoan_ignores,?_⟩ <;> intro c b _ _ _ _
  -- the others go over entries that are no account roots
  · simp only [noXrpTrustLines,insertsUpdates_withBalances,
      forType_rebalance (show "RippleState"≠"AccountRoot" by decide)]
  · simp only [noBadOffers,insertsUpdates_withBalances,
      forType_rebalance (show "Offer"≠"AccountRoot" by decide)]
  · simp only [noZeroBalanceEntries,insertsUpdates_withBalances,
      forType_rebalance (show "RippleState"≠"AccountRoot" by decide)]
  · simp only [nftokenPageBounds,insertsUpdates_withBalances,
      forType_rebalance (show "NFTokenPage"≠"AccountRoot" by decide)]
  · simp only [noDeepFreezeWithoutFreeze,updatesInserts_withBalances,
      forType_rebalance (show "RippleState"≠"AccountRoot" by decide)]
  · simp only [noZeroEscrow,insertsUpdates_withBalances,
      forType_rebalance (show "Escrow"≠"AccountRoot" by decide)]
  · simp only [validAmm,updatesInserts_withBalances,
      forType_rebalance (show "AMM"≠"AccountRoot" by decide)]
  · simp only [validPermissionedDomain,insertsUpdates_withBalances,
      forType_rebalance (show "PermissionedDomain"≠"AccountRoot" by decide)]

/-- Other balances in range do not change the verdict of the checks. -/
theorem runInvariantChecks_withBalances {checks : List InvariantCheck}
    (h : ∀ check∈checks, IgnoresBalances check) (c : SandboxChanges) (hb : ∀ k, b k ≤ maxXrpDrops)
    (dropsBefore dropsAfter : ℕ) (tx : Option Json) :
    runInvariantChecks checks (c.withBalances b) dropsBefore dropsAfter tx =
      runInvariantChecks checks c dropsBefore dropsAfter tx := by
  induction checks with
  | nil => rfl
  | cons check checks ih =>
    rw [List.forall_mem_cons] at h
    simp only [runInvariantChecks,h.1 c b hb,ih h.2]

end

section

variable {below : ReadView} {c : SandboxChanges} {b : Hash256 → ℕ}

theorem lookup_withBalance (m : HashMap Hash256 Data) (k : Hash256) :
    (m.filterMap fun k d => some (withBalance (b k) d)).lookup k =
      (m.lookup k).map (withBalance (b k)) := by
  apply Option.ext
  intro d
  rw [← HashMap.mem_entries_iff,HashMap.mem_filterMap_entries,Option.map_eq_some_iff]
  simp only [HashMap.mem_entries_iff,Option.some.injEq]

theorem read_withBalances (k : Hash256) : (c.withBalances b).read below k =
    (⟨(c.inserts.lookup k).map (withBalance (b k)),(c.updates.lookup k).map (withBalance (b k)),
      c.deletes.lookup k,
      c.originals.lookup k⟩ : Row).read (below.read k) := by
  rw [SandboxChanges.read_eq]
  congr 1
  simp [SandboxChanges.row,SandboxChanges.withBalances,lookup_withBalance]

theorem map_withBalance_eq {o : Option Data} {n : ℕ}
    (h : ∀ v, o=some (.json v) → holdsXrp v=false) : o.map (withBalance n)=o := by
  obtain - | (v | bytes) := o
  · rfl
  · simp [withBalance,h v rfl]
  · rfl

/-- Where no account root is written, there is no balance to set. -/
theorem read_withBalances_eq (h : ¬ c.WritesXrp) : (c.withBalances b).read below=c.read below := by
  funext k
  rw [read_withBalances,SandboxChanges.read_eq,map_withBalance_eq,map_withBalance_eq]
  · rfl
  · intro v hv
    by_contra hx
    exact h ⟨k,v,.inl hv,by simpa using hx⟩
  · intro v hv
    by_contra hx
    exact h ⟨k,v,.inr hv,by simpa using hx⟩

theorem noXrpCreated_withBalances (h : ¬ c.WritesXrp) : NoXrpCreated below (c.withBalances b) ↔
    NoXrpCreated below c := by
  rw [NoXrpCreated,NoXrpCreated,read_withBalances_eq h]
  rfl

/-- A written account root has the balance that is set. -/
theorem exists_accountDrops_withBalances (hv : c.Valid below) (h : c.WritesXrp)
    (hb : ∀ k, b k ≤ maxXrpDrops) :
    ∃ k, ((c.withBalances b).read below k).elim 0 accountDrops=b k := by
  obtain ⟨k,v,hwritten,hx⟩ := h
  refine ⟨k,?_⟩
  have hroot := (holdsXrp_iff.mp hx).1
  have hdrops : accountDrops (withBalance (b k) (.json v))=b k := by
    simp [accountDrops,withBalance,hx,hroot,
      getBalance_setBalance v (lt_of_le_of_lt (hb k) (by decide))]
  obtain ⟨hi,hu,-,-⟩ := hv k
  rw [read_withBalances,Row.read]
  obtain hupd | hins := hwritten
  · obtain ⟨-,-,hdel⟩ := hu (by simp [SandboxChanges.row,hupd])
    simp only [SandboxChanges.row] at hdel
    simpa [hupd,hdel] using hdrops
  · obtain ⟨-,hupd,hdel⟩ := hi (by simp [SandboxChanges.row,hins])
    simp only [SandboxChanges.row] at hupd hdel
    simpa [hins,hupd,hdel] using hdrops

theorem released_le (below : ReadView) (after : Hash256 → Option Data) :
    released below.read after ≤ KeyedSum.total (fun _ => lockedDrops) below.read :=
  sum_le_sum fun _ _ => Nat.sub_le _ _

end

def integerLibrary : CheckLibrary where
  F64 := ℤ
  parse := fun s => Codec.parseI64 (utf8 s)
  display := fun n => ascii (Codec.intText n)
  zero := 0
  epsilon := 0
  abs := fun n => |n|
  sqrt := fun n => Nat.sqrt n.toNat
  add := fun a b => a+b
  mul := fun a b => a*b
  lt := fun a b => decide (a < b)
  le := fun a b => decide (a ≤ b)
  eq := fun a b => decide (a=b)
  parseError := fun _ => ""

private def printing (balance : String) : Transactor where
  preflight := fun _ _ _ => .ok ()
  preclaim := fun _ _ _ => .ok ()
  apply := fun _ _ _ =>
    ViewM.update (Keylet.account paddedCrypto (party 1)) (accountRoot 1 balance 8 0) >>= fun _ =>
      pure .tesSuccess

private def guardedEngine (balance : String) : TxEngine :=
  ⟨fun _ => some (printing balance),defaultInvariantChecks paddedCrypto integerLibrary,false⟩

private def accountSet : Json :=
  .obj [("TransactionType",.str "AccountSet"),("Account",.str (address 1)),("Fee",.str "10"),
    ("Sequence",.int 7)]

private def oneAccount : Ledger :=
    openLedger 0 [(Keylet.account paddedCrypto (party 1),accountRoot 1 "1000" 7 0)]

private def printed (balance : String) : Option (Sandbox (oneAccount.view smallFees)) :=
  (execute plainEnv (guardedEngine balance) (printing balance) .accountSet accountSet
    (oneAccount.view smallFees) noRules
    smallFees false none).toOption.map (·.sandbox)

private theorem total_oneAccount (w : Data → ℕ) :
    KeyedSum.total (fun _ => w) (oneAccount.view smallFees).read =
    oneAccount.stateMap.sumBy fun _ => w :=
  (HashMap.sumBy_eq_total _ _).symm

end Rxrpl.Tx
