import Rxrpl.LockEffects

/-!
# The release of an escrow

The amount of an escrow leaves it once: to the destination between the two times and, if there is a
condition, against a fulfillment, or back to the owner when it may be cancelled. The transactors
look neither at the upper time nor at the fulfillment, and a claim on a payment channel that names
an escrow draws on it without an end. The rules hold exactly as long as none of this happens.
-/

namespace Rxrpl.Tx

open Codec (AccountId)
open InputRun

/-! ## What has been drawn -/

/-- The balance that claims have raised on an entry. -/
def drawnOf : Option Data → Option ℕ
  | none => none
  | some (.json entry) => some (getBalance entry)
  | some (.raw _) => some 0

/-- What has been drawn from the entry at a key, while it is there. -/
def drawn (k : Hash256) (l : Ledger) : Option ℕ := drawnOf (l.read k)

theorem Recorded.drawnOf_eq {d d' : Option Data} (h : Recorded d d') : drawnOf d'=drawnOf d := by
  obtain ⟨rfl,rfl⟩ | ⟨e,e',rfl,rfl,rfl | ⟨v,v',rfl,rfl,hagree⟩⟩ := h
  · rfl
  · rfl
  · exact congrArg some (getBalance_congr (hagree "Balance" (by decide)))

variable {channel claimed tx : Json} {l : Ledger}

theorem claimBalance_drawn {chAmount claimAmount : ℕ}
    (h : claimBalance tx channel chAmount=.ok (claimed,claimAmount)) (hlt : chAmount < 2^64) :
    getBalance channel ≤ getBalance claimed ∧ (getBalance channel < getBalance claimed ↔
      ∃ newBalance, getU64StrField tx "Balance"=some newBalance ∧
        getBalance channel < newBalance) := by
  unfold claimBalance at h
  cases hfield : getU64StrField tx "Balance" with
  | none =>
    rw [hfield] at h
    cases h
    simp
  | some newBalance =>
    rw [hfield] at h
    dsimp only at h
    split at h
    · cases h
    split at h
    · cases h
    rename_i hle hge
    cases h
    have hbalance : getBalance (channel.set "Balance" (.str (natString newBalance)))=newBalance :=
      getBalance_setBalance channel (by omega)
    rw [hbalance]
    refine ⟨by omega,fun hraise => ⟨newBalance,rfl,hraise⟩,?_⟩
    rintro ⟨n,hn,hraise⟩
    cases hn
    exact hraise

theorem ClaimMade.drawn {accountStr chSrc : String}
    (h : ClaimMade tx channel claimed accountStr chSrc) :
    getBalance channel ≤ getBalance claimed ∧ (getBalance channel < getBalance claimed ↔
      ∃ newBalance, getU64StrField tx "Balance"=some newBalance ∧
        getBalance channel < newBalance) := by
  obtain ⟨chAmount,claimAmount,hamount,hclaim⟩ := h.claim
  exact claimBalance_drawn hclaim (getXrpAmount_lt hamount)

/-- The destination closes a payment channel, or what it takes for one. -/
def ClosesAtOnce (tx entry : Json) : Prop :=
  getFlags tx &&& tfClose≠0 ∧ strField tx "Account"≠strField entry "Account"

def PaysOut (tx : Json) (txType : TransactionType) (entry : Json) : Prop :=
  match txType with
  | .escrowFinish | .escrowCancel => True
  | .paymentChannelClaim =>
    (∃ newBalance, getU64StrField tx "Balance"=some newBalance ∧ getBalance entry < newBalance) ∨
      ClosesAtOnce tx entry
  | _ => False

theorem getBalance_fundedChannel (tx channel : Json) (chAmount amount : ℕ) :
    getBalance (fundedChannel tx channel chAmount amount)=getBalance channel := by
  refine getBalance_congr ?_
  rw [fundedChannel,get_setOptional_ne (by decide),Json.get_set_ne (by decide)]

theorem getBalance_set_expiration (channel : Json) (x : Json) :
    getBalance (channel.set "Expiration" x)=getBalance channel :=
  getBalance_congr (Json.get_set_ne (by decide) _ _)

section

variable {crypto : Crypto} {tx entry : Json} {now : ℕ} {txType : TransactionType} {d : Option Data}

theorem LockEffect.drawnOf_new (h : LockEffect crypto tx now txType none d) : drawnOf d=some 0 := by
  cases h with
  | escrowCreated haccount hdestination hamount =>
    exact congrArg some (escrowEntry_spec _ _ _ (getXrpAmount_lt hamount) _ _).2.2
  | channelCreated haccount hdestination hamount =>
    exact congrArg some (payChannelEntry_spec _ _ _ (getXrpAmount_lt hamount) _ _).2.2

/-- What is drawn from an entry grows or the entry goes, and it is one of the two if it is paid out.
-/
theorem LockEffect.drawnOf_there (h : LockEffect crypto tx now txType (some (.json entry)) d) :
    (drawnOf d=none ∨ ∃ b ≥ getBalance entry, drawnOf d=some b) ∧
      ((∀ b, drawnOf d=some b → getBalance entry < b) ↔ PaysOut tx txType entry) := by
  -- an entry that stays is paid out if its balance is raised
  have hstays : ∀ {entry' : Json} {P : Prop}, getBalance entry ≤ getBalance entry' →
    (getBalance entry < getBalance entry' ↔ P) →
      (drawnOf (some (.json entry'))=none ∨ ∃ b ≥ getBalance entry,
        drawnOf (some (.json entry'))=some b) ∧
        ((∀ b, drawnOf (some (.json entry'))=some b → getBalance entry < b) ↔ P) := by
    intro entry' P hle hraise
    refine ⟨.inr ⟨_,hle,rfl⟩,fun h => hraise.mp (h _ rfl),fun h b hb => ?_⟩
    cases hb
    exact hraise.mpr h
  cases h with
  | escrowFinished hafter => exact ⟨.inl rfl,fun _ => trivial,fun _ _ h => nomatch h⟩
  | escrowCancelled hfield hafter => exact ⟨.inl rfl,fun _ => trivial,fun _ _ h => nomatch h⟩
  | channelFunded hsource hchAmount hamount =>
    refine hstays (getBalance_fundedChannel ..).ge ?_
    rw [getBalance_fundedChannel]
    exact ⟨fun h => (lt_irrefl _ h).elim,fun h => h.elim⟩
  | claimKept claim hflag =>
    refine hstays claim.drawn.1
      (claim.drawn.2.trans ⟨.inl,fun h => h.resolve_right fun hclose => ?_⟩)
    exact hclose.1 hflag
  | closeRequested claim hflag hsource =>
    refine hstays (by rw [getBalance_set_expiration]; exact claim.drawn.1) ?_
    rw [getBalance_set_expiration]
    refine claim.drawn.2.trans ⟨.inl,fun h => h.resolve_right fun hclose => hclose.2 ?_⟩
    rw [claim.accountField,claim.chSrcField,hsource]
  | channelClosed claim hflag hsource =>
    refine ⟨.inl rfl,fun _ => .inr ⟨hflag,fun h => hsource ?_⟩,fun _ _ h => nomatch h⟩
    rw [claim.accountField,claim.chSrcField] at h
    exact Option.some.inj h

end

/-! ## One transaction -/

section

variable {env : Env} {engine : TxEngine} {k : Hash256} {sub : Submission} {l : Ledger}

theorem metered_drawn (hengine : RunsLocks env engine) (hk : Apart env.crypto k)
    (hsub : Concerns env engine k sub) (hopen : l.isOpen=true) :
    Metered (ledgerStep env engine) (drawn k) l sub := by
  obtain ⟨txType,htype,htarget,hdone⟩ | hrec := concerns_cases hengine hk hsub hopen
  · obtain ⟨d,heffect,hrec⟩ := lock_effect hengine hk hopen htype htarget hdone
    have hnext : drawn k (ledgerStep env engine l sub)=drawnOf d := hrec.drawnOf_eq
    cases hread : l.read k with
    | none =>
      rw [hread] at heffect
      refine ⟨fun _ => .inr (hnext.trans heffect.drawnOf_new),fun b hb => ?_⟩
      rw [drawn,hread] at hb
      cases hb
    | some e =>
      rw [hread] at heffect
      cases e with
      | raw bytes => cases heffect
      | json entry =>
        have hdrawn : drawn k l=some (getBalance entry) := by rw [drawn,hread]; rfl
        refine ⟨fun h => (by rw [hdrawn] at h; cases h),fun b hb => ?_⟩
        cases hdrawn.symm.trans hb
        rw [hnext]
        exact heffect.drawnOf_there.1
  · have hnext : drawn k (ledgerStep env engine l sub)=drawn k l := hrec.drawnOf_eq
    exact ⟨fun h => .inl (hnext.trans h),fun b hb => .inr ⟨b,le_rfl,hnext.trans hb⟩⟩

theorem draws_iff (hengine : RunsLocks env engine) (hk : Apart env.crypto k)
    (hsub : Concerns env engine k sub) (hopen : l.isOpen=true) :
    Draws (ledgerStep env engine) (drawn k) l sub ↔
      ∃ txType entry, Works env engine k l sub txType entry ∧ PaysOut sub.tx txType entry := by
  constructor
  · rintro ⟨b,hb,hraise⟩
    obtain ⟨txType,htype,htarget,hdone⟩ | hrec := concerns_cases hengine hk hsub hopen
    · obtain ⟨d,heffect,hrec⟩ := lock_effect hengine hk hopen htype htarget hdone
      cases hread : l.read k with
      | none =>
        rw [drawn,hread] at hb
        cases hb
      | some e =>
        rw [hread] at heffect
        cases e with
        | raw bytes => cases heffect
        | json entry =>
          have hdrawn : drawn k l=some (getBalance entry) := by rw [drawn,hread]; rfl
          cases hdrawn.symm.trans hb
          refine ⟨txType,entry,⟨htype,htarget,hdone,hread⟩,heffect.drawnOf_there.2.mp fun b hb =>
            ?_⟩
          exact hraise b (hrec.drawnOf_eq.trans hb)
    · have hsame : drawn k (ledgerStep env engine l sub)=drawn k l := hrec.drawnOf_eq
      exact (lt_irrefl b (hraise b (hsame.trans hb))).elim
  · rintro ⟨txType,entry,hworks,hpays⟩
    obtain ⟨d,heffect,hrec⟩ := lock_effect hengine hk hopen hworks.typed hworks.target hworks.done
    rw [hworks.entry] at heffect
    refine ⟨getBalance entry,by rw [drawn,hworks.entry]; rfl,fun b hb => ?_⟩
    exact heffect.drawnOf_there.2.mpr hpays b (hrec.drawnOf_eq.symm.trans hb)

end

/-! ## The rules -/

section

variable (env : Env) (engine : TxEngine) (fulfils : String → String → Prop) (k : Hash256)

/-- An escrow may be finished from its first time on, before its second one, and against a
fulfillment of its condition. -/
structure MayFinish (now : ℕ) (tx escrow : Json) : Prop where
  matured : ∀ t, u64Field escrow "FinishAfter"=some t → t ≤ now
  inTime : ∀ t, u64Field escrow "CancelAfter"=some t → now < t
  fulfilled : ∀ condition, strField escrow "Condition"=some condition →
    ∃ fulfillment, strField tx "Fulfillment"=some fulfillment ∧ fulfils condition fulfillment

/-- An escrow may be cancelled when its second time has come. -/
def MayCancel (now : ℕ) (escrow : Json) : Prop := ∃ t, u64Field escrow "CancelAfter"=some t ∧
    t ≤ now

/-- A finish or a cancel that succeeds was allowed. -/
structure ReleasedByRule (l : Ledger) (sub : Submission) : Prop where
  finish : ∀ escrow, Works env engine k l sub .escrowFinish escrow →
    MayFinish fulfils sub.header.parentCloseTime sub.tx escrow
  cancel : ∀ escrow, Works env engine k l sub .escrowCancel escrow →
    MayCancel sub.header.parentCloseTime escrow

/-- The amount leaves the escrow once, and as the rules have it. -/
structure ReleaseRules (l : Ledger) (subs : List Submission) : Prop where
  once : DrawnOnce (ledgerStep env engine) (drawn k) l subs
  byRule : Along (ledgerStep env engine) (ReleasedByRule env engine fulfils k) l subs

/-- A finish does not come late and brings its fulfillment, and nothing is paid out of an escrow
from which a claim has been paid. -/
structure ReleaseCondition (l : Ledger) (sub : Submission) : Prop where
  inTime : ∀ escrow, Works env engine k l sub .escrowFinish escrow →
    ∀ t, u64Field escrow "CancelAfter"=some t → sub.header.parentCloseTime < t
  fulfilled : ∀ escrow, Works env engine k l sub .escrowFinish escrow →
    ∀ condition, strField escrow "Condition"=some condition →
      ∃ fulfillment, strField sub.tx "Fulfillment"=some fulfillment ∧ fulfils condition fulfillment
  untouched : ∀ txType escrow, Works env engine k l sub txType escrow →
    PaysOut sub.tx txType escrow →
    getBalance escrow=0

variable {env engine fulfils k}

theorem released_iff (hengine : RunsLocks env engine) (hk : Apart env.crypto k) {sub : Submission}
    (hsub : Concerns env engine k sub) {l : Ledger} (hopen : l.isOpen=true) :
    ((Draws (ledgerStep env engine) (drawn k) l sub → drawn k l=some 0) ∧
      ReleasedByRule env engine fulfils k l sub) ↔
      ReleaseCondition env engine fulfils k l sub := by
  have hdrawn : ∀ {txType escrow}, Works env engine k l sub txType escrow →
    drawn k l=some (getBalance escrow) := by
    intro txType escrow hworks
    rw [drawn,hworks.entry]
    rfl
  rw [draws_iff hengine hk hsub hopen]
  constructor
  · rintro ⟨honce,hrule⟩
    refine ⟨fun escrow h => (hrule.finish escrow h).inTime,fun escrow h =>
      (hrule.finish escrow h).fulfilled,?_⟩
    intro txType escrow hworks hpays
    exact Option.some.inj ((hdrawn hworks).symm.trans (honce ⟨txType,escrow,hworks,hpays⟩))
  · rintro ⟨hinTime,hfulfilled,huntouched⟩
    refine ⟨?_,fun escrow h => ?_,fun escrow h => ?_⟩
    · rintro ⟨txType,escrow,hworks,hpays⟩
      rw [hdrawn hworks,huntouched txType escrow hworks hpays]
    · obtain ⟨d,heffect,-⟩ := lock_effect hengine hk hopen h.typed h.target h.done
      rw [h.entry] at heffect
      cases heffect with
      | escrowFinished hafter => exact ⟨hafter,hinTime escrow h,hfulfilled escrow h⟩
    · obtain ⟨d,heffect,-⟩ := lock_effect hengine hk hopen h.typed h.target h.done
      rw [h.entry] at heffect
      cases heffect with
      | escrowCancelled hfield hafter => exact ⟨_,hfield,hafter⟩

end

/-- Along every run from a ledger without the escrow, over transactions on escrows and channels and
over others that leave the escrow alone: the escrow is released by the rules exactly if every finish
of it comes before its second time and brings a fulfillment of its condition, and nothing is paid
out of it after a claim on it as a payment channel. -/
theorem release_rules_iff (env : Env) (engine : TxEngine) (fulfils : String → String → Prop)
    (hsep : env.crypto.Separated) (hengine : RunsLocks env engine) (owner : AccountId) (n : ℕ)
    (hn : n < 2^32) (l : Ledger) (hopen : l.isOpen=true)
    (hnew : l.read (Keylet.escrow env.crypto owner n)=none) (subs : List Submission)
    (hsubs : ∀ sub∈subs, Concerns env engine (Keylet.escrow env.crypto owner n) sub) :
    ReleaseRules env engine fulfils (Keylet.escrow env.crypto owner n) l subs ↔
      Along (ledgerStep env engine)
        (ReleaseCondition env engine fulfils (Keylet.escrow env.crypto owner n)) l subs := by
  have hk := hsep.apart_escrow owner hn
  generalize Keylet.escrow env.crypto owner n=k at hk hnew hsubs ⊢
  have hmetered : Along (ledgerStep env engine) (Metered (ledgerStep env engine) (drawn k)) l
    subs :=
    along_of_along (fun l => l.isOpen=true) (Concerns env engine k)
      (fun l sub hopen hsub _ => ⟨metered_drawn hengine hk hsub hopen,hsub.isOpen hengine hopen⟩)
        hopen hsubs
      (along_true _ l subs)
  have hzero : ∀ b, drawn k l=some b → b=0 := by
    intro b hb
    rw [drawn,hnew] at hb
    cases hb
  have hstep : ReleaseRules env engine fulfils k l subs ↔
    Along (ledgerStep env engine) (fun l sub =>
      (Draws (ledgerStep env engine) (drawn k) l sub → drawn k l=some 0) ∧
        ReleasedByRule env engine fulfils k l sub) l subs := by
    rw [along_and,← (drawn_iff hmetered).1 hzero]
    exact ⟨fun h => ⟨h.once,h.byRule⟩,fun h => ⟨h.1,h.2⟩⟩
  rw [hstep]
  exact along_congr (fun l => l.isOpen=true) (Concerns env engine k)
    (fun l sub hopen hsub => released_iff hengine hk hsub hopen)
      (fun l sub hopen hsub _ => hsub.isOpen hengine hopen) hopen hsubs

/-! ## Runs of two parties -/

private def escrowKey : Hash256 := Keylet.escrow paddedCrypto (party 1) 1

private def escrowStep : Ledger → Submission → Ledger :=
    ledgerStep plainEnv (lockEngine paddedCrypto)

private def heldLedger : Ledger :=
    escrowStep escrowParties (submittedAt 50 (escrowTx [("CancelAfter",.int 200)]))

def entryHas (l : Ledger) (k : Hash256) (p : Json → Bool) : Bool :=
  match l.read k with
  | some (.json entry) => p entry
  | _ => false

theorem exists_of_entryHas {k : Hash256} {p : Json → Bool} (h : entryHas l k p=true) :
    ∃ entry, l.read k=some (.json entry) ∧ p entry=true := by
  unfold entryHas at h
  split at h
  · rename_i entry hread
    exact ⟨entry,hread,h⟩
  · cases h

private theorem works_finish (time : ℕ) {sequence : ℕ} {entry : Json}
    (hread : l.read escrowKey=some (.json entry))
    (htarget : lockTarget paddedCrypto (finishTx sequence) .escrowFinish=some escrowKey)
    (htype : typeOf (finishTx sequence)=some .escrowFinish)
    (hdone : ((submittedAt time (finishTx sequence)).apply plainEnv (lockEngine paddedCrypto)
      l).1.toOption=some .tesSuccess) :
    Works plainEnv (lockEngine paddedCrypto) escrowKey l (submittedAt time (finishTx sequence))
      .escrowFinish entry :=
  ⟨htype,htarget,toOption_eq_some.mp hdone,hread⟩

/-- The escrow has its second time and nothing drawn from it. It can still be finished at time 300,
and it can be claimed in full and then finished. -/
private theorem heldLedger_facts :
    entryHas heldLedger escrowKey (fun entry => u64Field entry "CancelAfter" == some 200 &&
        strField entry "Condition" == none && getBalance entry == 0)=true ∧
      ((submittedAt 300 (finishTx 1)).apply plainEnv (lockEngine paddedCrypto)
        heldLedger).1.toOption=some .tesSuccess ∧
      drawn escrowKey (escrowStep heldLedger (submittedAt 60 claimTx))=some 500 ∧
      drawn escrowKey (escrowStep (escrowStep heldLedger (submittedAt 60 claimTx))
        (submittedAt 150 (finishTx 2)))=none := by
  decide +kernel

private theorem heldLedger_entry : ∃ escrow, heldLedger.read escrowKey=some (.json escrow) ∧
    u64Field escrow "CancelAfter"=some 200 ∧ strField escrow "Condition"=none ∧
      getBalance escrow=0 := by
  obtain ⟨escrow,hread,hfields⟩ := exists_of_entryHas heldLedger_facts.1
  simp only [Bool.and_eq_true,beq_iff_eq] at hfields
  exact ⟨escrow,hread,hfields.1.1,hfields.1.2,hfields.2⟩

/-- An escrow that is finished between its two times. -/
theorem release_in_time :
    ReleaseRules plainEnv (lockEngine paddedCrypto) (fun _ _ => False) escrowKey escrowParties
      [submittedAt 50 (escrowTx [("CancelAfter",.int 200)]),submittedAt 150 (finishTx 1)] := by
  have hcreate : typeOf (escrowTx [("CancelAfter",.int 200)])=some .escrowCreate := by decide
  have hfinish : typeOf (finishTx 1)=some .escrowFinish := by decide
  obtain ⟨escrow,hread,hcancel,hcondition,hbalance⟩ := heldLedger_entry
  refine (release_rules_iff plainEnv (lockEngine paddedCrypto) (fun _ _ => False)
    separated_paddedCrypto
    (runsLocks_lockEngine plainEnv) (party 1) 1 (by decide) escrowParties rfl (by decide) _ ?_).mpr
      ⟨?_,?_,trivial⟩
  · simp only [List.mem_cons,List.not_mem_nil,or_false]
    rintro sub (rfl | rfl)
    · exact .inl ⟨.escrowCreate,hcreate,rfl⟩
    · exact .inl ⟨.escrowFinish,hfinish,rfl⟩
  · have hnone : escrowParties.read escrowKey=none := by decide
    have habsurd : ∀ {txType entry},
      ¬ Works plainEnv (lockEngine paddedCrypto) escrowKey escrowParties
        (submittedAt 50 (escrowTx [("CancelAfter",.int 200)])) txType entry := by
      intro txType entry h
      exact nomatch hnone.symm.trans h.entry
    exact ⟨fun _ h => (habsurd h).elim,fun _ h => (habsurd h).elim,fun _ _ h => (habsurd h).elim⟩
  · refine ⟨fun entry h t ht => ?_,fun entry h c hc => ?_,fun txType entry h _ => ?_⟩
    all_goals cases hread.symm.trans h.entry
    · cases hcancel.symm.trans ht
      decide
    · cases hcondition.symm.trans hc
    · exact hbalance

private def lockedLedger : Ledger :=
    escrowStep escrowParties (submittedAt 50 (escrowTx [("Condition",.str "A0258020")]))

private theorem lockedLedger_facts :
    entryHas lockedLedger escrowKey
      (fun entry => strField entry "Condition" == some "A0258020")=true ∧
      ((submittedAt 150 (finishTx 1)).apply plainEnv (lockEngine paddedCrypto)
        lockedLedger).1.toOption=some .tesSuccess := by
  decide +kernel

/-- The escrow is finished after its second time, it is finished without the fulfillment of its
condition, and it is paid to its destination twice. -/
theorem release_rules_broken :
    ¬ ReleaseRules plainEnv (lockEngine paddedCrypto) (fun _ _ => True) escrowKey escrowParties
        [submittedAt 50 (escrowTx [("CancelAfter",.int 200)]),submittedAt 300 (finishTx 1)] ∧
      ¬ ReleaseRules plainEnv (lockEngine paddedCrypto) (fun _ _ => True) escrowKey escrowParties
        [submittedAt 50 (escrowTx [("Condition",.str "A0258020")]),submittedAt 150 (finishTx 1)] ∧
      ¬ ReleaseRules plainEnv (lockEngine paddedCrypto) (fun _ _ => True) escrowKey escrowParties
        [submittedAt 50 (escrowTx [("CancelAfter",.int 200)]),submittedAt 60 claimTx,
          submittedAt 150 (finishTx 2)] := by
  have hfinish : typeOf (finishTx 1)=some .escrowFinish := by decide
  have htarget : lockTarget paddedCrypto (finishTx 1) .escrowFinish=some escrowKey := by decide
  refine ⟨fun h => ?_,fun h => ?_,fun h => ?_⟩
  · obtain ⟨escrow,hread,hcancel,-⟩ := heldLedger_entry
    have hworks := works_finish 300 hread htarget hfinish heldLedger_facts.2.1
    exact absurd ((h.byRule.2.1.finish escrow hworks).inTime 200 hcancel) (by decide)
  · obtain ⟨hcondition,hdone⟩ := lockedLedger_facts
    obtain ⟨escrow,hread,hcondition⟩ := exists_of_entryHas hcondition
    have hworks := works_finish 150 hread htarget hfinish hdone
    obtain ⟨fulfillment,hnone,-⟩ :=
      (h.byRule.2.1.finish escrow hworks).fulfilled _ (beq_iff_eq.mp hcondition)
    exact absurd hnone (show strField (finishTx 1) "Fulfillment"≠some fulfillment from fun h =>
      nomatch h)
  · -- the claim and the finish both draw
    obtain ⟨-,-,hclaimed,hgone⟩ := heldLedger_facts
    obtain ⟨escrow,hread,-,-,hbalance⟩ := heldLedger_entry
    have hbefore : drawn escrowKey heldLedger=some 0 := by rw [drawn,hread,drawnOf,hbalance]
    have hdraw : Draws escrowStep (drawn escrowKey) heldLedger (submittedAt 60 claimTx) := by
      refine ⟨0,hbefore,fun b hb => ?_⟩
      cases hclaimed.symm.trans hb
      decide
    have hagain : Draws escrowStep (drawn escrowKey)
      (escrowStep heldLedger (submittedAt 60 claimTx))
        (submittedAt 150 (finishTx 2)) :=
      ⟨500,hclaimed,fun b hb => nomatch hgone.symm.trans hb⟩
    obtain ⟨first,j,last,hsplit,-⟩ :=
      h.once [submittedAt 50 (escrowTx [("CancelAfter",.int 200)])] (submittedAt 60 claimTx)
      [submittedAt 150 (finishTx 2)] rfl hdraw [] (submittedAt 150 (finishTx 2)) [] rfl hagain
    simp at hsplit

end Rxrpl.Tx
