import Rxrpl.Hash256
import Rxrpl.HashMap
import Rxrpl.InputRuns
import Mathlib.Data.List.Sort

/-!
# Amendment voting

At a flag ledger the votes of the trusted validators are tallied. An amendment gains a majority,
loses it, or is activated when it has held it for the length of a window. A tally first activates
what is due, and then looks at the votes of the amendments that the node supports and of those that
somebody voted for. What it does to one amendment depends on the state of that amendment alone, so
that its history is that of a small machine.
-/

namespace Rxrpl.Amendment

open InputRun List

structure AmendmentState where
  enabled : Bool
  supported : Bool
  majoritySince : Option ℕ
  deriving DecidableEq

structure AmendmentTable where
  majorityTime : ℕ
  state : HashMap Hash256 AmendmentState

inductive AmendmentAction
  | gotMajority (amendmentId : Hash256) (closeTime : ℕ)
  | lostMajority (amendmentId : Hash256)
  | activate (amendmentId : Hash256)
  deriving DecidableEq

def AmendmentAction.amendmentId : AmendmentAction → Hash256
  | .gotMajority id _ => id
  | .lostMajority id => id
  | .activate id => id

/-! ## The table -/

/-- The majority has lasted for the window, and the amendment is not enabled yet. -/
def AmendmentState.isDue (majorityTime currentCloseTime : ℕ) (s : AmendmentState) : Bool :=
  !s.enabled && s.majoritySince.any fun since => decide (majorityTime ≤ currentCloseTime-since)

namespace AmendmentTable

variable (t : AmendmentTable)

def isEnabled (id : Hash256) : Bool := (t.state.lookup id).any (·.enabled)

def hasMajority (id : Hash256) : Bool :=
    (t.state.lookup id).any (·.majoritySince.isSome)

/-- `set_majority`: the time of a majority that is held already stays. -/
def setMajority (id : Hash256) (closeTime : ℕ) : AmendmentTable :=
  { t with state := t.state.modifyExisting id fun s =>
    { s with majoritySince := some (s.majoritySince.getD closeTime) } }

def clearMajority (id : Hash256) : AmendmentTable :=
  { t with state := t.state.modifyExisting id fun s => { s with majoritySince := none } }

def checkActivations (currentCloseTime : ℕ) : List Hash256 × AmendmentTable :=
  let due := t.state.entries.filter fun e => e.2.isDue t.majorityTime currentCloseTime
  ((due.map (·.1)).insertionSort (· ≤ ·),
    { t with state := t.state.mapValues fun s =>
      if s.isDue t.majorityTime currentCloseTime then { s with enabled := true } else s })

def getVotes : List Hash256 :=
  (t.state.entries.filter fun e => e.2.supported && !e.2.enabled).map (·.1)

end AmendmentTable

/-! ## The tally -/

/-- The arguments of a call of `tally_votes`, without the sequence, which it does not use. -/
structure Tally where
  trustedCount : ℕ
  votes : HashMap Hash256 ℕ
  closeTime : ℕ

namespace Tally

variable (t : Tally)

/-- `max(1, trusted_count * 80 / 100)`, in `u64`. -/
def threshold : ℕ := max 1 (t.trustedCount*80 % 2^64/100)

/-- Whether a count of votes makes a majority. -/
def enough (voteCount : ℕ) : Bool :=
  if t.trustedCount=1 then decide (t.threshold ≤ voteCount) else decide (t.threshold < voteCount)

def passes (id : Hash256) : Bool := t.enough ((t.votes.lookup id).getD 0)

def voted (id : Hash256) : Bool := (t.votes.lookup id).isSome

/-- The body of the loop of `tally_votes`. -/
def consider (s : List AmendmentAction × AmendmentTable) (id : Hash256) :
    List AmendmentAction × AmendmentTable :=
  if s.2.isEnabled id then s
  else if t.passes id then
    (if s.2.hasMajority id then s.1 else s.1++[.gotMajority id t.closeTime],
      s.2.setMajority id t.closeTime)
  else if s.2.hasMajority id then (s.1++[.lostMajority id],s.2.clearMajority id)
  else s

/-- The amendments that are looked at, in order: those that the node votes for, and those that got
votes. -/
def tracked (table : AmendmentTable) : List Hash256 :=
  ((table.getVotes++t.votes.keys).dedup).insertionSort (· ≤ ·)

end Tally

def tallyVotes (table : AmendmentTable) (t : Tally) : List AmendmentAction × AmendmentTable :=
  if t.trustedCount=0 then ([],table)
  else
    let (activated,table) := table.checkActivations t.closeTime
    (t.tracked table).foldl t.consider (activated.map .activate,table)

/-! ## One amendment -/

def actionsFor (id : Hash256) (actions : List AmendmentAction) : List AmendmentAction :=
  actions.filter fun a => decide (a.amendmentId=id)

/-- What the loop body does to the amendment that it looks at. -/
def considerState (t : Tally) (id : Hash256) : Option AmendmentState →
    List AmendmentAction × Option AmendmentState
  | none => (if t.passes id then [.gotMajority id t.closeTime] else [],none)
  | some s =>
    if s.enabled then ([],some s)
    else if t.passes id then
      (if s.majoritySince.isSome then [] else [.gotMajority id t.closeTime],
        some { s with majoritySince := some (s.majoritySince.getD t.closeTime) })
    else if s.majoritySince.isSome then ([.lostMajority id],some { s with majoritySince := none })
    else ([],some s)

def tallyState (majorityTime : ℕ) (t : Tally) (id : Hash256) :
    Option AmendmentState → List AmendmentAction × Option AmendmentState
  | none => considerState t id none
  | some s =>
    if s.isDue majorityTime t.closeTime then ([.activate id],some { s with enabled := true })
    else if s.supported || t.voted id then considerState t id (some s)
    else ([],some s)

section

variable {t : Tally} {s : List AmendmentAction × AmendmentTable} {id id' : Hash256}

@[simp] theorem actionsFor_append (l l' : List AmendmentAction) :
    actionsFor id (l++l')=actionsFor id l++actionsFor id l' := filter_append ..

theorem majorityTime_consider : (t.consider s id).2.majorityTime=s.2.majorityTime := by
  unfold Tally.consider
  split
  · rfl
  · split
    · rfl
    · split <;> rfl

theorem consider_self :
    actionsFor id (t.consider s id).1=actionsFor id
      s.1++(considerState t id (s.2.state.lookup id)).1 ∧
      (t.consider s id).2.state.lookup id=(considerState t id (s.2.state.lookup id)).2 := by
  unfold Tally.consider AmendmentTable.isEnabled AmendmentTable.hasMajority
    AmendmentTable.setMajority
    AmendmentTable.clearMajority
  cases hs : s.2.state.lookup id with
  | none =>
    by_cases hp : t.passes id=true
    · simp [considerState,hp,HashMap.lookup_modifyExisting,hs,actionsFor,
        AmendmentAction.amendmentId]
    · simp [considerState,hp,hs]
  | some a =>
    by_cases he : a.enabled=true
    · simp [considerState,he,hs]
    by_cases hp : t.passes id=true
    · by_cases hm : a.majoritySince.isSome=true
      · simp [considerState,he,hp,hm,HashMap.lookup_modifyExisting,hs]
      · simp [considerState,he,hp,hm,HashMap.lookup_modifyExisting,hs,actionsFor,
          AmendmentAction.amendmentId]
    · by_cases hm : a.majoritySince.isSome=true
      · simp [considerState,he,hp,hm,HashMap.lookup_modifyExisting,hs,actionsFor,
          AmendmentAction.amendmentId]
      · simp [considerState,he,hp,hm,hs]

theorem consider_ne (h : id≠id') : actionsFor id (t.consider s id').1=actionsFor id s.1 ∧
      (t.consider s id').2.state.lookup id=s.2.state.lookup id := by
  have hgot : actionsFor id [.gotMajority id' t.closeTime]=[] := by
    simp [actionsFor,AmendmentAction.amendmentId,Ne.symm h]
  have hlost : actionsFor id [.lostMajority id']=[] := by
    simp [actionsFor,AmendmentAction.amendmentId,Ne.symm h]
  unfold Tally.consider AmendmentTable.setMajority AmendmentTable.clearMajority
  split
  · exact ⟨rfl,rfl⟩
  split
  · refine ⟨?_,?_⟩
    · split
      · rfl
      · rw [actionsFor_append,hgot,append_nil]
    · simp [HashMap.lookup_modifyExisting,h]
  · split
    · exact ⟨by rw [actionsFor_append,hlost,append_nil],by simp [HashMap.lookup_modifyExisting,h]⟩
    · exact ⟨rfl,rfl⟩

theorem foldl_consider {ids : List Hash256} (hnodup : ids.Nodup) (id : Hash256) :
    actionsFor id (ids.foldl t.consider s).1 =
        actionsFor id s.1++(if id∈ids then (considerState t id (s.2.state.lookup id)).1 else []) ∧
      (ids.foldl t.consider s).2.state.lookup id =
        (if id∈ids then (considerState t id (s.2.state.lookup id)).2 else s.2.state.lookup id) ∧
      (ids.foldl t.consider s).2.majorityTime=s.2.majorityTime := by
  induction ids generalizing s with
  | nil => simp
  | cons id' ids ih =>
    obtain ⟨hnot,hnodup⟩ := nodup_cons.mp hnodup
    obtain ⟨hacts,hstate,htime⟩ := ih (s := t.consider s id') hnodup
    rw [foldl_cons,hacts,hstate,htime,majorityTime_consider]
    by_cases h : id=id'
    · subst h
      rw [consider_self.1,consider_self.2]
      simp [hnot]
    · rw [(consider_ne h).1,(consider_ne h).2]
      simp [h]

theorem voted_of_passes (h : t.passes id=true) : t.voted id=true := by
  unfold Tally.passes Tally.enough at h
  unfold Tally.voted
  cases hv : t.votes.lookup id with
  | some n => rfl
  | none =>
    have hpos : 1 ≤ t.threshold := le_max_left _ _
    rw [hv] at h
    dsimp only [Option.getD_none] at h
    split at h
    · have := of_decide_eq_true h
      omega
    · have := of_decide_eq_true h
      omega

theorem actionsFor_activate {ids : List Hash256} (hnodup : ids.Nodup) (id : Hash256) :
    actionsFor id (ids.map .activate)=if id∈ids then [.activate id] else [] := by
  induction ids with
  | nil => rfl
  | cons id' ids ih =>
    obtain ⟨hnot,hnodup⟩ := nodup_cons.mp hnodup
    have ih := ih hnodup
    rw [actionsFor] at ih ⊢
    rw [map_cons,filter_cons,ih]
    by_cases h : id=id'
    · subst h
      simp [AmendmentAction.amendmentId,hnot]
    · simp [AmendmentAction.amendmentId,h,Ne.symm h]

section

variable {table : AmendmentTable} {closeTime : ℕ}

theorem nodup_activated : (table.checkActivations closeTime).1.Nodup :=
  (perm_insertionSort _ _).nodup_iff.mpr (Nodup.sublist (filter_sublist.map _) (AList.keys_nodup _))

theorem mem_activated :
    id∈(table.checkActivations closeTime).1 ↔
      (table.state.lookup id).any (·.isDue table.majorityTime closeTime)=true := by
  simp only [AmendmentTable.checkActivations,mem_insertionSort,mem_map,mem_filter,
    Option.any_eq_true]
  constructor
  · rintro ⟨⟨k,s⟩,⟨hmem,hdue⟩,rfl⟩
    exact ⟨s,HashMap.mem_entries_iff.mp hmem,hdue⟩
  · rintro ⟨s,hs,hdue⟩
    exact ⟨⟨id,s⟩,⟨HashMap.mem_entries_iff.mpr hs,hdue⟩,rfl⟩

theorem lookup_checkActivations :
    (table.checkActivations closeTime).2.state.lookup id=(table.state.lookup id).map fun s =>
      if s.isDue table.majorityTime closeTime then { s with enabled := true } else s := by
  rw [AmendmentTable.checkActivations,HashMap.lookup_mapValues]

theorem mem_tracked :
    id∈t.tracked table ↔ (table.state.lookup id).any (fun s => s.supported && !s.enabled)=true ∨
      t.voted id=true := by
  have hkeys : id∈t.votes.keys ↔ t.voted id=true := by
    rw [Tally.voted,AList.lookup_isSome,AList.mem_keys]
  simp only [Tally.tracked,mem_insertionSort,mem_dedup,mem_append,hkeys,AmendmentTable.getVotes,
    mem_map,mem_filter,Option.any_eq_true]
  refine or_congr_left ?_
  constructor
  · rintro ⟨⟨k,s⟩,⟨hmem,hs⟩,rfl⟩
    exact ⟨s,HashMap.mem_entries_iff.mp hmem,hs⟩
  · rintro ⟨s,hs,hp⟩
    exact ⟨⟨id,s⟩,⟨HashMap.mem_entries_iff.mpr hs,hp⟩,rfl⟩

theorem tallyVotes_at (table : AmendmentTable) (ht : t.trustedCount≠0) (id : Hash256) :
    actionsFor id
      (tallyVotes table t).1=(tallyState table.majorityTime t id (table.state.lookup id)).1 ∧
      (tallyVotes table t).2.state.lookup
        id=(tallyState table.majorityTime t id (table.state.lookup id)).2 ∧
      (tallyVotes table t).2.majorityTime=table.majorityTime := by
  have hnodup : (t.tracked (table.checkActivations t.closeTime).2).Nodup :=
    (perm_insertionSort _ _).nodup_iff.mpr (nodup_dedup _)
  obtain ⟨hacts,hstate,htime⟩ := foldl_consider (t := t)
    (s :=
      ((table.checkActivations t.closeTime).1.map .activate,(table.checkActivations t.closeTime).2))
      hnodup id
  rw [tallyVotes,if_neg ht]
  dsimp only
  rw [hacts,hstate,htime]
  dsimp only
  rw [actionsFor_activate nodup_activated]
  simp only [mem_activated,mem_tracked,lookup_checkActivations]
  refine and_assoc.mp ⟨?_,rfl⟩
  cases hs : table.state.lookup id with
  | none =>
    by_cases hv : t.voted id=true
    · simp [tallyState,hv]
    have hp : t.passes id=false := by
      by_contra hp
      exact hv (voted_of_passes (by simpa using hp))
    simp [tallyState,considerState,hv,hp]
  | some a =>
    by_cases hdue : a.isDue table.majorityTime t.closeTime=true
    · simp [tallyState,considerState,hdue]
    by_cases he : a.enabled=true
    · simp [tallyState,considerState,hdue,he]
    · by_cases hlooked : a.supported=true ∨ t.voted id=true
      · simp [tallyState,hdue,he,hlooked]
      · simp [tallyState,hdue,he,hlooked]

end

end

/-! ## The life cycle -/

structure TallyRecord where
  closeTime : ℕ
  passes : Bool
  actions : List AmendmentAction
  deriving DecidableEq

def records (id : Hash256) : AmendmentTable → List Tally → List TallyRecord
  | _, [] => []
  | table, t::rest =>
    ⟨t.closeTime,t.passes id,actionsFor id (tallyVotes table t).1⟩::records id
      (tallyVotes table t).2 rest

/-- How far the life of an amendment has come, as its actions tell. -/
inductive Phase
  | idle
  | held (since : ℕ)
  | activated

/-- The life cycle from a phase on. Majority is got and lost in turn; it is lost at the first tally
that the count does not pass, and activation needs the count to pass at every tally since majority
was got, and the window to lie between. After activation there is nothing more. -/
def LifeCycle (window : ℕ) (id : Hash256) : Phase → List TallyRecord → Prop
  | _, [] => True
  | .idle, r::rest =>
    (r.actions=[] ∧ LifeCycle window id .idle rest) ∨
      (r.actions=[.gotMajority id r.closeTime] ∧ r.passes=true ∧
        LifeCycle window id (.held r.closeTime) rest)
  | .held since, r::rest =>
    if r.passes then
      (r.actions=[] ∧ LifeCycle window id (.held since) rest) ∨
        (r.actions=[.activate id] ∧ since+window ≤ r.closeTime ∧
          LifeCycle window id .activated rest)
    else r.actions=[.lostMajority id] ∧ LifeCycle window id .idle rest
  | .activated, r::rest => r.actions=[] ∧ LifeCycle window id .activated rest

def Tally.Looks (t : Tally) (id : Hash256) (s : AmendmentState) : Prop := s.supported=true ∨
    t.voted id=true

/-- A majority that is held meets a tally as it should: the count passes, or the tally looks at the
amendment before the window has passed. -/
def Regular (id : Hash256) (table : AmendmentTable) (t : Tally) : Prop :=
  ∀ s since, table.state.lookup id=some s → s.enabled=false → s.majoritySince=some since →
    t.passes id=true ∨ (t.Looks id s ∧ t.closeTime-since < table.majorityTime)

/-- When the life cycle of an amendment is kept. One that the table does not know passes at the last
tally at most. One that is known and has no majority meets regular tallies only, from then on. One
that starts with a majority, which nobody has seen it get, keeps it without being activated. -/
def Undisturbed (id : Hash256) (table : AmendmentTable) (tallies : List Tally) : Prop :=
  match table.state.lookup id with
  | none => ∀ t∈tallies.dropLast, t.passes id=false
  | some s =>
    s.enabled=true ∨
      match s.majoritySince with
      | none => Along (fun table t => (tallyVotes table t).2) (Regular id) table tallies
      | some since => ∀ t∈tallies, t.closeTime-since < table.majorityTime ∧
        (t.passes id=true ∨ ¬ t.Looks id s)

section

variable {window : ℕ} {id : Hash256} {tallies : List Tally}

/-- The records of an amendment, from its state alone. -/
def stateRecords (window : ℕ) (id : Hash256) : Option AmendmentState → List Tally → List TallyRecord
  | _, [] => []
  | o, t::rest =>
    ⟨t.closeTime,t.passes id,(tallyState window t id o).1⟩::stateRecords window id
      (tallyState window t id o).2 rest

theorem records_eq (htrusted : ∀ t∈tallies, t.trustedCount≠0) (table : AmendmentTable) :
    records id table tallies=stateRecords table.majorityTime id
      (table.state.lookup id) tallies := by
  induction tallies generalizing table with
  | nil => rfl
  | cons t rest ih =>
    obtain ⟨hacts,hstate,htime⟩ := tallyVotes_at table (htrusted t (mem_cons_self ..)) id
    rw [records,stateRecords,hacts,ih (fun t' ht' => htrusted t' (mem_cons_of_mem t ht')),hstate,
      htime]

variable {s : AmendmentState} {since : ℕ} {t : Tally}

theorem tallyState_enabled (h : s.enabled=true) : tallyState window t id (some s)=([],some s) := by
  simp [tallyState,considerState,AmendmentState.isDue,h]

theorem lifeCycle_enabled (h : s.enabled=true) {phase : Phase}
    (hphase : ∀ since, phase≠.held since) :
    LifeCycle window id phase (stateRecords window id (some s) tallies) := by
  induction tallies with
  | nil => trivial
  | cons t rest ih =>
    rw [stateRecords,tallyState_enabled h]
    cases phase with
    | idle => exact .inl ⟨rfl,ih⟩
    | held since => exact (hphase since rfl).elim
    | activated => exact ⟨rfl,ih⟩

/-- An amendment that the table does not know is said to get majority whenever it passes. -/
theorem lifeCycle_unknown :
    LifeCycle window id .idle (stateRecords window id none tallies) ↔ ∀ t∈tallies.dropLast,
      t.passes id=false := by
  induction tallies with
  | nil => simp [stateRecords,LifeCycle]
  | cons t rest ih =>
    rw [stateRecords]
    by_cases hp : t.passes id=true
    · cases rest with
      | nil => simp [LifeCycle,tallyState,considerState,hp,stateRecords]
      | cons t' rest =>
        have hnext : ¬ LifeCycle window id (.held t.closeTime)
          (stateRecords window id none (t'::rest)) := by
          rw [stateRecords]
          by_cases hp' : t'.passes id=true
          · simp [LifeCycle,tallyState,considerState,hp']
          · simp [LifeCycle,tallyState,considerState,hp']
        simp [LifeCycle,tallyState,considerState,hp,hnext]
    · have hstep : tallyState window t id none=([],none) := by simp [tallyState,considerState,hp]
      rw [hstep]
      cases rest with
      | nil => simp [LifeCycle,stateRecords]
      | cons t' rest =>
        rw [LifeCycle,dropLast_cons_cons,forall_mem_cons,← ih]
        simp [hp]

theorem tallyState_due (he : s.enabled=false) (hs : s.majoritySince=some since)
    (h : window ≤ t.closeTime-since) :
    tallyState window t id (some s)=([.activate id],some { s with enabled := true }) := by
  simp [tallyState,AmendmentState.isDue,he,hs,h]

theorem tallyState_held (id : Hash256) (he : s.enabled=false) (hs : s.majoritySince=some since)
    (h : t.closeTime-since < window) :
      (t.passes id=true → tallyState window t id (some s)=([],some s)) ∧
      (t.passes id=false → t.Looks id s →
        tallyState window t id
          (some s)=([.lostMajority id],some { s with majoritySince := none })) ∧
      (t.passes id=false → ¬ t.Looks id s → tallyState window t id (some s)=([],some s)) := by
  have hdue : s.isDue window t.closeTime=false := by simp [AmendmentState.isDue,he,hs,h]
  obtain ⟨enabled,supported,majoritySince⟩ := s
  simp only at he hs
  subst he hs
  refine ⟨fun hp => ?_,fun hp hlooks => ?_,fun hp hlooks => ?_⟩
  · simp [tallyState,considerState,hdue,hp,voted_of_passes hp]
  · simp only [Tally.Looks] at hlooks
    simp [tallyState,considerState,hdue,hp,hlooks]
  · simp only [Tally.Looks,not_or,Bool.not_eq_true] at hlooks
    obtain ⟨rfl,hv⟩ := hlooks
    simp [tallyState,hdue,hv]

theorem tallyState_idle (he : s.enabled=false) (hs : s.majoritySince=none) :
    tallyState window t id (some s)=if t.passes id then
      ([.gotMajority id t.closeTime],some { s with majoritySince := some t.closeTime })
        else ([],some s) := by
  obtain ⟨enabled,supported,majoritySince⟩ := s
  simp only at he hs
  subst he hs
  by_cases hp : t.passes id=true
  · simp [tallyState,considerState,AmendmentState.isDue,hp,voted_of_passes hp]
  · simp [tallyState,considerState,AmendmentState.isDue,hp]

/-- A majority from before the first tally must neither be lost nor come to its end. -/
theorem lifeCycle_inherited (he : s.enabled=false) (hs : s.majoritySince=some since) :
    LifeCycle window id .idle (stateRecords window id (some s) tallies) ↔
      ∀ t∈tallies, t.closeTime-since < window ∧ (t.passes id=true ∨ ¬ t.Looks id s) := by
  induction tallies with
  | nil => simp [stateRecords,LifeCycle]
  | cons t rest ih =>
    rw [stateRecords,forall_mem_cons,← ih]
    by_cases hdue : window ≤ t.closeTime-since
    · rw [tallyState_due he hs hdue]
      simp [LifeCycle,Nat.not_lt.mpr hdue]
    have hlt : t.closeTime-since < window := by omega
    obtain ⟨hpass,hlost,hskip⟩ := tallyState_held id he hs hlt
    cases hp : t.passes id with
    | true =>
      rw [hpass hp]
      simp [LifeCycle,hlt]
    | false =>
      by_cases hlooks : t.Looks id s
      · rw [hlost hp hlooks]
        simp [LifeCycle,hlooks]
      · rw [hskip hp hlooks]
        simp [LifeCycle,hlt,hlooks]

/-- The machine of one amendment, with the window beside its state. -/
def stateStep (id : Hash256) (x : ℕ × Option AmendmentState) (t : Tally) :
    ℕ × Option AmendmentState :=
  (x.1,(tallyState x.1 t id x.2).2)

/-- `Regular`, told by the state of the amendment. -/
def StateRegular (id : Hash256) (x : ℕ × Option AmendmentState) (t : Tally) : Prop :=
  ∀ s since, x.2=some s → s.enabled=false → s.majoritySince=some since →
    t.passes id=true ∨ (t.Looks id s ∧ t.closeTime-since < x.1)

theorem along_enabled (h : s.enabled=true) :
    Along (stateStep id) (StateRegular id) (window,some s) tallies := by
  induction tallies with
  | nil => trivial
  | cons t rest ih =>
    refine ⟨fun s' since hs he => ?_,?_⟩
    · cases hs
      rw [h] at he
      cases he
    · rw [stateStep,tallyState_enabled h]
      exact ih

/-- A known amendment, while it has no majority and while it holds one that it got: by induction on
the tallies, both at once, since each phase leads to the other. -/
theorem lifeCycle_known (hmono : tallies.Pairwise fun t t' => t.closeTime ≤ t'.closeTime)
    (he : s.enabled=false) :
    (s.majoritySince=none → (LifeCycle window id .idle (stateRecords window id (some s) tallies) ↔
      Along (stateStep id) (StateRegular id) (window,some s) tallies)) ∧
    ∀ since, s.majoritySince=some since → (∀ t∈tallies, since ≤ t.closeTime) →
      (LifeCycle window id (.held since) (stateRecords window id (some s) tallies) ↔
        Along (stateStep id) (StateRegular id) (window,some s) tallies) := by
  induction tallies generalizing s with
  | nil => simp [stateRecords,LifeCycle,Along]
  | cons t rest ih =>
    obtain ⟨hle,hrest⟩ := pairwise_cons.mp hmono
    rw [stateRecords,Along,stateStep]
    dsimp only
    refine ⟨fun hs => ?_,fun since hs hsince => ?_⟩
    · -- without a majority every tally is regular
      have hreg : StateRegular id (window,some s) t := by
        intro s' since hs' _ hsince
        cases hs'
        rw [hs] at hsince
        cases hsince
      rw [tallyState_idle he hs]
      cases hp : t.passes id with
      | true =>
        have hheld := (ih hrest (s := { s with majoritySince := some t.closeTime }) he).2
          t.closeTime rfl hle
        simp [LifeCycle,hreg,hheld]
      | false =>
        have hidle := (ih hrest he).1 hs
        simp [LifeCycle,hreg,hidle]
    · have hsince' : ∀ t'∈rest, since ≤ t'.closeTime := fun t' ht' =>
        hsince t' (mem_cons_of_mem t ht')
      have hreg : StateRegular id (window,some s) t ↔
          t.passes id=true ∨ (t.Looks id s ∧ t.closeTime-since < window) := by
        constructor
        · exact fun h => h s since rfl he hs
        intro h s' since' hs' _ hsince
        cases hs'
        rw [hs] at hsince
        cases hsince
        exact h
      rw [hreg]
      by_cases hdue : window ≤ t.closeTime-since
      · have hwindow : since+window ≤ t.closeTime := by
          have := hsince t (mem_cons_self ..)
          omega
        rw [tallyState_due he hs hdue]
        have hdone : LifeCycle window id .activated
          (stateRecords window id (some { s with enabled := true }) rest) :=
          lifeCycle_enabled rfl fun _ h => by cases h
        have hquiet : Along (stateStep id) (StateRegular id)
          (window,some { s with enabled := true }) rest :=
          along_enabled rfl
        cases hp : t.passes id with
        | true => simp [LifeCycle,hwindow,hdone,hquiet]
        | false => simp [LifeCycle,Nat.not_lt.mpr hdue]
      · have hlt : t.closeTime-since < window := by omega
        obtain ⟨hpass,hlost,hskip⟩ := tallyState_held id he hs hlt
        cases hp : t.passes id with
        | true =>
          rw [hpass hp]
          simp [LifeCycle,(ih hrest he).2 since hs hsince']
        | false =>
          by_cases hlooks : t.Looks id s
          · rw [hlost hp hlooks]
            have hidle := (ih hrest (s := { s with majoritySince := none }) he).1 rfl
            simp [LifeCycle,hlooks,hlt,hidle]
          · rw [hskip hp hlooks]
            simp [LifeCycle,hlooks]

end

/-- For every table, every amendment and every sequence of tallies: the actions for the amendment
follow the life cycle exactly when it is undisturbed. -/
theorem amendment_life_cycle_iff (table : AmendmentTable) (tallies : List Tally) (id : Hash256)
    (htrusted : ∀ t∈tallies, t.trustedCount≠0)
    (hmono : tallies.Pairwise fun t t' => t.closeTime ≤ t'.closeTime) :
    LifeCycle table.majorityTime id .idle (records id table tallies) ↔
      Undisturbed id table tallies := by
  rw [records_eq htrusted,Undisturbed]
  split
  · rename_i hnone
    rw [hnone]
    exact lifeCycle_unknown
  · rename_i s hsome
    rw [hsome]
    cases he : s.enabled with
    | true =>
      have hlife : LifeCycle table.majorityTime id .idle
        (stateRecords table.majorityTime id (some s) tallies) :=
        lifeCycle_enabled he fun _ => nofun
      simp [hlife]
    | false =>
      rw [or_iff_right (by simp)]
      split
      · rename_i hs
        have halong : Along (fun table t => (tallyVotes table t).2) (Regular id) table tallies ↔
            Along (stateStep id) (StateRegular id) (table.majorityTime,table.state.lookup id)
              tallies := by
          show Along _ (fun table t => StateRegular id (table.majorityTime,table.state.lookup id) t)
            table tallies ↔ _
          refine along_map (fun table : AmendmentTable =>
            (table.majorityTime,table.state.lookup id)) (fun t : Tally => t.trustedCount≠0)
            (fun table t ht => ?_) htrusted
          obtain ⟨-,hstate,htime⟩ := tallyVotes_at table ht id
          rw [stateStep,hstate,htime]
        rw [halong,hsome]
        exact (lifeCycle_known hmono he).1 hs
      · rename_i since hs
        exact lifeCycle_inherited he hs

/-! ## Lives that go astray -/

def sampleTable (supported : Bool) : AmendmentTable :=
    ⟨100,AList.singleton (.ofNat 1) ⟨false,supported,none⟩⟩

def sampleTally (votes closeTime : ℕ) : Tally := ⟨10,AList.singleton (.ofNat 1) votes,closeTime⟩

def silentTally (closeTime : ℕ) : Tally := ⟨10,∅,closeTime⟩

theorem supported_amendment_life :
    LifeCycle 100 (.ofNat 1) .idle
      (records (.ofNat 1) (sampleTable true)
        [sampleTally 9 0,silentTally 50,sampleTally 9 60,sampleTally 9 160]) := by
  refine (amendment_life_cycle_iff (sampleTable true) _ (.ofNat 1) (by decide) (by decide)).mpr ?_
  refine .inr ⟨fun _ _ h _ hs => ?_,fun _ _ h _ hs => ?_,fun _ _ h _ hs => ?_,fun _ _ _ _ _ =>
    ?_,trivial⟩
  · cases h
    cases hs
  · have hlooks : ((tallyVotes (sampleTable true) (sampleTally 9 0)).2.state.lookup (.ofNat 1)) =
        some ⟨false,true,some 0⟩ := by
      decide
    cases h.symm.trans hlooks
    cases hs
    exact .inr ⟨.inl rfl,by decide⟩
  · have hlost :
      ((tallyVotes (tallyVotes (sampleTable true) (sampleTally 9 0)).2
      (silentTally 50)).2.state.lookup (.ofNat 1)) =
        some ⟨false,true,none⟩ := by
      decide
    cases h.symm.trans hlost
    cases hs
  · exact .inl (by decide)

/-- An amendment that the table does not know gets majority twice. One that the node does not
support keeps its majority while nobody votes for it, and is activated after that. One that the node
supports is activated at a tally that it does not pass. -/
theorem amendment_lives_astray :
    (records (.ofNat 2) (sampleTable true)
      [⟨10,AList.singleton (.ofNat 2) 9,0⟩,⟨10,AList.singleton (.ofNat 2) 9,10⟩] =
        [⟨0,true,[.gotMajority (.ofNat 2) 0]⟩,⟨10,true,[.gotMajority (.ofNat 2) 10]⟩] ∧
      ¬ LifeCycle 100 (.ofNat 2) .idle (records (.ofNat 2) (sampleTable true)
        [⟨10,AList.singleton (.ofNat 2) 9,0⟩,⟨10,AList.singleton (.ofNat 2) 9,10⟩])) ∧
    (records (.ofNat 1) (sampleTable false) [sampleTally 9 0,silentTally 50,silentTally 100] =
        [⟨0,true,[.gotMajority (.ofNat 1) 0]⟩,⟨50,false,[]⟩,
          ⟨100,false,[.activate (.ofNat 1)]⟩] ∧
      ¬ LifeCycle 100 (.ofNat 1) .idle
        (records (.ofNat 1) (sampleTable false)
          [sampleTally 9 0,silentTally 50,silentTally 100])) ∧
    (records (.ofNat 1) (sampleTable true) [sampleTally 9 0,sampleTally 2 100] =
        [⟨0,true,[.gotMajority (.ofNat 1) 0]⟩,⟨100,false,[.activate (.ofNat 1)]⟩] ∧
      ¬ LifeCycle 100 (.ofNat 1) .idle
        (records (.ofNat 1) (sampleTable true) [sampleTally 9 0,sampleTally 2 100])) := by
  refine ⟨?_,?_,?_⟩
  · have h : records (.ofNat 2) (sampleTable true)
        [⟨10,AList.singleton (.ofNat 2) 9,0⟩,⟨10,AList.singleton (.ofNat 2) 9,10⟩] =
        [⟨0,true,[.gotMajority (.ofNat 2) 0]⟩,⟨10,true,[.gotMajority (.ofNat 2) 10]⟩] := by decide
    exact ⟨h,by rw [h]; simp [LifeCycle]⟩
  · have h : records (.ofNat 1) (sampleTable false)
      [sampleTally 9 0,silentTally 50,silentTally 100] =
        [⟨0,true,[.gotMajority (.ofNat 1) 0]⟩,⟨50,false,[]⟩,
          ⟨100,false,[.activate (.ofNat 1)]⟩] := by
      decide
    exact ⟨h,by rw [h]; simp [LifeCycle]⟩
  · have h : records (.ofNat 1) (sampleTable true) [sampleTally 9 0,sampleTally 2 100] =
        [⟨0,true,[.gotMajority (.ofNat 1) 0]⟩,⟨100,false,[.activate (.ofNat 1)]⟩] := by decide
    exact ⟨h,by rw [h]; simp [LifeCycle]⟩

/-! ## One validator, one vote -/

/-- `count_votes`: each list holds what one trusted validator votes for. -/
def countVotes (validatorVotes : List (List Hash256)) : HashMap Hash256 ℕ :=
  validatorVotes.foldl (fun counts votes => votes.foldl HashMap.vote counts) ∅

/-- The tally of the lists, with as many trusted validators as there are lists. -/
def tallyOf (validatorVotes : List (List Hash256)) (closeTime : ℕ) : Tally :=
  ⟨validatorVotes.length,countVotes validatorVotes,closeTime⟩

/-- The number of validators that vote for an amendment. -/
def voters (validatorVotes : List (List Hash256)) (id : Hash256) : ℕ :=
    validatorVotes.countP (id ∈ ·)

/-- Majority is gained only by amendments for which enough different validators vote. -/
def OneVoteEach (validatorVotes : List (List Hash256)) (table : AmendmentTable) (closeTime : ℕ) :
    Prop :=
  ∀ id time, .gotMajority id time∈(tallyVotes table (tallyOf validatorVotes closeTime)).1 →
    (tallyOf validatorVotes closeTime).enough (voters validatorVotes id)=true

section

variable {validatorVotes : List (List Hash256)} {closeTime : ℕ} {id : Hash256}

theorem passes_tallyOf : (tallyOf validatorVotes closeTime).passes id =
    (tallyOf validatorVotes closeTime).enough (validatorVotes.flatten.count id) := by
  have hcounts := HashMap.counts_empty.foldl_vote validatorVotes.flatten
  rw [nil_append,foldl_flatten] at hcounts
  have hvotes : ((countVotes validatorVotes).lookup id).getD 0=validatorVotes.flatten.count id := by
    rw [countVotes,hcounts id]
    split
    · rfl
    · rename_i hid
      exact (count_eq_zero.mpr hid).symm
  rw [← hvotes]
  rfl

/-- A validator that repeats an amendment is counted more than once. -/
theorem count_eq_voters (hnodup : ∀ votes∈validatorVotes, votes.Nodup) :
    validatorVotes.flatten.count id=voters validatorVotes id := by
  induction validatorVotes with
  | nil => rfl
  | cons votes rest ih =>
    obtain ⟨hvotes,hrest⟩ := forall_mem_cons.mp hnodup
    rw [flatten_cons,count_append,ih hrest,voters,voters,countP_cons,hvotes.count,Nat.add_comm]
    simp

theorem passes_of_gotMajority {t : Tally} {window time : ℕ} {s : Option AmendmentState}
    (h : .gotMajority id time∈(tallyState window t id s).1) : t.passes id=true := by
  by_contra hp
  rw [Bool.not_eq_true] at hp
  unfold tallyState considerState at h
  simp only [hp,Bool.false_eq_true,if_false] at h
  repeat' split at h
  all_goals simp at h

theorem mem_actionsFor {actions : List AmendmentAction} {time : ℕ} :
    .gotMajority id time∈actionsFor id actions ↔ .gotMajority id time∈actions := by
  simp [actionsFor,AmendmentAction.amendmentId]

end

/-- One validator has one vote as long as repeated votes do not make the difference, as when no list
repeats an amendment. -/
theorem one_vote_each_iff (validatorVotes : List (List Hash256)) :
    ((∀ votes∈validatorVotes, votes.Nodup) → ∀ table closeTime,
      OneVoteEach validatorVotes table closeTime) ∧
      ((∀ table closeTime, OneVoteEach validatorVotes table closeTime) ↔
        ∀ id, (tallyOf validatorVotes 0).enough (validatorVotes.flatten.count id)=true →
          (tallyOf validatorVotes 0).enough (voters validatorVotes id)=true) := by
  have hiff : (∀ table closeTime, OneVoteEach validatorVotes table closeTime) ↔
      ∀ id, (tallyOf validatorVotes 0).enough (validatorVotes.flatten.count id)=true →
        (tallyOf validatorVotes 0).enough (voters validatorVotes id)=true := by
    constructor
    · intro h id henough
      have hpasses := passes_tallyOf.trans henough
      by_cases hnil : validatorVotes=[]
      · subst hnil
        exact henough
      -- the table does not know the amendment
      refine h ⟨0,∅⟩ 0 id 0 (mem_actionsFor.mp ?_)
      rw [(tallyVotes_at _ (mt length_eq_zero_iff.mp hnil) id).1]
      simp only [AList.lookup_empty,tallyState,considerState,hpasses,if_true]
      exact mem_singleton.mpr rfl
    · intro h table closeTime id time hgot
      by_cases hnil : validatorVotes=[]
      · subst hnil
        simp [tallyVotes,tallyOf] at hgot
      rw [← mem_actionsFor,(tallyVotes_at _ (mt length_eq_zero_iff.mp hnil) id).1] at hgot
      have hpasses := passes_of_gotMajority hgot
      rw [passes_tallyOf] at hpasses
      exact h id hpasses
  refine ⟨fun hnodup => hiff.mpr fun id henough => ?_,hiff⟩
  rwa [← count_eq_voters hnodup]

/-- One of three validators lists an amendment three times, and it gains majority. -/
theorem repeated_vote_gains_majority :
    (tallyVotes ⟨0,∅⟩ (tallyOf [[.ofNat 1,.ofNat 1,.ofNat 1],[],[]] 0)).1=[.gotMajority
      (.ofNat 1) 0] ∧
      voters [[.ofNat 1,.ofNat 1,.ofNat 1],[],[]] (.ofNat 1)=1 ∧
      ¬ OneVoteEach [[.ofNat 1,.ofNat 1,.ofNat 1],[],[]] ⟨0,∅⟩ 0 := by
  have hgot :
    (tallyVotes ⟨0,∅⟩ (tallyOf [[.ofNat 1,.ofNat 1,.ofNat 1],[],[]] 0)).1=[.gotMajority
    (.ofNat 1) 0] := by
    decide
  refine ⟨hgot,by decide,fun h => ?_⟩
  have henough := h (.ofNat 1) 0 (by rw [hgot]; exact mem_singleton.mpr rfl)
  exact absurd henough (by decide)

end Rxrpl.Amendment
