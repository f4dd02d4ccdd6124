import Rxrpl.ConsensusTypes

/-!
# The negative UNL

`evaluate` takes validators off the negative UNL that validated more than half of the ledgers of a
window, and puts those on it that did not, as far as a quarter of the trusted set allows. Both loops
run over hash sets. The first one does the same in every order. The order decides whom the second
one takes when there are more candidates than places.
-/

namespace Rxrpl.Consensus

open HashMap List

abbrev HashSet (κ : Type) := HashMap κ Unit

structure NegativeUnlChange where
  validatorKey : String
  disable : Bool
  ledgerSeq : ℕ
  deriving DecidableEq

/-- `NegativeUnlTracker`; a record of a window is its number of validations. -/
structure NegativeUnlTracker where
  ledgersInWindow : ℕ
  currentWindow : HashMap NodeId ℕ
  previousWindow : HashMap NodeId ℕ
  nodeToKey : HashMap NodeId String
  currentlyDisabled : HashSet NodeId

def maxNegativeUnlSize (trustedCount : ℕ) : ℕ := trustedCount/4

namespace NegativeUnlTracker

variable (t : NegativeUnlTracker)

/-- The validation ratio is above one half. -/
def reliable (node : NodeId) : Bool :=
  decide (t.ledgersInWindow < 2*(t.currentWindow.lookup node).getD 0)

def rotateWindow : NegativeUnlTracker :=
  { t with previousWindow := t.currentWindow, currentWindow := ∅, ledgersInWindow := 0 }

/-- The validators that are disabled and the changes so far. -/
structure Progress where
  disabled : HashSet NodeId
  changes : List NegativeUnlChange

section

variable (t : NegativeUnlTracker) (trusted : HashSet NodeId) (ledgerSeq : ℕ)

/-- One turn of the loop over the disabled validators. -/
def reenable (s : Progress) (node : NodeId) : Progress :=
  if node∉trusted then s
  else if t.reliable node then
    match t.nodeToKey.lookup node with
    | some key => ⟨s.disabled.erase node,s.changes++[⟨key,false,ledgerSeq⟩]⟩
    | none => s
  else s

/-- The loop over the trusted validators. -/
def disableLoop (maxDisabled : ℕ) (s : Progress) : List NodeId → Progress
  | [] => s
  | node::nodes =>
    if node∈s.disabled then disableLoop maxDisabled s nodes
    else if s.disabled.entries.length ≥ maxDisabled then s
    else if !t.reliable node then
      match t.nodeToKey.lookup node with
      | some key =>
        disableLoop maxDisabled ⟨s.disabled.insert node (),s.changes++[⟨key,true,ledgerSeq⟩]⟩
          nodes
      | none => disableLoop maxDisabled s nodes
    else disableLoop maxDisabled s nodes

def evaluate (o : IterOrder) : NegativeUnlTracker × List NegativeUnlChange :=
  if t.ledgersInWindow=0 then (t.rotateWindow,[])
  else
    let s := (o.order t.currentlyDisabled.keys).foldl (t.reenable trusted ledgerSeq)
      ⟨t.currentlyDisabled,[]⟩
    let s := t.disableLoop ledgerSeq (maxNegativeUnlSize trusted.keys.length) s
      (o.order trusted.keys)
    ({ t with currentlyDisabled := s.disabled }.rotateWindow,s.changes)

/-- The change that names a validator, if its key is known. -/
def changeOf (disable : Bool) (node : NodeId) : Option NegativeUnlChange :=
  (t.nodeToKey.lookup node).map fun key => ⟨key,disable,ledgerSeq⟩

/-- A disabled validator that comes back. -/
def recovered (node : NodeId) : Bool :=
    decide (node∈trusted) && t.reliable node && (t.nodeToKey.lookup node).isSome

/-- A validator that is to be disabled if there is a place. -/
def candidate (node : NodeId) : Bool :=
  decide (node∉t.currentlyDisabled) && !t.reliable node && (t.nodeToKey.lookup node).isSome

/-- The places that are free after the first loop. -/
def freePlaces : ℕ :=
  maxNegativeUnlSize trusted.keys.length-(t.currentlyDisabled.keys.filter fun n =>
    !t.recovered trusted n).length

end

variable {t t' : NegativeUnlTracker} {trusted trusted' : HashSet NodeId} {ledgerSeq : ℕ}
  {s : Progress}

/-! ## The two loops -/

theorem reenable_eq (s : Progress) (node : NodeId) :
    t.reenable trusted ledgerSeq s node=if t.recovered trusted node then
      ⟨s.disabled.erase node,s.changes++(t.changeOf ledgerSeq false node).toList⟩ else s := by
  rw [reenable,recovered,changeOf]
  by_cases htrusted : node∈trusted <;> by_cases hreliable : t.reliable node=true <;>
    cases t.nodeToKey.lookup node <;> simp [htrusted,hreliable]

/-- The first loop takes off those that have recovered. -/
theorem foldl_reenable (nodes : List NodeId) (s : Progress) :
    (∀ n, n∈(nodes.foldl (t.reenable trusted ledgerSeq) s).disabled ↔
      n∈s.disabled ∧ ¬ (n∈nodes ∧ t.recovered trusted n)) ∧
    (nodes.foldl (t.reenable trusted ledgerSeq) s).changes =
      s.changes++(nodes.filter (t.recovered trusted)).filterMap (t.changeOf ledgerSeq false) := by
  induction nodes generalizing s with
  | nil => simp
  | cons node nodes ih =>
    obtain ⟨hdisabled,hchanges⟩ := ih (t.reenable trusted ledgerSeq s node)
    rw [foldl_cons]
    by_cases hrecovered : t.recovered trusted node=true
    · rw [reenable_eq,if_pos hrecovered] at hdisabled hchanges ⊢
      refine ⟨fun n => ?_,?_⟩
      · rw [hdisabled n,AList.mem_erase,mem_cons]
        grind
      · rw [hchanges,filter_cons_of_pos hrecovered,filterMap_cons,append_assoc]
        cases t.changeOf ledgerSeq false node <;> simp
    · rw [reenable_eq,if_neg hrecovered] at hdisabled hchanges ⊢
      refine ⟨fun n => ?_,?_⟩
      · rw [hdisabled n,mem_cons]
        grind
      · rw [hchanges,filter_cons_of_neg hrecovered]

/-- The second loop takes the first candidates, as many as there are places. -/
theorem disableLoop_spec (maxDisabled : ℕ) {nodes : List NodeId} (hnodup : nodes.Nodup)
    {picks : List NodeId}
    (hpicks : picks=(nodes.filter fun n =>
      decide (n∉s.disabled) && !t.reliable n && (t.nodeToKey.lookup n).isSome).take
        (maxDisabled-s.disabled.entries.length)) :
    (∀ n, n∈(t.disableLoop ledgerSeq maxDisabled s nodes).disabled ↔ n∈s.disabled ∨ n∈picks) ∧
      (t.disableLoop ledgerSeq maxDisabled s nodes).changes =
        s.changes++picks.filterMap (t.changeOf ledgerSeq true) := by
  induction nodes generalizing s picks with
  | nil => simp [disableLoop,hpicks]
  | cons node nodes ih =>
    obtain ⟨hnode,hnodup⟩ := nodup_cons.mp hnodup
    rw [disableLoop]
    by_cases hdisabled : node∈s.disabled
    · rw [if_pos hdisabled]
      exact ih hnodup (by simpa [hdisabled] using hpicks)
    rw [if_neg hdisabled]
    by_cases hfull : s.disabled.entries.length ≥ maxDisabled
    · rw [if_pos hfull]
      simp [hpicks,Nat.sub_eq_zero_of_le hfull]
    rw [if_neg hfull]
    by_cases hreliable : t.reliable node=true
    · rw [if_neg (by simp [hreliable])]
      exact ih hnodup (by simpa [hreliable] using hpicks)
    rw [if_pos (by simp [hreliable])]
    cases hkey : t.nodeToKey.lookup node with
    | none => exact ih hnodup (by simpa [hkey] using hpicks)
    | some key =>
      have hlength := length_insert_of_notMem hdisabled ()
      obtain ⟨k,hk⟩ : ∃ k, maxDisabled-s.disabled.entries.length=k+1 :=
        ⟨maxDisabled-s.disabled.entries.length-1,by omega⟩
      obtain ⟨hmem,hchanges⟩ :=
        ih (s := ⟨s.disabled.insert node (),s.changes++[⟨key,true,ledgerSeq⟩]⟩) hnodup rfl
      rw [filter_cons_of_pos (by simp [hdisabled,hreliable,hkey]),hk,take_succ_cons] at hpicks
      -- the node itself does not come again
      have hrest : (nodes.filter fun n => decide (n∉s.disabled.insert node ()) && !t.reliable n &&
          (t.nodeToKey.lookup n).isSome)=nodes.filter fun n =>
            decide (n∉s.disabled) && !t.reliable n && (t.nodeToKey.lookup n).isSome := by
        refine filter_congr fun n hn => ?_
        have hne : n≠node := fun h => hnode (h ▸ hn)
        simp [AList.mem_insert,hne]
      dsimp only at hmem hchanges
      rw [hrest,hlength,show maxDisabled-(s.disabled.entries.length+1)=k by omega] at hmem hchanges
      refine ⟨fun n => ?_,?_⟩
      · rw [hmem n,hpicks,AList.mem_insert,mem_cons]
        tauto
      · rw [hchanges,hpicks]
        simp [changeOf,hkey]

/-! ## Agreement -/

/-- The validators that `evaluate` disables when it runs over the trusted ones in a given order. -/
def picked (trusted : HashSet NodeId) (order : List NodeId) :
    List NodeId :=
  (order.filter t.candidate).take (t.freePlaces trusted)

theorem evaluate_spec (o : IterOrder) (hwindow : t.ledgersInWindow≠0) :
    (∀ n, n∈(t.evaluate trusted ledgerSeq o).1.currentlyDisabled ↔
      n∈t.currentlyDisabled ∧ ¬ t.recovered trusted n ∨ n∈t.picked trusted (o.order trusted.keys)) ∧
    ∀ c, c∈(t.evaluate trusted ledgerSeq o).2 ↔
      (∃ n∈t.currentlyDisabled, t.recovered trusted n ∧ t.changeOf ledgerSeq false n=some c) ∨
        ∃ n∈t.picked trusted (o.order trusted.keys), t.changeOf ledgerSeq true n=some c := by
  obtain ⟨s,hs⟩ : ∃ s, s=(o.order t.currentlyDisabled.keys).foldl (t.reenable trusted ledgerSeq)
    ⟨t.currentlyDisabled,[]⟩ :=
    ⟨_,rfl⟩
  obtain ⟨hdisabled,hchanges⟩ :=
    @foldl_reenable t trusted ledgerSeq (o.order t.currentlyDisabled.keys)
    ⟨t.currentlyDisabled,[]⟩
  rw [← hs] at hdisabled hchanges
  replace hdisabled : ∀ n, n∈s.disabled ↔ n∈t.currentlyDisabled ∧ ¬ t.recovered trusted n := by
    intro n
    rw [hdisabled n,(o.perm _).mem_iff,← AList.mem_keys]
    tauto
  have hlength : s.disabled.entries.length=(t.currentlyDisabled.keys.filter fun n =>
    !t.recovered trusted n).length := by
    have hperm : s.disabled.keys.Perm
      (t.currentlyDisabled.keys.filter fun n => !t.recovered trusted n) := by
      refine (perm_ext_iff_of_nodup s.disabled.keys_nodup
        (t.currentlyDisabled.keys_nodup.filter _)).mpr fun n => ?_
      rw [← AList.mem_keys,hdisabled n,mem_filter,← AList.mem_keys]
      simp
    simpa [AList.keys,keys] using hperm.length_eq
  have hcandidate : ∀ n,
    (decide (n∉s.disabled) && !t.reliable n && (t.nodeToKey.lookup n).isSome)=t.candidate n := by
    intro n
    rw [candidate,Bool.eq_iff_iff]
    simp only [Bool.and_eq_true,decide_eq_true_eq,Bool.not_eq_true',hdisabled n,recovered]
    grind
  obtain ⟨hmem,hall⟩ := @disableLoop_spec t ledgerSeq s (maxNegativeUnlSize trusted.keys.length) _
    ((o.perm trusted.keys).nodup_iff.mpr trusted.keys_nodup)
      (t.picked trusted (o.order trusted.keys))
    (by simp only [hcandidate,hlength]; rfl)
  have heq : t.evaluate trusted ledgerSeq o=({ t with currentlyDisabled := (t.disableLoop ledgerSeq
      (maxNegativeUnlSize trusted.keys.length) s (o.order trusted.keys)).disabled }.rotateWindow,
      (t.disableLoop ledgerSeq (maxNegativeUnlSize trusted.keys.length) s
        (o.order trusted.keys)).changes) := by
    rw [evaluate,if_neg hwindow,← hs]
  rw [heq]
  refine ⟨fun n => by rw [← hdisabled n]; exact hmem n,fun c => ?_⟩
  rw [hall,hchanges]
  simp only [nil_append,mem_append,mem_filterMap,mem_filter,(o.perm _).mem_iff,← AList.mem_keys,
    and_assoc]

/-- What two nodes share: the history of the window, the keys of the validators and who is disabled.
-/
structure Agree (t t' : NegativeUnlTracker) : Prop where
  ledgers : t.ledgersInWindow=t'.ledgersInWindow
  received : ∀ n, t.currentWindow.lookup n=t'.currentWindow.lookup n
  keys : ∀ n, t.nodeToKey.lookup n=t'.nodeToKey.lookup n
  disabled : ∀ n, n∈t.currentlyDisabled ↔ n∈t'.currentlyDisabled

/-- The same changes and the same disabled validators. -/
def SameOutcome (r r' : NegativeUnlTracker × List NegativeUnlChange) : Prop :=
  (∀ n, n∈r.1.currentlyDisabled ↔ n∈r'.1.currentlyDisabled) ∧ ∀ c, c∈r.2 ↔ c∈r'.2

theorem keys_perm {m m' : HashSet NodeId} (h : ∀ n, n∈m ↔ n∈m') : m.keys.Perm m'.keys :=
  (perm_ext_iff_of_nodup m.keys_nodup m'.keys_nodup).mpr fun n => by
    rw [← AList.mem_keys,h n,AList.mem_keys]

/-- There is a place for every candidate, or for none. -/
def PlacesSuffice (trusted : HashSet NodeId) : Prop :=
  (trusted.keys.filter t.candidate).length ≤ t.freePlaces trusted ∨ t.freePlaces trusted=0

theorem PlacesSuffice.mem_picked (h : t.PlacesSuffice trusted) {order : List NodeId}
    (horder : order.Perm trusted.keys) (n : NodeId) :
    n∈t.picked trusted order ↔ t.freePlaces trusted≠0 ∧ n∈trusted ∧
      t.candidate n := by
  by_cases hzero : t.freePlaces trusted=0
  · simp [picked,hzero]
  · have hlength := (horder.filter t.candidate).length_eq
    have hall := h.resolve_right hzero
    rw [picked,take_of_length_le (hlength.trans_le hall),mem_filter,horder.mem_iff,← AList.mem_keys]
    simp [hzero]

theorem Agree.reliable_eq (h : t.Agree t') : t.reliable=t'.reliable := by
  funext n
  rw [reliable,reliable,h.ledgers,h.received n]

theorem Agree.candidate_eq (h : t.Agree t') : t.candidate=t'.candidate := by
  funext n
  simp only [candidate,h.reliable_eq,h.keys n,h.disabled n]

theorem Agree.recovered_eq (h : t.Agree t') (htrusted : ∀ n, n∈trusted ↔ n∈trusted') :
    t.recovered trusted=t'.recovered trusted' := by
  funext n
  simp only [recovered,h.reliable_eq,h.keys n,htrusted n]

theorem Agree.freePlaces_eq (h : t.Agree t') (htrusted : ∀ n, n∈trusted ↔ n∈trusted') :
    t.freePlaces trusted=t'.freePlaces trusted' := by
  rw [freePlaces,freePlaces,(keys_perm htrusted).length_eq,h.recovered_eq htrusted,
    ((keys_perm h.disabled).filter _).length_eq]

/-- Nodes that share their state come to the same outcome, whatever the order of their loops,
exactly if the window is empty or the places suffice. -/
theorem evaluate_same_outcome_iff (trusted : HashSet NodeId)
    (ledgerSeq : ℕ) :
    (∀ (t' : NegativeUnlTracker) (trusted' : HashSet NodeId) (o o' : IterOrder), t.Agree t' →
      (∀ n, n∈trusted ↔ n∈trusted') →
        SameOutcome (t.evaluate trusted ledgerSeq o) (t'.evaluate trusted' ledgerSeq o')) ↔
      t.ledgersInWindow=0 ∨ t.PlacesSuffice trusted := by
  by_cases hwindow : t.ledgersInWindow=0
  · refine iff_of_true (fun t' trusted' o o' hagree _ => ?_) (.inl hwindow)
    rw [evaluate,evaluate,if_pos hwindow,if_pos (hagree.ledgers ▸ hwindow)]
    exact ⟨hagree.disabled,fun c => .rfl⟩
  rw [or_iff_right hwindow]
  constructor
  · intro h
    by_contra hplaces
    simp only [PlacesSuffice,not_or,not_le] at hplaces
    obtain ⟨hfew,hsome⟩ := hplaces
    -- in the listed order the first candidate is taken, in the reversed one it is the last
    obtain ⟨hsame,-⟩ := h t trusted .listed ⟨reverse,reverse_perm⟩
      ⟨rfl,fun _ => rfl,fun _ => rfl,fun _ => .rfl⟩
      fun _ => .rfl
    cases hlist : trusted.keys.filter t.candidate with
    | nil => simp [hlist] at hfew
    | cons first rest =>
      have hfirst := hsame first
      rw [(evaluate_spec .listed hwindow).1,(evaluate_spec ⟨reverse,reverse_perm⟩ hwindow).1]
        at hfirst
      have hmem : first∈t.picked trusted trusted.keys := by
        rw [picked,hlist,← Nat.succ_pred hsome,take_succ_cons]
        simp
      have hnodup : (first::rest).Nodup := hlist ▸ trusted.keys_nodup.filter _
      have hcandidate : t.candidate first :=
        (mem_filter.mp (hlist ▸ mem_cons_self : first∈trusted.keys.filter _)).2
      obtain ⟨hdisabled,-⟩ | hlast := hfirst.mp (.inr hmem)
      · simp [candidate,hdisabled] at hcandidate
      · rw [hlist,length_cons] at hfew
        rw [picked,filter_reverse,hlist,reverse_cons,
          take_append_of_le_length (by rw [length_reverse]; omega)] at hlast
        exact (nodup_cons.mp hnodup).1 (mem_reverse.mp (mem_of_mem_take hlast))
  · intro hplaces t' trusted' o o' hagree htrusted
    have hplaces' : t'.PlacesSuffice trusted' := by
      rwa [PlacesSuffice,← hagree.candidate_eq,← hagree.freePlaces_eq htrusted,
        ← ((keys_perm htrusted).filter t.candidate).length_eq]
    have hpicked : ∀ n, n∈t.picked trusted (o.order trusted.keys) ↔
      n∈t'.picked trusted' (o'.order trusted'.keys) := by
      intro n
      rw [hplaces.mem_picked (o.perm _),hplaces'.mem_picked (o'.perm _),hagree.candidate_eq,
        hagree.freePlaces_eq htrusted,
        htrusted n]
    obtain ⟨hdisabled,hchanges⟩ := @evaluate_spec t trusted ledgerSeq o hwindow
    obtain ⟨hdisabled',hchanges'⟩ :=
      @evaluate_spec t' trusted' ledgerSeq o' (hagree.ledgers ▸ hwindow)
    refine ⟨fun n => ?_,fun c => ?_⟩
    · rw [hdisabled n,hdisabled' n,hpicked n,hagree.disabled n,hagree.recovered_eq htrusted]
    · rw [hchanges c,hchanges' c]
      simp only [hpicked,hagree.disabled,hagree.recovered_eq htrusted,changeOf,hagree.keys]

theorem length_evaluate (o : IterOrder) :
    (t.evaluate trusted ledgerSeq o).1.currentlyDisabled.keys.length ≤
    max t.currentlyDisabled.keys.length (maxNegativeUnlSize trusted.keys.length) := by
  by_cases hwindow : t.ledgersInWindow=0
  · simp [evaluate,hwindow,rotateWindow]
  refine (subperm_of_subset (AList.keys_nodup _) (fun n hn => ?_ : _⊆t.currentlyDisabled.keys.filter
    (fun n => !t.recovered trusted n)++t.picked trusted (o.order trusted.keys))).length_le.trans ?_
  · rw [← AList.mem_keys,(evaluate_spec o hwindow).1] at hn
    simpa [← AList.mem_keys] using hn
  · have := length_filter_le (fun n => !t.recovered trusted n) t.currentlyDisabled.keys
    rw [length_append,picked,length_take,freePlaces]
    omega

/-- Evaluations of any windows, from nobody disabled on, leave at most a quarter of the largest
trusted set disabled. -/
theorem disabled_capped (flags : List (NegativeUnlTracker × HashSet NodeId × ℕ × IterOrder)) :
    (flags.foldl (fun (d : HashSet NodeId) f =>
      ({ f.1 with currentlyDisabled := d }.evaluate f.2.1 f.2.2.1 f.2.2.2).1.currentlyDisabled)
        ∅).keys.length ≤
        (flags.map fun f => maxNegativeUnlSize f.2.1.keys.length).foldl max 0 := by
  induction flags using reverseRecOn with
  | nil => rfl
  | append_singleton flags f ih =>
    rw [foldl_append,map_append,foldl_append]
    exact (length_evaluate f.2.2.2).trans (max_le_max_right _ ih)

def fourValidators : HashSet NodeId := [1,2,3,4].foldl (fun m n => m.insert ⟨.ofNat n⟩ ()) ∅

/-- A window of two ledgers in which nobody was heard. -/
def silentWindow : NegativeUnlTracker :=
  ⟨2,∅,∅,[(1,"a"),(2,"b"),(3,"c"),(4,"d")].foldl (fun m x => m.insert ⟨.ofNat x.1⟩ x.2) ∅,
    ∅⟩

/-- Four candidates for one place. -/
theorem order_decides_disabled : ¬ SameOutcome (silentWindow.evaluate fourValidators 256 .listed)
    (silentWindow.evaluate fourValidators 256 ⟨List.reverse,List.reverse_perm⟩) := by
  intro h
  have hone := h.1 ⟨.ofNat 1⟩
  revert hone
  decide

end NegativeUnlTracker

end Rxrpl.Consensus
