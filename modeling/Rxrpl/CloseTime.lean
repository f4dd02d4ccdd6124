import Rxrpl.ConsensusTypes

/-!
# Close times

The rounding of close times, the adaptive resolution and the vote over rounded close times.
A vote counts if it is not the sentinel `0` and its bucket lies above the parent's close
time; `survivingBuckets` lists the votes that count, and `effectiveCloseTime_cases` says how
the outcome follows from them.
-/

namespace Rxrpl.Consensus

open HashMap List

/-! ## Resolutions -/

def timeResolutions (i : Fin 6) : ℕ := [10,20,30,60,90,120].get i

/-- `nearest_index`: the first bin with the least distance. -/
def nearestIndex (resolution : ℕ) : Fin 6 :=
  ((List.finRange 6).foldl (fun (best : Fin 6 × ℕ) i =>
    let diff := absDiff (timeResolutions i) resolution
    if diff < best.2 then (i,diff) else best) (0,u32Max)).1

/-- `next_resolution`: finer every 8 ledgers after agreement, coarser after disagreement. -/
def nextResolution (parentResolution : ℕ) (previousAgree : Bool) (newLedgerSeq : ℕ) : ℕ :=
  if newLedgerSeq=0 then parentResolution
  else match (List.finRange 6).find? fun i => timeResolutions i == parentResolution with
    | none => parentResolution
    | some idx =>
      if h : ¬ previousAgree ∧ newLedgerSeq % 1=0 ∧
        idx.val+1 < 6 then timeResolutions ⟨idx.val+1,h.2.2⟩
      else if previousAgree ∧ newLedgerSeq % 8=0 ∧ 0 < idx.val then
        timeResolutions ⟨idx.val-1,by omega⟩
      else parentResolution

/-- The part of `AdaptiveCloseTime` that the engine uses: the current bin. -/
structure AdaptiveCloseTime where
  index : Fin 6

/-- `AdaptiveCloseTime::new`, also `set_resolution`. -/
def AdaptiveCloseTime.new (resolution : ℕ) : AdaptiveCloseTime := ⟨nearestIndex resolution⟩

def AdaptiveCloseTime.resolution (a : AdaptiveCloseTime) : ℕ := timeResolutions a.index

/-! ## Rounding -/

def roundCloseTime (t resolution : ℕ) : ℕ :=
  if resolution=0 then t else saturatingAdd t (resolution/2)/resolution*resolution

def effCloseTime (closeTime resolution priorCloseTime : ℕ) : ℕ :=
  if closeTime=0 then 0
  else
    let rounded := roundCloseTime closeTime resolution
    let minAllowed := saturatingAdd priorCloseTime 1
    if rounded > minAllowed then rounded else minAllowed

@[simp] theorem effCloseTime_zero (resolution prior : ℕ) : effCloseTime 0 resolution prior=0 := rfl

theorem lt_effCloseTime {t resolution prior : ℕ} (ht : t≠0) (hprior : prior < u32Max) :
    prior < effCloseTime t resolution prior := by
  simp only [effCloseTime,if_neg ht,saturatingAdd,min_eq_left (show prior+1 ≤ u32Max from hprior)]
  split <;> omega

/-! ## The vote -/

/-- One vote of the loops over the positions: filtered, then counted under its bucket. -/
def voteCloseTime (resolution prior : ℕ) (votes : HashMap ℕ ℕ) (t : ℕ) : HashMap ℕ ℕ :=
  if t=0 then votes
  else if roundCloseTime t resolution < saturatingAdd prior 1 then votes
  else votes.vote (roundCloseTime t resolution)

/-- The tally that `effective_close_time` and `align_close_time_with_peers` compute. -/
def closeTimeVotes (o : IterOrder) (resolution prior ourTime : ℕ)
    (peers : HashMap NodeId Proposal) : HashMap ℕ ℕ :=
  (peers.iterValues o).foldl (fun votes p => voteCloseTime resolution prior votes p.closeTime)
    (voteCloseTime resolution prior ∅ ourTime)

/-- The bucket with the most votes and their number, the later bucket on a tie. -/
def bestBucket (o : IterOrder) (votes : HashMap ℕ ℕ) : ℕ × ℕ :=
    plurality (0,0) (o.order votes.entries)

/-- `effective_close_time`: the close time and whether there was a consensus on it. -/
def effectiveCloseTime (o : IterOrder) (resolution prior : ℕ) (ourPosition : Option Proposal)
    (peers : HashMap NodeId Proposal) : ℕ × Bool :=
  match ourPosition with
  | none => (0,true)
  | some pos =>
    if peers.entries=[] then (effCloseTime pos.closeTime resolution prior,true)
    else
      let votes := closeTimeVotes o resolution prior pos.closeTime peers
      if votes.entries=[] then (effCloseTime pos.closeTime resolution prior,true)
      else
        let best := bestBucket o votes
        if best.2*2 ≤ votes.values.sum then (effCloseTime 0 resolution prior,false)
        else (effCloseTime best.1 resolution prior,true)

def survivingBucket (resolution prior t : ℕ) : Option ℕ :=
  if t=0 then none
  else if roundCloseTime t resolution < saturatingAdd prior 1 then none
  else some (roundCloseTime t resolution)

def survivingBuckets (resolution prior : ℕ) (times : List ℕ) : List ℕ :=
  times.filterMap (survivingBucket resolution prior)

/-- Two or more buckets survive the filter and none has a strict majority. -/
def Split (buckets : List ℕ) : Prop :=
  2 ≤ buckets.toFinset.card ∧ ∀ b, 2*buckets.count b ≤ buckets.length

variable {b : ℕ} {buckets times : List ℕ}

theorem split_iff : Split buckets ↔ buckets≠[] ∧ ∀ b, 2*buckets.count b ≤ buckets.length := by
  constructor
  · rintro ⟨hcard,hall⟩
    refine ⟨?_,hall⟩
    rintro rfl
    simp at hcard
  · rintro ⟨hne,hall⟩
    refine ⟨?_,hall⟩
    by_contra hcard
    -- a single bucket has all the votes
    obtain ⟨b,hb⟩ := exists_mem_of_ne_nil _ hne
    have hone : buckets.toFinset.card ≤ 1 := by omega
    have hsame : ∀ b'∈buckets, b=b' := fun b' hb' =>
      Finset.card_le_one.mp hone b (mem_toFinset.mpr hb) b' (mem_toFinset.mpr hb')
    have hcount := count_eq_length.mpr hsame
    have hpos := length_pos_of_mem hb
    have := hall b
    omega

theorem majority_unique {l : List ℕ} {b' : ℕ} (hb : l.length < 2*l.count b)
    (hb' : l.length < 2*l.count b') : b=b' := by
  by_contra hne
  have hcount : l.count b' ≤ l.countP fun a => ¬ (a == b)=true := by
    refine countP_mono_left fun x _ hx => ?_
    simp only [beq_iff_eq,decide_eq_true_eq] at hx ⊢
    exact hx ▸ Ne.symm hne
  have hlength := l.length_eq_countP_add_countP (· == b)
  rw [← count] at hlength
  omega

variable {resolution prior : ℕ} {peers : HashMap NodeId Proposal} {pos : Proposal}

theorem counts_voteCloseTime {votes : HashMap ℕ ℕ} (t : ℕ)
    (h : Counts votes (survivingBuckets resolution prior times)) :
    Counts (voteCloseTime resolution prior votes t)
      (survivingBuckets resolution prior (times++[t])) := by
  have happend : survivingBuckets resolution prior (times++[t]) =
      survivingBuckets resolution prior times++(survivingBucket resolution prior t).toList := by
    cases ht : survivingBucket resolution prior t <;> simp [survivingBuckets,ht]
  rw [happend,voteCloseTime,survivingBucket]
  split
  · simpa using h
  · split
    · simpa using h
    · exact h.vote _

theorem counts_closeTimeVotes (o : IterOrder) (resolution prior ourTime : ℕ)
    (peers : HashMap NodeId Proposal) :
    Counts (closeTimeVotes o resolution prior ourTime peers)
      (survivingBuckets resolution prior (ourTime::peers.values.map (·.closeTime))) := by
  have hfold : ∀ (l : List Proposal) (votes : HashMap ℕ ℕ) (times : List ℕ),
      Counts votes (survivingBuckets resolution prior times) →
      Counts (l.foldl (fun votes p => voteCloseTime resolution prior votes p.closeTime) votes)
        (survivingBuckets resolution prior (times++l.map (·.closeTime))) := by
    intro l
    induction l with
    | nil => intro votes times h; simpa using h
    | cons p l ih =>
      intro votes times h
      simpa using ih _ _ (counts_voteCloseTime p.closeTime h)
  have hours : Counts (voteCloseTime resolution prior ∅ ourTime)
    (survivingBuckets resolution prior ([]++[ourTime])) :=
    counts_voteCloseTime ourTime counts_empty
  exact (hfold _ _ [ourTime] hours).perm ((((iterValues_perm o peers).map _).cons _).filterMap _)

theorem ne_zero_of_mem_survivingBuckets (hb : b∈survivingBuckets resolution prior times) : b≠0 := by
  obtain ⟨t,-,ht⟩ := mem_filterMap.mp hb
  simp only [survivingBucket] at ht
  have : 1 ≤ saturatingAdd prior 1 := by simp only [saturatingAdd,u32Max]; omega
  split at ht
  · cases ht
  split_ifs at ht
  cases ht
  omega

/-- Where a vote counts, a strict majority of those that count decides; without one there is no
consensus. -/
theorem effectiveCloseTime_of_votes (o : IterOrder) (hpeers : peers.entries≠[])
    (hbuckets : (survivingBuckets resolution prior
      (pos.closeTime::peers.values.map (·.closeTime))).Perm buckets)
    (hne : buckets≠[]) : ((∀ b, 2*buckets.count b ≤ buckets.length) ∧
      effectiveCloseTime o resolution prior (some pos) peers=(0,false)) ∨
    ∃ b∈buckets, buckets.length < 2*buckets.count b ∧
      effectiveCloseTime o resolution prior
        (some pos) peers=(effCloseTime b resolution prior,true) := by
  have hcounts := (counts_closeTimeVotes o resolution prior pos.closeTime peers).perm hbuckets
  have hhalf := hcounts.plurality_le_half_iff hne (o.perm _) 0
  obtain ⟨hmem,hcount⟩ := hcounts.plurality_eq hne (o.perm _) 0
  simp only [effectiveCloseTime]
  rw [if_neg hpeers,if_neg (fun h => hne (hcounts.entries_eq_nil_iff.mp h))]
  by_cases hall : ∀ b, 2*buckets.count b ≤ buckets.length
  · exact .inl ⟨hall,by rw [bestBucket,if_pos (hhalf.mpr hall),effCloseTime_zero]⟩
  · refine .inr ⟨_,hmem,?_,by rw [bestBucket,if_neg fun h => hall (hhalf.mp h)]⟩
    have hlt := not_le.mp fun h => hall (hhalf.mp h)
    rw [hcounts.sum_values,hcount] at hlt
    omega

/-- The outcome of the vote: without a strict majority there is no consensus and the close
time is the sentinel; otherwise it is a real close time, rounded and clamped. -/
theorem effectiveCloseTime_cases (o : IterOrder) (hpos : pos.closeTime≠0) :
    (Split (survivingBuckets resolution prior (pos.closeTime::peers.values.map (·.closeTime))) ∧
      effectiveCloseTime o resolution prior (some pos) peers=(0,false)) ∨
    (¬ Split (survivingBuckets resolution prior (pos.closeTime::peers.values.map (·.closeTime))) ∧
      ∃ t≠0, effectiveCloseTime o resolution prior
        (some pos) peers=(effCloseTime t resolution prior,true)) := by
  rw [split_iff]
  by_cases hpeers : peers.entries=[]
  · -- our vote alone is either dropped or unanimous
    right
    refine ⟨?_,pos.closeTime,hpos,by simp only [effectiveCloseTime,if_pos hpeers]⟩
    rintro ⟨hne,hall⟩
    obtain ⟨b,hb⟩ := exists_mem_of_ne_nil _ hne
    have hlen :
      (survivingBuckets resolution prior
      (pos.closeTime::peers.values.map (·.closeTime))).length ≤ 1 :=
      (length_filterMap_le _ _).trans (by simp [values,hpeers])
    have := count_pos_iff.mpr hb
    have := hall b
    omega
  by_cases hne : survivingBuckets resolution prior
    (pos.closeTime::peers.values.map (·.closeTime))=[]
  · right
    have hvotes :=
      (counts_closeTimeVotes o resolution prior pos.closeTime peers).entries_eq_nil_iff.mpr hne
    exact ⟨fun h => h.1 hne,pos.closeTime,hpos,
      by simp only [effectiveCloseTime,if_neg hpeers,if_pos hvotes]⟩
  obtain ⟨hall,heq⟩ | ⟨b,hb,hlt,heq⟩ := effectiveCloseTime_of_votes o hpeers (.refl _) hne
  · exact .inl ⟨⟨hne,hall⟩,heq⟩
  · exact .inr ⟨fun h => absurd (h.2 b) (not_le.mpr hlt),b,ne_zero_of_mem_survivingBuckets hb,heq⟩

end Rxrpl.Consensus
