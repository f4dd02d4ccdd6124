import Rxrpl.InputRuns
import Rxrpl.Manifests
import Rxrpl.Newest

/-!
# What a manifest store knows after a history of manifests

The store keeps the newest manifest of each master key that it has been presented with, and a master
key is revoked when that manifest revokes it. The third map, from ephemeral keys to master keys,
follows the other two as long as no manifest is accepted that names the key of another master.
-/

namespace Rxrpl.Consensus

open InputRun Newest List

/-! ## Verified manifests -/

/-- A manifest that `parse_and_verify` has returned. -/
def Manifest.Verified (schemes : SignatureSchemes) (m : Manifest) : Prop :=
  ∃ data, parseAndVerify schemes data=.ok m

/-- The sequence is a `u32`, and the ephemeral key is missing in a revocation only. -/
structure Manifest.WellFormed (m : Manifest) : Prop where
  sequence_le : m.sequence ≤ manifestRevokedSeq
  ephemeral : m.ephemeralPublicKey=none ↔ m.isRevoked=true

namespace ManifestFields

/-- A sequence that has been read is a `u32`. -/
def SequenceFits (f : ManifestFields) : Prop := ∀ n, f.sequence=some n → n ≤ manifestRevokedSeq

variable {f f' : ManifestFields}

variable {data rest value : Bytes} {fieldId : ℕ}

theorem takeValue_ok {n : ℕ} (h : takeValue n data=.ok (value,rest)) : value.length=n := by
  unfold takeValue at h
  split_ifs at h
  cases h
  rw [length_take]
  omega

theorem sequence_readBlob {bytes : Bytes} (h : f.readBlob fieldId value bytes=.ok f') :
    f'.sequence=f.sequence := by
  unfold readBlob at h
  split at h
  all_goals first | (cases h; rfl) | skip
  split at h
  · cases h
  · cases h
    rfl

theorem SequenceFits.readField {typeId : ℕ} {header : Bytes} (hf : f.SequenceFits)
    (h : f.readField typeId fieldId header data=.ok (some (f',rest))) : f'.SequenceFits := by
  have hfixed : ∀ n, (takeValue n data >>= fun x => .ok (some (f.sign (header++x.1),x.2))) =
      Except.ok (some (f',rest)) → f'.SequenceFits := by
    intro n hn
    obtain ⟨⟨value,rest⟩,-,hv⟩ := bind_ok hn
    cases hv
    exact hf
  unfold ManifestFields.readField at h
  split at h
  · split at h
    · obtain ⟨⟨value,rest⟩,hvalue,hv⟩ := bind_ok h
      cases hv
      intro n hn
      cases hn
      have hlt := Codec.fromBeBytes_lt value
      rw [takeValue_ok hvalue] at hlt
      exact Nat.le_of_lt_succ hlt
    · exact hfixed 4 h
  · exact hfixed 8 h
  · exact hfixed 32 h
  · obtain ⟨⟨len,value,rest⟩,-,hv⟩ := bind_ok h
    obtain ⟨g,hg,hv⟩ := bind_ok hv
    cases hv
    intro n hn
    rw [sequence_readBlob hg] at hn
    exact hf n hn
  · cases h

theorem SequenceFits.readAll {fuel : ℕ} (hf : f.SequenceFits) (h : readAll fuel f data=.ok f') :
    f'.SequenceFits := by
  induction fuel generalizing f data with
  | zero =>
    cases h
    exact hf
  | succ fuel ih =>
    rw [ManifestFields.readAll] at h
    split at h
    · cases h
      exact hf
    obtain ⟨next,hnext,h⟩ := bind_ok h
    match next, h with
    | none, h =>
      cases h
      exact hf
    | some (g,rest), h => exact ih (hf.readField hnext) h

end ManifestFields

theorem Manifest.Verified.wellFormed {schemes : SignatureSchemes} {m : Manifest}
    (h : m.Verified schemes) : m.WellFormed := by
  obtain ⟨data,h⟩ := h
  obtain ⟨raw,hraw,h⟩ := bind_ok h
  split at h
  · cases h
  obtain ⟨ephemeral,heph,h⟩ := bind_ok h
  obtain ⟨master,-,h⟩ := bind_ok h
  cases h
  constructor
  · obtain ⟨f,hf,hraw⟩ := bind_ok hraw
    obtain ⟨sequence,hseq,hraw⟩ := bind_ok hraw
    obtain ⟨_,_,hraw⟩ := bind_ok hraw
    obtain ⟨_,_,hraw⟩ := bind_ok hraw
    cases hraw
    have hfits : f.SequenceFits := ManifestFields.SequenceFits.readAll (fun _ hn => by cases hn) hf
    unfold required at hseq
    split at hseq
    · rename_i hsome
      cases hseq
      exact hfits _ hsome
    · cases hseq
  · unfold verifyEphemeral at heph
    split at heph
    · rename_i hrevoked
      cases heph
      simp [isRevoked,hrevoked]
    · rename_i hrevoked
      split at heph
      · cases heph
      split at heph
      · cases heph
      split at heph
      · cases heph
      · obtain ⟨pk,-,heph⟩ := bind_ok heph
        cases heph
        simp [isRevoked,hrevoked]

/-! ## One manifest -/

namespace ManifestStore

variable {store : ManifestStore} {m : Manifest}

/-- What `apply` asks for: the master key is not revoked, and the manifest is newer than the one it
has. -/
structure Accepts (store : ManifestStore) (m : Manifest) : Prop where
  live : store.isRevoked m.masterPublicKey=false
  newer : ∀ existing, store.getManifest m.masterPublicKey=some existing →
    existing.sequence < m.sequence

theorem newer_iff :
    (∀ existing, store.getManifest m.masterPublicKey=some existing →
      existing.sequence < m.sequence) ↔
    ((store.manifests.lookup m.masterPublicKey).any fun existing =>
      decide (m.sequence ≤ existing.sequence))=false := by
  rw [getManifest]
  cases store.manifests.lookup m.masterPublicKey <;> simp

theorem apply_of_not_accepts (h : ¬ store.Accepts m) : store.apply m=(false,store) := by
  unfold apply
  dsimp only
  split
  · rfl
  rename_i hlive
  split
  · rfl
  · rename_i hnewer
    exact (h ⟨by simpa using hlive,newer_iff.mpr (by simpa using hnewer)⟩).elim

variable (k : PublicKey)

@[simp] theorem manifests_forgetEphemeral :
    (store.forgetEphemeral k).manifests=store.manifests := by
  unfold forgetEphemeral
  split <;> rfl

@[simp] theorem revoked_forgetEphemeral :
    (store.forgetEphemeral k).revoked=store.revoked := by
  unfold forgetEphemeral
  split <;> rfl

theorem lookup_forgetEphemeral (k e : PublicKey) :
    (store.forgetEphemeral k).ephemeralToMaster.lookup e =
      if store.currentEphemeralKey k=some e then none else store.masterKeyForEphemeral e := by
  unfold forgetEphemeral masterKeyForEphemeral
  split
  · rename_i old hold
    rw [HashMap.lookup_erase_eq,hold]
    simp only [Option.some.injEq,eq_comm]
  · rename_i hnone
    rw [hnone,if_neg (by simp)]

theorem apply_of_accepts (h : store.Accepts m) : (store.apply m).1=true ∧
      (∀ k, (store.apply m).2.getManifest k=if k=m.masterPublicKey then some m
        else store.getManifest k) ∧
      (∀ k, (store.apply m).2.isRevoked
        k=(store.isRevoked k || (decide (k=m.masterPublicKey) && m.isRevoked))) ∧
      ∀ e, (store.apply m).2.masterKeyForEphemeral e =
        if m.isRevoked=false ∧ m.ephemeralPublicKey=some e then some m.masterPublicKey
        else if store.currentEphemeralKey m.masterPublicKey=some e then none
          else store.masterKeyForEphemeral e := by
  have hlive : ¬ store.isRevoked m.masterPublicKey=true := by simp [h.live]
  unfold apply
  simp only [if_neg hlive,newer_iff.mp h.newer,Bool.false_eq_true,if_false]
  by_cases hrev : m.isRevoked=true
  · simp only [hrev,if_true]
    refine ⟨trivial,fun k => ?_,fun k => ?_,fun e => ?_⟩
    · simp [getManifest,HashMap.lookup_insert_eq]
    · simp [isRevoked,Bool.or_comm]
    · simp only [masterKeyForEphemeral,Bool.true_eq_false,false_and,if_false]
      exact lookup_forgetEphemeral m.masterPublicKey e
  · simp only [Bool.not_eq_true] at hrev
    simp only [hrev,Bool.false_eq_true,if_false,true_and]
    refine ⟨fun k => ?_,fun k => ?_,fun e => ?_⟩
    · simp [getManifest,HashMap.lookup_insert_eq]
    · simp [isRevoked]
    rw [masterKeyForEphemeral]
    cases heph : m.ephemeralPublicKey with
    | none => simpa using lookup_forgetEphemeral m.masterPublicKey e
    | some e' =>
      simp only [HashMap.lookup_insert_eq,Option.some.injEq,eq_comm (a := e'),
        lookup_forgetEphemeral]

theorem isRevoked_apply (h : k≠m.masterPublicKey ∨ m.isRevoked=false) :
    (store.apply m).2.isRevoked k=store.isRevoked k := by
  by_cases hacc : store.Accepts m
  · rw [(apply_of_accepts hacc).2.2.1]
    rcases h with h | h <;> simp [h]
  · rw [apply_of_not_accepts hacc]

/-! ## A history of manifests -/

def ofMaster (l : List Manifest) : List Manifest := l.filter fun m =>
    decide (m.masterPublicKey=k)

/-- The newest manifest of a master key that has been presented, the first one of equals. -/
def newestOf (presented : List Manifest) : Option Manifest :=
  newest (fun m => m.sequence) (ofMaster k presented)

theorem newestOf_concat (l : List Manifest) (m : Manifest) : newestOf k (l++[m]) =
      if m.masterPublicKey=k then keep (fun m => m.sequence) (newestOf k l) m
        else newestOf k l := by
  unfold newestOf ofMaster
  rw [filter_append]
  by_cases hk : m.masterPublicKey=k
  · simp only [hk,if_true,filter_cons,decide_true,filter_nil]
    exact newest_concat _ _
  · simp [hk]

variable {k : PublicKey} {l presented : List Manifest}

theorem masterPublicKey_of_newestOf (h : newestOf k l=some m) : m.masterPublicKey=k ∧ m∈l := by
  have hmem := newest_mem h
  simp only [ofMaster,mem_filter,decide_eq_true_eq] at hmem
  exact hmem.symm

def replay (store : ManifestStore) (l : List Manifest) : ManifestStore :=
    l.foldl (fun s m => (s.apply m).2) store

theorem replay_append (l l' : List Manifest) : store.replay (l++l')=(store.replay l).replay l' :=
    foldl_append

/-- The store holds what is newest among the manifests it was presented with. -/
structure Tracks (store : ManifestStore) (presented : List Manifest) : Prop where
  current : ∀ k, store.getManifest k=newestOf k presented
  revoked : ∀ k, store.isRevoked k=(store.getManifest k).any (·.isRevoked)

theorem tracks_new : new.Tracks [] := ⟨fun _ => rfl,fun _ => rfl⟩

/-- A revoked master key has a manifest that is newer than every other one. -/
theorem Tracks.of_not_accepts (h : store.Tracks presented) (hm : m.WellFormed)
    (hnot : ¬ store.Accepts m) :
    ∃ c, store.getManifest m.masterPublicKey=some c ∧ m.sequence ≤ c.sequence := by
  by_cases hlive : store.isRevoked m.masterPublicKey=true
  · rw [h.revoked,Option.any_eq_true] at hlive
    obtain ⟨c,hc,hrevoked⟩ := hlive
    refine ⟨c,hc,?_⟩
    rw [show c.sequence=manifestRevokedSeq from of_decide_eq_true hrevoked]
    exact hm.sequence_le
  · by_contra hno
    refine hnot ⟨by simpa using hlive,fun c hc => ?_⟩
    by_contra hle
    exact hno ⟨c,hc,by omega⟩

theorem Tracks.apply (h : store.Tracks presented) (hm : m.WellFormed) :
    (store.apply m).2.Tracks (presented++[m]) := by
  by_cases hacc : store.Accepts m
  · obtain ⟨-,hget,hrev,-⟩ := apply_of_accepts hacc
    constructor
    · intro k
      rw [hget,newestOf_concat]
      by_cases hk : m.masterPublicKey=k
      · subst hk
        rw [if_pos rfl,if_pos rfl,← h.current,keep,if_neg]
        simpa [getManifest] using newer_iff.mp hacc.newer
      · rw [if_neg (Ne.symm hk),if_neg hk,h.current]
    · intro k
      rw [hrev,hget]
      by_cases hk : k=m.masterPublicKey
      · subst hk
        simp [hacc.live]
      · simp [hk,h.revoked]
  · obtain ⟨c,hc,hle⟩ := h.of_not_accepts hm hacc
    rw [apply_of_not_accepts hacc]
    refine ⟨fun k => ?_,h.revoked⟩
    rw [newestOf_concat]
    split
    · rename_i hk
      subst hk
      rw [← h.current,hc,keep_some,if_pos hle]
    · exact h.current k

theorem Tracks.replay (h : store.Tracks presented) (hl : ∀ m∈l, m.WellFormed) :
    (store.replay l).Tracks (presented++l) := by
  induction l generalizing store presented with
  | nil => simpa [ManifestStore.replay] using h
  | cons m l ih =>
    have := ih (h.apply (hl m (mem_cons_self ..))) fun m' hm' => hl m' (mem_cons_of_mem m hm')
    rwa [append_assoc,singleton_append] at this

/-! ## The ephemeral keys -/

/-- The two ways from a master key to its ephemeral key and back agree. -/
def Resolves (store : ManifestStore) : Prop :=
  ∀ e k, store.masterKeyForEphemeral e=some k ↔ store.currentEphemeralKey k=some e

theorem resolves_new : new.Resolves := fun _ _ => ⟨(fun h => nomatch h),(fun h => nomatch h)⟩

theorem currentEphemeralKey_eq :
    store.currentEphemeralKey k=(store.getManifest k).bind (·.ephemeralPublicKey) := rfl

/-- No other master key has the ephemeral key of an accepted manifest. -/
def Unshared (store : ManifestStore) (m : Manifest) : Prop :=
  store.Accepts m → ∀ e, m.ephemeralPublicKey=some e →
    ∀ k, k≠m.masterPublicKey → store.isRevoked k=false → store.currentEphemeralKey k≠some e

theorem currentEphemeralKey_apply (h : store.Accepts m) (k : PublicKey) :
    (store.apply m).2.currentEphemeralKey k =
      if k=m.masterPublicKey then m.ephemeralPublicKey else store.currentEphemeralKey k := by
  rw [currentEphemeralKey_eq,(apply_of_accepts h).2.1]
  split <;> rfl

/-- An accepted manifest keeps the two ways together exactly when its ephemeral key is its own. -/
theorem resolves_apply_iff (h : store.Resolves) (hacc : store.Accepts m) (hm : m.WellFormed)
    (hlive : ∀ k e, store.currentEphemeralKey k=some e → store.isRevoked k=false) :
    (store.apply m).2.Resolves ↔ store.Unshared m := by
  have hnamed : ∀ e, m.ephemeralPublicKey=some e → m.isRevoked=false := by
    intro e he
    by_contra hrevoked
    rw [hm.ephemeral.mpr (by simpa using hrevoked)] at he
    cases he
  constructor
  · intro hres _ e he k hk _ hcur
    have hmaster :=
      (hres e m.masterPublicKey).mpr (by rw [currentEphemeralKey_apply hacc,if_pos rfl,he])
    have hother := (hres e k).mpr (by rw [currentEphemeralKey_apply hacc,if_neg hk,hcur])
    rw [hmaster] at hother
    exact hk (Option.some.inj hother).symm
  · intro hown e k
    rw [(apply_of_accepts hacc).2.2.2,currentEphemeralKey_apply hacc]
    by_cases he : m.ephemeralPublicKey=some e
    · rw [if_pos ⟨hnamed e he,he⟩]
      by_cases hk : k=m.masterPublicKey
      · simp [hk,he]
      rw [if_neg hk]
      constructor
      · intro heq
        exact (hk (Option.some.inj heq).symm).elim
      · intro hcur
        exact (hown hacc e he k hk (hlive k e hcur) hcur).elim
    · rw [if_neg fun hne => he hne.2]
      by_cases hold : store.currentEphemeralKey m.masterPublicKey=some e
      · -- the key that is taken out was the key of this master only
        rw [if_pos hold]
        by_cases hk : k=m.masterPublicKey
        · simp [hk,he]
        · rw [if_neg hk,← h e k,(h e m.masterPublicKey).mpr hold]
          simp [Ne.symm hk]
      · rw [if_neg hold,h e k]
        by_cases hk : k=m.masterPublicKey
        · simp [hk,he,hold]
        · rw [if_neg hk]

theorem Tracks.live_of_current (h : store.Tracks presented) (hl : ∀ m∈presented, m.WellFormed)
    {e : PublicKey} (hcur : store.currentEphemeralKey k=some e) : store.isRevoked k=false := by
  rw [h.revoked]
  rw [currentEphemeralKey_eq] at hcur
  cases hget : store.getManifest k with
  | none => rfl
  | some c =>
    rw [hget] at hcur
    have hc : c.WellFormed := hl c (masterPublicKey_of_newestOf ((h.current k).symm.trans hget)).2
    by_contra hrevoked
    have hnone : c.ephemeralPublicKey=none := hc.ephemeral.mpr (by simpa using hrevoked)
    rw [Option.bind_some,hnone] at hcur
    cases hcur

def ResolvesLive (store : ManifestStore) : Prop := ∀ e k, store.masterKeyForEphemeral e=some k →
  store.isRevoked k=false ∧ store.currentEphemeralKey k=some e

theorem ResolvesLive.apply (h : store.ResolvesLive) (m : Manifest) :
    (store.apply m).2.ResolvesLive := by
  by_cases hacc : store.Accepts m
  · intro e k he
    obtain ⟨-,-,hrevoked,hmaster⟩ := apply_of_accepts hacc
    rw [hrevoked,currentEphemeralKey_apply hacc]
    rw [hmaster] at he
    split_ifs at he with hm hcur
    · cases he
      simp [hacc.live,hm]
    · have hk : k≠m.masterPublicKey := fun hk => hcur (hk ▸ (h e k he).2)
      simpa [hk] using h e k he
  · rwa [apply_of_not_accepts hacc]

/-- Whatever manifests have come, an ephemeral key resolves only to a live master key that names it.
-/
theorem replay_resolves_live (history : List Manifest) : (new.replay history).ResolvesLive :=
  history.foldlRecOn _ (fun _ _ h => nomatch h) fun _ h m _ => h.apply m

end ManifestStore

/-! ## The accepted manifests -/

/-- A store, and the manifests that it has accepted so far. -/
structure ManifestLog where
  store : ManifestStore
  accepted : List Manifest

namespace ManifestLog

open ManifestStore

def new : ManifestLog := ⟨.new,[]⟩

def apply (log : ManifestLog) (m : Manifest) : ManifestLog :=
  ⟨(log.store.apply m).2,if (log.store.apply m).1 then log.accepted++[m] else log.accepted⟩

/-- No accepted manifest of the same master key has a higher sequence. -/
def Reigns (log : ManifestLog) (m : Manifest) : Prop :=
  m∈log.accepted ∧ ∀ m'∈log.accepted, m'.masterPublicKey=m.masterPublicKey →
    m'.sequence ≤ m.sequence

/-- An ephemeral key resolves to a master key exactly when the master key is not revoked and its
accepted manifest with the highest sequence names the ephemeral key. -/
def ResolvesExactly (log : ManifestLog) : Prop :=
  ∀ e k, log.store.masterKeyForEphemeral e=some k ↔
    log.store.isRevoked k=false ∧ ∃ m, log.Reigns m ∧ m.masterPublicKey=k ∧
      m.ephemeralPublicKey=some e

/-- What holds after every history of verified manifests. -/
structure Sound (log : ManifestLog) : Prop where
  tracks : log.store.Tracks log.accepted
  distinct : ∀ a∈log.accepted, ∀ b∈log.accepted, a.masterPublicKey=b.masterPublicKey →
    a.sequence=b.sequence → a=b
  wellFormed : ∀ m∈log.accepted, m.WellFormed

variable {log : ManifestLog} {m : Manifest}

theorem sound_new : new.Sound := ⟨tracks_new,(fun _ ha => nomatch ha),(fun _ ha => nomatch ha)⟩

theorem apply_of_not_accepts (h : ¬ log.store.Accepts m) : log.apply m=log := by
  rw [apply,ManifestStore.apply_of_not_accepts h]
  rfl

theorem accepted_apply (h : log.store.Accepts m) : (log.apply m).accepted=log.accepted++[m] := by
  rw [apply,if_pos (apply_of_accepts h).1]

theorem Sound.apply (h : log.Sound) (hm : m.WellFormed) : (log.apply m).Sound := by
  by_cases hacc : log.store.Accepts m
  · -- the manifest is newer than all accepted ones of its master key
    have hnewer : ∀ a∈log.accepted, a.masterPublicKey=m.masterPublicKey →
      a.sequence < m.sequence := by
      intro a ha hmaster
      have hmem : a∈ofMaster m.masterPublicKey log.accepted := by simp [ofMaster,ha,hmaster]
      obtain ⟨-,hnil⟩ | ⟨c,hc,-,hmax⟩ :=
        newest_spec (fun m => m.sequence) (ofMaster m.masterPublicKey log.accepted)
      · rw [hnil] at hmem
        cases hmem
      · exact (hmax a hmem).trans_lt (hacc.newer c ((h.tracks.current _).trans hc))
    have hmemiff : ∀ a, a∈(log.apply m).accepted ↔ a∈log.accepted ∨ a=m := by
      intro a
      rw [accepted_apply hacc,mem_append,mem_singleton]
    refine ⟨?_,fun a ha b hb hmaster hseq => ?_,fun a ha => ?_⟩
    · rw [accepted_apply hacc]
      exact h.tracks.apply hm
    · rcases (hmemiff a).mp ha with hmem | rfl <;> rcases (hmemiff b).mp hb with hmem' | rfl
      · exact h.distinct a hmem b hmem' hmaster hseq
      · have := hnewer a hmem hmaster
        omega
      · have := hnewer b hmem' hmaster.symm
        omega
      · rfl
    · rcases (hmemiff a).mp ha with ha | rfl
      · exact h.wellFormed a ha
      · exact hm
  · rw [apply_of_not_accepts hacc]
    exact h

theorem Sound.reigns_iff (h : log.Sound) : log.Reigns m ↔
    log.store.getManifest m.masterPublicKey=some m := by
  rw [h.tracks.current,newestOf,newest_eq_some_iff]
  · simp only [Reigns,ofMaster,mem_filter,decide_eq_true_eq,and_true,and_imp]
  · intro a ha b hb hseq
    simp only [ofMaster,mem_filter,decide_eq_true_eq] at ha hb
    exact h.distinct a ha.1 b hb.1 (ha.2.trans hb.2.symm) hseq

theorem Sound.resolvesExactly_iff (h : log.Sound) : log.ResolvesExactly ↔ log.store.Resolves := by
  refine forall₂_congr fun e k => iff_congr Iff.rfl ?_
  constructor
  · rintro ⟨-,m,hreigns,rfl,he⟩
    rw [currentEphemeralKey_eq,h.reigns_iff.mp hreigns,Option.bind_some,he]
  intro hcur
  refine ⟨h.tracks.live_of_current h.wellFormed hcur,?_⟩
  rw [currentEphemeralKey_eq] at hcur
  obtain ⟨m,hget,he⟩ := Option.bind_eq_some_iff.mp hcur
  have hmaster := (masterPublicKey_of_newestOf ((h.tracks.current k).symm.trans hget)).1
  exact ⟨m,h.reigns_iff.mpr (by rw [hmaster,hget]),hmaster,he⟩

theorem resolvesExactly_apply_iff (h : log.Sound) (hres : log.store.Resolves) (hm : m.WellFormed) :
    (log.apply m).ResolvesExactly ↔ log.store.Unshared m := by
  by_cases hacc : log.store.Accepts m
  · rw [(h.apply hm).resolvesExactly_iff]
    exact resolves_apply_iff hres hacc hm fun k e => h.tracks.live_of_current h.wellFormed
  · rw [apply_of_not_accepts hacc,h.resolvesExactly_iff]
    exact ⟨fun _ hacc' => (hacc hacc').elim,fun _ => hres⟩

end ManifestLog

/-! ## Histories -/

namespace ManifestStore

/-- The three lookups answer alike. -/
structure SameAnswers (store store' : ManifestStore) : Prop where
  getManifest : ∀ k, store.getManifest k=store'.getManifest k
  isRevoked : ∀ k, store.isRevoked k=store'.isRevoked k
  masterKeyForEphemeral : ∀ e, store.masterKeyForEphemeral e=store'.masterKeyForEphemeral e

/-- No two manifests have both the master key and the sequence in common. -/
def DistinctVersions (l : List Manifest) : Prop :=
  l.Pairwise fun a b => (a.masterPublicKey,a.sequence)≠(b.masterPublicKey,b.sequence)

/-- No ephemeral key is named for two master keys. -/
def OwnKeys (l : List Manifest) : Prop :=
  ∀ a∈l, ∀ b∈l, ∀ e, a.ephemeralPublicKey=some e → b.ephemeralPublicKey=some e →
    a.masterPublicKey=b.masterPublicKey

variable {l l' : List Manifest}

theorem Tracks.unshared {store : ManifestStore} {m : Manifest} (h : store.Tracks l)
    (hown : ∀ e, m.ephemeralPublicKey=some e → ∀ c∈l, c.ephemeralPublicKey=some e →
      c.masterPublicKey=m.masterPublicKey) : store.Unshared m := by
  intro _ e he k hk _ hcur
  rw [currentEphemeralKey_eq] at hcur
  obtain ⟨c,hget,hce⟩ := Option.bind_eq_some_iff.mp hcur
  obtain ⟨hmaster,hmem⟩ := masterPublicKey_of_newestOf ((h.current k).symm.trans hget)
  exact hk (hmaster.symm.trans (hown e he c hmem hce))

theorem resolves_replay (hl : ∀ m∈l, m.WellFormed) (hown : OwnKeys l) :
    (new.replay l).Resolves := by
  induction l using reverseRecOn with
  | nil => exact resolves_new
  | append_singleton l m ih =>
    have hl' : ∀ a∈l, a.WellFormed := fun a ha => hl a (mem_append_left _ ha)
    have hm : m∈l++[m] := by simp
    have hres := ih hl' fun a ha b hb => hown a (mem_append_left _ ha) b (mem_append_left _ hb)
    have htracks : (new.replay l).Tracks l := by simpa using tracks_new.replay hl'
    rw [replay,foldl_append,foldl_cons,foldl_nil,← replay]
    by_cases hacc : (new.replay l).Accepts m
    · refine (resolves_apply_iff hres hacc (hl m hm) fun k e => htracks.live_of_current hl').mpr ?_
      exact htracks.unshared fun e he c hc hce => hown c (mem_append_left _ hc) m hm e hce he
    · rwa [apply_of_not_accepts hacc]

theorem newestOf_perm (hdistinct : DistinctVersions l) (h : l.Perm l') (k : PublicKey) :
    newestOf k l=newestOf k l' := by
  refine newest_perm (fun a ha b hb hseq => ?_) (h.filter _)
  simp only [ofMaster,mem_filter,decide_eq_true_eq] at ha hb
  by_contra hne
  have : Std.Symm fun a b : Manifest =>
    (a.masterPublicKey,a.sequence)≠(b.masterPublicKey,b.sequence) :=
    ⟨fun _ _ hab => hab.symm⟩
  exact hdistinct.forall ha.1 hb.1 hne (by rw [ha.2,hb.2,hseq])

/-- With different sequences and keys of their own, the manifests may come in any order. -/
theorem sameAnswers_of_perm (hl : ∀ m∈l, m.WellFormed) (hdistinct : DistinctVersions l)
    (hown : OwnKeys l) (h : l.Perm l') : (new.replay l).SameAnswers (new.replay l') := by
  have hl' : ∀ m∈l', m.WellFormed := fun m hm => hl m (h.mem_iff.mpr hm)
  have hown' : OwnKeys l' := fun a ha b hb => hown a (h.mem_iff.mpr ha) b (h.mem_iff.mpr hb)
  have htracks : (new.replay l).Tracks l := by simpa using tracks_new.replay hl
  have htracks' : (new.replay l').Tracks l' := by simpa using tracks_new.replay hl'
  have hget : ∀ k, (new.replay l).getManifest k=(new.replay l').getManifest k := fun k => by
    rw [htracks.current,htracks'.current,newestOf_perm hdistinct h]
  refine ⟨hget,fun k => by rw [htracks.revoked,htracks'.revoked,hget],fun e => ?_⟩
  apply Option.ext
  intro k
  rw [resolves_replay hl hown e k,resolves_replay hl' hown' e k,currentEphemeralKey_eq,
    currentEphemeralKey_eq,hget]

end ManifestStore

open ManifestStore ManifestLog

/-- After every part of a history of verified manifests the ephemeral keys resolve exactly, if and
only if no manifest is accepted with the ephemeral key of another live master key. Manifests with
different sequences and keys of their own lead to the same answers in every order. -/
theorem ephemeral_keys_resolve_iff (schemes : SignatureSchemes) (history : List Manifest)
    (hverified : ∀ m∈history, m.Verified schemes) :
    ((∀ done rest, history=done++rest → (done.foldl ManifestLog.apply .new).ResolvesExactly) ↔
      Along ManifestLog.apply (fun log m => log.store.Unshared m) .new history) ∧
    (DistinctVersions history → OwnKeys history → ∀ history', history.Perm history' →
      (ManifestStore.new.replay history).SameAnswers (ManifestStore.new.replay history')) := by
  refine ⟨?_,fun hdistinct hown history' =>
    sameAnswers_of_perm (fun m hm => (hverified m hm).wellFormed) hdistinct hown⟩
  have halong : Along ManifestLog.apply (fun log m => (log.apply m).ResolvesExactly) .new history ↔
      Along ManifestLog.apply (fun log m => log.store.Unshared m) .new history := by
    refine along_congr (fun log => log.Sound ∧ log.store.Resolves) (fun m => m.WellFormed) ?_ ?_
      ⟨sound_new,resolves_new⟩
      fun m hm => (hverified m hm).wellFormed
    · rintro log m ⟨hsound,hres⟩ hm
      exact resolvesExactly_apply_iff hsound hres hm
    · rintro log m ⟨hsound,hres⟩ hm hown
      refine ⟨hsound.apply hm,?_⟩
      exact (hsound.apply hm).resolvesExactly_iff.mp
        ((resolvesExactly_apply_iff hsound hres hm).mpr hown)
  rw [← halong,along_iff]
  constructor
  · intro h done m rest hsplit
    have := h (done++[m]) rest (by rw [hsplit,append_assoc,singleton_append])
    rwa [foldl_append] at this
  · intro h done rest hsplit
    induction done using reverseRecOn with
    | nil => exact sound_new.resolvesExactly_iff.mpr resolves_new
    | append_singleton done m _ =>
      rw [foldl_append]
      exact h done m rest (by rw [hsplit,append_assoc,singleton_append])

/-! ## Two masters with one key -/

def openSchemes : SignatureSchemes := ⟨fun _ _ _ => true,fun _ _ _ => true⟩

def plainKey (b : UInt8) : PublicKey := .filled b

def plainManifestBytes (sequence : UInt8) (master ephemeral : PublicKey) : Bytes :=
  [0x24,0,0,0,sequence]++[0x71,33]++master.asBytes++[0x73,33]++ephemeral.asBytes ++
    [0x76,1,1]++[0x70,18,1,1]

def plainManifest (sequence : UInt8) (master ephemeral : PublicKey) : Manifest :=
  ⟨sequence.toNat,master,some ephemeral,none,plainManifestBytes sequence master ephemeral⟩

def rotation : List Manifest :=
  [plainManifest 1 (plainKey 2) (plainKey 3),plainManifest 1 (plainKey 4) (plainKey 5),
    plainManifest 2 (plainKey 2) (plainKey 6)]

/-- A master that changes its key beside another one: the keys resolve exactly all the way, and to
the same masters in the other order. -/
theorem rotation_resolves_in_any_order :
    (∀ m∈rotation, m.Verified openSchemes) ∧
      (∀ done rest, rotation=done++rest → (done.foldl ManifestLog.apply .new).ResolvesExactly) ∧
      (ManifestStore.new.replay rotation).SameAnswers
        (ManifestStore.new.replay rotation.reverse) := by
  have hparse : ∀ m∈rotation, parseAndVerify openSchemes m.raw=.ok m := by decide
  have hverified : ∀ m∈rotation, m.Verified openSchemes := fun m hm => ⟨m.raw,hparse m hm⟩
  have hdistinct : rotation.Pairwise fun a b =>
    (a.masterPublicKey,a.sequence)≠(b.masterPublicKey,b.sequence) := by
    decide
  have hown : ∀ a∈rotation, ∀ b∈rotation, a.ephemeralPublicKey=b.ephemeralPublicKey →
      a.masterPublicKey=b.masterPublicKey := by decide
  obtain ⟨hexact,hperm⟩ := ephemeral_keys_resolve_iff openSchemes rotation hverified
  refine ⟨hverified,hexact.mpr ⟨?_,?_,?_,trivial⟩,hperm hdistinct ?_ _ (reverse_perm _).symm⟩
  · exact sound_new.tracks.unshared fun e he => by cases he; decide
  · exact (sound_new.apply (hverified _ (by simp [rotation])).wellFormed).tracks.unshared
      fun e he => by cases he; decide
  · exact ((sound_new.apply (hverified _ (by simp [rotation])).wellFormed).apply
      (hverified _ (by simp [rotation])).wellFormed).tracks.unshared fun e he => by cases he; decide
  · exact fun a ha b hb e hae hbe => hown a ha b hb (hae.trans hbe.symm)

def takeover : List Manifest :=
  [plainManifest 1 (plainKey 2) (plainKey 3),plainManifest 1 (plainKey 4) (plainKey 3),
    plainManifest 2 (plainKey 4) (plainKey 5)]

/-- While two live masters name one key, it resolves to the second one only, and once the second one
has changed its key, it does not resolve at all. -/
theorem shared_key_unresolved :
    (∀ m∈takeover, m.Verified openSchemes) ∧
      ((takeover.take 2).foldl ManifestLog.apply .new).store.masterKeyForEphemeral (plainKey 3) =
        some (plainKey 4) ∧
      ¬ ((takeover.take 2).foldl ManifestLog.apply .new).ResolvesExactly ∧
      (takeover.foldl ManifestLog.apply .new).store.masterKeyForEphemeral (plainKey 3)=none ∧
      ¬ (takeover.foldl ManifestLog.apply .new).ResolvesExactly := by
  have hparse : ∀ m∈takeover, parseAndVerify openSchemes m.raw=.ok m := by decide
  have hsecond : ((takeover.take 2).foldl ManifestLog.apply .new).store.masterKeyForEphemeral
    (plainKey 3) =
      some (plainKey 4) := by decide
  have hnone : (takeover.foldl ManifestLog.apply .new).store.masterKeyForEphemeral
    (plainKey 3)=none := by
    decide
  refine ⟨fun m hm => ⟨m.raw,hparse m hm⟩,hsecond,fun h => ?_,hnone,fun h => ?_⟩
  · have hfirst := (h (plainKey 3) (plainKey 2)).mpr
      ⟨by decide,plainManifest 1 (plainKey 2) (plainKey 3),
      ⟨by decide,by decide⟩,rfl,rfl⟩
    rw [hsecond] at hfirst
    revert hfirst
    decide
  · have hfirst := (h (plainKey 3) (plainKey 2)).mpr
      ⟨by decide,plainManifest 1 (plainKey 2) (plainKey 3),
      ⟨by decide,by decide⟩,rfl,rfl⟩
    rw [hnone] at hfirst
    cases hfirst

end Rxrpl.Consensus
