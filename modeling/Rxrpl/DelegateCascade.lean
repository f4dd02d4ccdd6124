import Rxrpl.ListSigning

/-!
# Cascades of delegated lists

A list may name other publishers, its delegates, whose lists are fetched and trusted as well, and so
on up to a depth. The walk asks a resolver for the payload of each delegate, and takes what it gets
for the payload of that delegate without a look at whose manifest it carries.
-/

namespace Rxrpl.Consensus

open ManifestStore List

/-- The errors of a cascade: those of a list, and its own. -/
inductive CascadeError
  | list (e : ValidatorListError)
  | cascadeDepthExceeded (depthLimit : ℕ)
  | cyclicDelegate
  | delegateRevoked
  | delegateFetchFailed (delegateHex : Bytes)
  | cascadeSignatureInvalid

/-- The trait `DelegateResolver`, with the state of the resolver. -/
abbrev DelegateResolver (σ : Type) :=
    σ → PublicKey → Except CascadeError (Option (Bytes × List BlobV2Wire)) × σ

/-- A payload that the walk has taken: the delegate that was asked for, the publisher of its
manifest and its active blobs. -/
structure Pull where
  requested : PublicKey
  publisher : Option PublicKey
  blobs : List ValidatorListDataV2

/-- What the walk changes. The source does not keep `pulled`. -/
structure Cascade (σ : Type) where
  resolver : σ
  store : ManifestStore
  visited : Finset PublicKey
  out : List ValidatorListDataV2
  pulled : List Pull

/-- A signature that is not valid is an error of its own in a cascade. -/
def cascadeError : ValidatorListError → CascadeError
  | .blobSignatureInvalid => .cascadeSignatureInvalid
  | e => .list e

section

variable {σ : Type} (env : ListEnv) (resolve : DelegateResolver σ) (now depthLimit : ℕ)

def followAll (walk : PublicKey → Cascade σ → Except CascadeError Unit × Cascade σ) :
    List PublicKey → Cascade σ → Except CascadeError Unit × Cascade σ
  | [], c => (.ok (),c)
  | delegatePk::rest, c =>
    match walk delegatePk c with
    | (.error e,c) => (.error e,c)
    | (.ok (),c) => followAll walk rest c

/-- `walk_delegate`, with the number of levels that the depth limit leaves. -/
def walkDelegate : ℕ → PublicKey → Cascade σ → Except CascadeError Unit × Cascade σ
  | 0, _, c => (.error (.cascadeDepthExceeded depthLimit),c)
  | levels+1, delegatePk, c =>
    if delegatePk∈c.visited then (.error .cyclicDelegate,c)
    else
      let c := { c with visited := insert delegatePk c.visited }
      if c.store.isRevoked delegatePk then (.error .delegateRevoked,c)
      else match resolve c.resolver delegatePk with
        | (.error e,resolver) => (.error e,{ c with resolver })
        | (.ok none,resolver) =>
          (.error (.delegateFetchFailed (Codec.hexEncode delegatePk.asBytes)),{ c with resolver })
        | (.ok (some (manifestBytes,blobs)),resolver) =>
          match verifyAndParseV2 env manifestBytes blobs c.store now with
          | (.error e,store) => (.error (cascadeError e),{ c with resolver, store })
          | (.ok bundle,store) =>
            let publisher := (parseAndVerify env.schemes manifestBytes).toOption.map
              (·.masterPublicKey)
            followAll (walkDelegate levels) (bundle.active.flatMap (·.delegates))
              { c with resolver, store, out := c.out++bundle.active
                       pulled := c.pulled++[⟨delegatePk,publisher,bundle.active⟩] }

def Cascade.start (primaryBlobs : List ValidatorListDataV2) (resolver : σ) (store : ManifestStore) :
    Cascade σ :=
  ⟨resolver,store,(primaryBlobs.map (·.base.publisherMasterKey)).toFinset,primaryBlobs,[]⟩

/-- `resolve_cascade`: the blobs it returns are `out`, if there is no error. -/
def resolveCascade (primaryBlobs : List ValidatorListDataV2) (resolver : σ)
    (store : ManifestStore) : Except CascadeError Unit × Cascade σ :=
  followAll (walkDelegate env resolve now depthLimit depthLimit)
    (primaryBlobs.flatMap (·.delegates))
    (.start primaryBlobs resolver store)

end

/-! ## One payload -/

variable {env : ListEnv}

variable {bundle : ValidatorListV2Bundle} {entry : BlobV2Wire} {list : ValidatorListData} {now : ℕ}
  {pk : PublicKey} {publisher signing : Manifest} {rest : List PublicKey × Option ℕ}
  {store store' : ManifestStore} {v2 : ValidatorListDataV2}

theorem publisherMasterKey_parseBlobJson {blobJson : Bytes}
    (h : parseBlobJson env blobJson pk=.ok (list,rest)) : list.publisherMasterKey=pk := by
  unfold parseBlobJson at h
  split at h
  · cases h
  obtain ⟨sequence,-,h⟩ := bind_ok h
  obtain ⟨expiration,-,h⟩ := bind_ok h
  obtain ⟨effective,-,h⟩ := bind_ok h
  obtain ⟨entries,-,h⟩ := bind_ok h
  cases h
  rfl

theorem publisherMasterKey_verifyBlob {blob signature : Bytes}
    (h : verifyBlob env signing pk blob signature=.ok (list,rest)) :
      list.publisherMasterKey=pk := by
  unfold verifyBlob at h
  split at h
  · cases h
  split at h
  · cases h
  split at h
  · cases h
  · split at h
    · cases h
    · exact publisherMasterKey_parseBlobJson h

theorem publisherMasterKey_verifyEntry (h : verifyEntry env publisher signing entry=.ok v2) :
    v2.base.publisherMasterKey=publisher.masterPublicKey := by
  obtain ⟨⟨base,delegates,t⟩,hblob,h⟩ := bind_ok h
  dsimp only at h
  split_ifs at h
  cases h
  exact publisherMasterKey_verifyBlob hblob

/-- The manifest of an entry that has signed its blob, and what the store thinks of the publisher
then. -/
theorem live_of_signed (hpublisher : publisher.WellFormed)
    (hlive : store.isRevoked publisher.masterPublicKey=true → publisher.isRevoked=true)
    (hsigning : signingManifest env publisher entry store=(.ok signing,store'))
    (hentry : verifyEntry env publisher signing entry=.ok v2) :
    (∀ k, k≠publisher.masterPublicKey → store'.isRevoked k=store.isRevoked k) ∧
      store'.isRevoked publisher.masterPublicKey=false := by
  obtain ⟨key,hkey,-⟩ := verifyEntry_ok hentry
  unfold signingManifest at hsigning
  split at hsigning
  · cases hsigning
    refine ⟨fun _ _ => rfl,?_⟩
    by_contra hrevoked
    have hnone := hpublisher.ephemeral.mpr (hlive (by simpa using hrevoked))
    rw [hkey] at hnone
    cases hnone
  · rename_i bytes _
    split at hsigning
    · cases hsigning
    rename_i hparse
    split at hsigning
    · cases hsigning
    rename_i hmaster
    split at hsigning
    · cases hsigning
    rename_i hnot
    cases hsigning
    simp only [ne_eq,not_not] at hmaster
    have hm : signing.WellFormed := Manifest.Verified.wellFormed ⟨bytes,hparse⟩
    have hvalid : signing.isRevoked=false := by
      by_contra hrevoked
      have hnone := hm.ephemeral.mpr (by simpa using hrevoked)
      rw [hkey] at hnone
      cases hnone
    refine ⟨fun k _ => isRevoked_apply k (.inr hvalid),?_⟩
    rw [isRevoked_apply _ (.inr hvalid),← hmaster]
    simpa using hnot

/-- What the loop over the blobs of a publisher leaves behind: only that publisher can be revoked by
it, and it is not, if there was a blob. -/
theorem verifyEntries_keeps (hpublisher : publisher.WellFormed) {entries : List BlobV2Wire}
    {bundle' : ValidatorListV2Bundle}
    (hlive : store.isRevoked publisher.masterPublicKey=true → publisher.isRevoked=true)
    (h : verifyEntries env publisher now entries bundle store=(.ok bundle',store')) :
    (∀ k, k≠publisher.masterPublicKey → store'.isRevoked k=store.isRevoked k) ∧
      ((bundle'=bundle ∧ store'=store) ∨ store'.isRevoked publisher.masterPublicKey=false) ∧
      ∀ b∈bundle'.active, b∈bundle.active ∨
        b.base.publisherMasterKey=publisher.masterPublicKey := by
  induction entries generalizing bundle store with
  | nil =>
    cases h
    exact ⟨fun _ _ => rfl,.inl ⟨rfl,rfl⟩,fun _ hb => .inl hb⟩
  | cons entry entries ih =>
    rw [verifyEntries] at h
    rcases hsigning : signingManifest env publisher entry store with ⟨e | signing,store₁⟩
    · rw [hsigning] at h
      cases h
    · rw [hsigning] at h
      dsimp only at h
      cases hentry : verifyEntry env publisher signing entry with
      | error e =>
        rw [hentry] at h
        cases h
      | ok v2 =>
        rw [hentry] at h
        obtain ⟨hother,hnot⟩ := live_of_signed hpublisher hlive hsigning hentry
        obtain ⟨hother',hrest,hactive⟩ :=
          ih (fun hrevoked => by rw [hnot] at hrevoked; cases hrevoked) h
        refine ⟨fun k hk => (hother' k hk).trans (hother k hk),.inr ?_,fun b hb => ?_⟩
        · rcases hrest with ⟨-,rfl⟩ | hrest
          · exact hnot
          · exact hrest
        · rcases hactive b hb with hb | hb
          · split at hb
            · rcases mem_append.mp hb with hb | hb
              · exact .inl hb
              · rw [mem_singleton.mp hb]
                exact .inr (publisherMasterKey_verifyEntry hentry)
            · exact .inl hb
          · exact .inr hb

/-- A payload that is accepted: its active blobs are those of the publisher of its manifest, who was
not revoked before, and nobody else's standing has changed. -/
theorem verifyAndParseV2_ok {manifestBytes : Bytes} {blobs : List BlobV2Wire}
    (h : verifyAndParseV2 env manifestBytes blobs store now=(.ok bundle,store')) :
    ∃ publisher, parseAndVerify env.schemes manifestBytes=.ok publisher ∧
      (∀ k, k≠publisher.masterPublicKey → store'.isRevoked k=store.isRevoked k) ∧
      (bundle.active≠[] → store'.isRevoked publisher.masterPublicKey=false) ∧
      ∀ b∈bundle.active, b.base.publisherMasterKey=publisher.masterPublicKey := by
  unfold verifyAndParseV2 at h
  split at h
  · cases h
  unfold withPublisher at h
  split at h
  · cases h
  rename_i publisher hparse
  split at h
  · cases h
  rename_i hnot
  have hpublisher : publisher.WellFormed := Manifest.Verified.wellFormed ⟨manifestBytes,hparse⟩
  have hlive : (store.apply publisher).2.isRevoked publisher.masterPublicKey=true →
    publisher.isRevoked=true := by
    intro hrevoked
    by_contra hvalid
    rw [isRevoked_apply _ (.inr (by simpa using hvalid))] at hrevoked
    exact hnot hrevoked
  obtain ⟨hother,hrest,hactive⟩ := verifyEntries_keeps hpublisher hlive h
  refine ⟨publisher,hparse,fun k hk => ?_,fun hne => ?_,fun b hb => ?_⟩
  · rw [hother k hk,isRevoked_apply k (.inl hk)]
  · rcases hrest with ⟨rfl,-⟩ | hrest
    · exact (hne rfl).elim
    · exact hrest
  · rcases hactive b hb with hb | hb
    · cases hb
    · exact hb

/-! ## The walk -/

/-- A key that is reached by so many references at most: a primary blob delegates to it, or an
active blob of a publisher that one reference fewer reaches. -/
def Reached (primary further : List ValidatorListDataV2) : ℕ → PublicKey → Prop
  | 0, _ => False
  | n+1, k => (∃ b∈primary, k∈b.delegates) ∨
    ∃ b∈further, Reached primary further n b.base.publisherMasterKey ∧ k∈b.delegates

theorem Reached.mono {primary further further' : List ValidatorListDataV2} (hsub : further⊆further')
    {n n' : ℕ} (hn : n ≤ n') {k : PublicKey} (h : Reached primary further n k) :
      Reached primary further' n' k := by
  induction n generalizing n' k with
  | zero => exact h.elim
  | succ n ih =>
    obtain ⟨n',rfl⟩ : ∃ i, n'=i+1 := ⟨n'-1,by omega⟩
    rcases h with h | ⟨b,hb,hreached,hk⟩
    · exact .inl h
    · exact .inr ⟨b,hsub hb,ih (by omega) hreached,hk⟩

namespace Cascade

variable {σ : Type}

def further (c : Cascade σ) : List ValidatorListDataV2 := c.pulled.flatMap (·.blobs)

/-- Every payload carries a manifest of the delegate that was asked for. -/
def OwnPayloads (c : Cascade σ) : Prop := ∀ p∈c.pulled, p.publisher=some p.requested

/-- What a cascade should deliver: behind the primary blobs come blobs of publishers that are
reached in time, none of which is revoked or was pulled twice. -/
structure FollowsDelegation (primary : List ValidatorListDataV2) (depthLimit : ℕ) (c : Cascade σ) :
    Prop where
  begins : c.out=primary++c.further
  reached : ∀ b∈c.further, Reached primary c.further depthLimit b.base.publisherMasterKey
  live : ∀ b∈c.further, c.store.isRevoked b.base.publisherMasterKey=false
  once : (c.pulled.map (·.publisher)).Nodup

/-- What holds between two walks, if every payload is the delegate's own. -/
structure Sound (primary : List ValidatorListDataV2) (depthLimit : ℕ) (c : Cascade σ) : Prop where
  begins : c.out=primary++c.further
  visited : ∀ p∈c.pulled, p.requested∈c.visited
  once : (c.pulled.map (·.requested)).Nodup
  own : ∀ p∈c.pulled, ∀ b∈p.blobs, b.base.publisherMasterKey=p.requested
  reached : ∀ p∈c.pulled, Reached primary c.further depthLimit p.requested
  live : ∀ p∈c.pulled, p.blobs≠[] → c.store.isRevoked p.requested=false

variable {primary : List ValidatorListDataV2} {depthLimit : ℕ} {c c' : Cascade σ}

theorem further_subset (h : c.pulled <+: c'.pulled) : c.further⊆c'.further := by
  obtain ⟨rest,hrest⟩ := h
  rw [further,further,← hrest,flatMap_append]
  exact subset_append_left _ _

theorem sound_start (resolver : σ) (store : ManifestStore) :
    (start primary resolver store).Sound primary depthLimit where
  begins := (append_nil primary).symm
  visited := fun _ h => nomatch h
  once := nodup_nil
  own := fun _ h => nomatch h
  reached := fun _ h => nomatch h
  live := fun _ h => nomatch h

/-- The state after the payload of a delegate that has not been visited. -/
theorem Sound.pull (h : c.Sound primary depthLimit) {k : PublicKey} (hk : k∉c.visited)
    (hreached : Reached primary c.further depthLimit k) {active : List ValidatorListDataV2}
    (hactive : ∀ b∈active, b.base.publisherMasterKey=k) {resolver : σ} {store : ManifestStore}
    (hother : ∀ k', k'≠k → store.isRevoked k'=c.store.isRevoked k')
    (hlive : active≠[] → store.isRevoked k=false) (publisher : Option PublicKey) :
    (⟨resolver,store,insert k c.visited,c.out++active,c.pulled++[⟨k,publisher,active⟩]⟩ : Cascade
      σ).Sound
      primary depthLimit := by
  have hne : ∀ p∈c.pulled, p.requested≠k := by
    rintro p hp rfl
    exact hk (h.visited p hp)
  have hsub : c.further ⊆
      (⟨resolver,store,insert k c.visited,c.out++active,c.pulled++[⟨k,publisher,active⟩]⟩ : Cascade
        σ).further :=
    further_subset ⟨_,rfl⟩
  constructor
  case begins => simp [further,h.begins]
  case visited =>
    intro p hp
    rcases mem_append.mp hp with hp | hp
    · exact Finset.mem_insert_of_mem (h.visited p hp)
    · rw [mem_singleton.mp hp]
      exact Finset.mem_insert_self _ _
  case once =>
    rw [map_append,nodup_append]
    refine ⟨h.once,nodup_singleton _,fun a ha b hb => ?_⟩
    obtain ⟨p,hp,rfl⟩ := mem_map.mp ha
    rw [mem_singleton.mp hb]
    exact hne p hp
  case own =>
    intro p hp
    rcases mem_append.mp hp with hp | hp
    · exact h.own p hp
    · rw [mem_singleton.mp hp]
      exact hactive
  case reached =>
    intro p hp
    rcases mem_append.mp hp with hp | hp
    · exact (h.reached p hp).mono hsub le_rfl
    · rw [mem_singleton.mp hp]
      exact hreached.mono hsub le_rfl
  case live =>
    intro p hp hblobs
    rcases mem_append.mp hp with hp | hp
    · exact (hother _ (hne p hp)).trans (h.live p hp hblobs)
    · rw [mem_singleton.mp hp] at hblobs ⊢
      exact hlive hblobs

theorem Sound.follows (h : c.Sound primary depthLimit) (hown : c.OwnPayloads) :
    c.FollowsDelegation primary depthLimit := by
  have hpull : ∀ b∈c.further, ∃ p∈c.pulled, p.blobs≠[] ∧ b.base.publisherMasterKey=p.requested := by
    intro b hb
    obtain ⟨p,hp,hb⟩ := mem_flatMap.mp hb
    exact ⟨p,hp,ne_nil_of_mem hb,h.own p hp b hb⟩
  refine ⟨h.begins,fun b hb => ?_,fun b hb => ?_,?_⟩
  · obtain ⟨p,hp,-,hkey⟩ := hpull b hb
    rw [hkey]
    exact h.reached p hp
  · obtain ⟨p,hp,hblobs,hkey⟩ := hpull b hb
    rw [hkey]
    exact h.live p hp hblobs
  · have hsame : c.pulled.map (·.publisher)=(c.pulled.map (·.requested)).map some := by
      rw [map_map]
      exact map_congr_left hown
    rw [hsame]
    exact h.once.map fun _ _ => Option.some.inj

end Cascade

section

variable {σ : Type} {resolve : DelegateResolver σ} {now depthLimit : ℕ}
  {primary : List ValidatorListDataV2}

/-- A walk that only adds payloads, and that keeps the state sound from keys that so many references
reach. -/
def KeepsSound (primary : List ValidatorListDataV2) (depthLimit depth : ℕ)
    (walk : PublicKey → Cascade σ → Except CascadeError Unit × Cascade σ) : Prop :=
  ∀ k c c', walk k c=(.ok (),c') → c.pulled <+: c'.pulled ∧
    (c.Sound primary depthLimit → Reached primary c.further depth k → c'.OwnPayloads →
      c'.Sound primary depthLimit)

theorem followAll_keeps {depth : ℕ}
    {walk : PublicKey → Cascade σ → Except CascadeError Unit × Cascade σ}
    (hwalk : KeepsSound primary depthLimit depth walk) {delegates : List PublicKey}
    {c c' : Cascade σ} (h : followAll walk delegates c=(.ok (),c')) :
    c.pulled <+: c'.pulled ∧
      (c.Sound primary depthLimit → (∀ k∈delegates, Reached primary c.further depth k) →
      c'.OwnPayloads → c'.Sound primary depthLimit) := by
  induction delegates generalizing c with
  | nil =>
    cases h
    exact ⟨prefix_refl _,fun hsound _ _ => hsound⟩
  | cons k rest ih =>
    rw [followAll] at h
    match hk : walk k c with
    | (.error e,c₁) =>
      rw [hk] at h
      cases h
    | (.ok (),c₁) =>
      rw [hk] at h
      obtain ⟨hfirst,hkeep⟩ := hwalk k c c₁ hk
      obtain ⟨hrest,hkeep'⟩ := ih h
      refine ⟨hfirst.trans hrest,fun hsound hreached hown => ?_⟩
      have hown₁ : c₁.OwnPayloads := fun p hp => hown p (hrest.subset hp)
      refine hkeep' (hkeep hsound (hreached k (mem_cons_self ..)) hown₁) (fun k' hk' => ?_) hown
      exact (hreached k' (mem_cons_of_mem _ hk')).mono (Cascade.further_subset hfirst) le_rfl

/-- By induction on the levels that are left: a walk at some depth takes the payload of its
delegate, and then walks one level deeper from the delegates of the active blobs. -/
theorem walkDelegate_keeps {levels : ℕ} (hlevels : levels ≤ depthLimit) :
    KeepsSound primary depthLimit (depthLimit+1-levels)
      (walkDelegate env resolve now depthLimit levels) := by
  induction levels with
  | zero =>
    intro k c c' h
    cases h
  | succ levels ih =>
    intro k c c' h
    rw [walkDelegate] at h
    split at h
    · cases h
    rename_i hunvisited
    dsimp only at h
    split at h
    · cases h
    split at h
    · cases h
    · cases h
    rename_i manifestBytes blobs resolver _
    match hpayload : verifyAndParseV2 env manifestBytes blobs c.store now with
    | (.error e,store) =>
      rw [hpayload] at h
      cases h
    | (.ok bundle,store) =>
      rw [hpayload] at h
      obtain ⟨publisher,hparse,hother,hlive,hactive⟩ := verifyAndParseV2_ok hpayload
      rw [hparse] at h
      obtain ⟨hrest,hkeep⟩ := followAll_keeps (ih (by omega)) h
      refine ⟨(prefix_append _ _).trans hrest,fun hsound hreached hown => ?_⟩
      have hkey : publisher.masterPublicKey=k :=
        Option.some.inj (hown _ (hrest.subset (mem_append_right _ (mem_singleton_self _))))
      subst hkey
      refine hkeep (hsound.pull hunvisited (hreached.mono (fun _ hb => hb) (by omega)) hactive
        hother hlive _) ?_ hown
      intro k' hk'
      obtain ⟨b,hb,hdelegate⟩ := mem_flatMap.mp hk'
      rw [show depthLimit+1-levels=depthLimit+1-(levels+1)+1 by omega]
      refine .inr ⟨b,?_,?_,hdelegate⟩
      · simp [Cascade.further,hb]
      · rw [hactive b hb]
        exact hreached.mono (Cascade.further_subset (prefix_append _ _)) le_rfl

end

/-- For every resolver, store, depth limit and primary blobs: a cascade that succeeds follows the
chain of delegations, if each payload that the resolver gave it carried a manifest of the delegate
it was for. -/
theorem cascade_follows_delegation {σ : Type} (env : ListEnv) (resolve : DelegateResolver σ)
    (now depthLimit : ℕ) (primary : List ValidatorListDataV2) (resolver : σ) (store : ManifestStore)
    (c : Cascade σ)
    (h : resolveCascade env resolve now depthLimit primary resolver store=(.ok (),c))
    (hown : c.OwnPayloads) : c.FollowsDelegation primary depthLimit := by
  have hwalk : KeepsSound primary depthLimit 1
    (walkDelegate env resolve now depthLimit depthLimit) := by
    have hkeeps : KeepsSound primary depthLimit (depthLimit+1-depthLimit)
        (walkDelegate env resolve now depthLimit depthLimit) := walkDelegate_keeps le_rfl
    rwa [Nat.add_sub_cancel_left] at hkeeps
  refine ((followAll_keeps hwalk h).2 (Cascade.sound_start resolver store) (fun k hk => ?_)
    hown).follows hown
  obtain ⟨b,hb,hdelegate⟩ := mem_flatMap.mp hk
  exact .inl ⟨b,hb,hdelegate⟩

/-! ## A resolver that mixes up its publishers -/

def samplePrimary : ValidatorListDataV2 := ⟨⟨1,100,[],[],sampleKey 2⟩,0,[sampleKey 6]⟩

def sampleResolver (publisher : PublicKey) : DelegateResolver Unit := fun _ _ =>
  (.ok (some (sampleManifestAt 1 publisher (sampleKey 7),
    [⟨none,[1],Codec.hexEncodeUpper ((sampleKey 7).asBytes++[1])⟩])),())

def sampleCascade (publisher : PublicKey) : Except CascadeError Unit × Cascade Unit :=
  resolveCascade sampleListEnv (sampleResolver publisher) 50 3 [samplePrimary] () .new

private theorem eq_of_isOk {ε α : Type} {x : Except ε Unit × α} (h : x.1.isOk=true) :
    x=(.ok (),x.2) := by
  match x, h with
  | (.ok (),_), _ => rfl

theorem delegate_list_followed :
    (sampleCascade (sampleKey 6)).2.out.map (·.base.publisherMasterKey)=[sampleKey 2,sampleKey 6] ∧
      (sampleCascade (sampleKey 6)).2.FollowsDelegation [samplePrimary] 3 := by
  have hrun := eq_of_isOk (show (sampleCascade (sampleKey 6)).1.isOk=true by decide +kernel)
  have hown : (sampleCascade (sampleKey 6)).2.OwnPayloads := by
    unfold Cascade.OwnPayloads
    decide +kernel
  refine ⟨by decide +kernel,?_⟩
  generalize (sampleCascade (sampleKey 6)).2=c at hrun hown
  exact cascade_follows_delegation _ _ _ _ _ _ _ c hrun hown

/-- Asked for the one delegate, the resolver returns the list of somebody else, who is trusted from
then on. -/
theorem stranger_list_followed :
    (sampleCascade (sampleKey 8)).1.isOk=true ∧
      (sampleCascade (sampleKey 8)).2.out.map
        (·.base.publisherMasterKey)=[sampleKey 2,sampleKey 8] ∧
      ¬ (sampleCascade (sampleKey 8)).2.FollowsDelegation [samplePrimary] 3 := by
  have hnodelegates : ∀ b∈(sampleCascade (sampleKey 8)).2.further, b.delegates=[] := by
    decide +kernel
  refine ⟨by decide +kernel,by decide +kernel,fun h => ?_⟩
  obtain ⟨b,hb,hkey⟩ : ∃ b∈(sampleCascade (sampleKey 8)).2.further,
    b.base.publisherMasterKey=sampleKey 8 := by
    decide +kernel
  have hreached := h.reached b hb
  rw [hkey] at hreached
  rcases hreached with ⟨b,hb,hdelegate⟩ | ⟨b,hb,-,hdelegate⟩
  · rw [mem_singleton.mp hb] at hdelegate
    revert hdelegate
    decide
  · rw [hnodelegates b hb] at hdelegate
    cases hdelegate

end Rxrpl.Consensus
