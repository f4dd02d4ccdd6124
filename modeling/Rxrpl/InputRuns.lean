import Mathlib.Data.List.Basic

/-!
# Runs over a list of inputs

A machine takes one input after another. `Along` says that a property of the state and the input
holds at every turn of a run. Two such properties agree along a run when they agree wherever an
invariant holds, and one of them keeps it.

A resource has a meter, which shows how much has been drawn, or it is not there. It is drawn on
once, until it is made anew, exactly when every draw finds the meter at zero.
-/

namespace InputRun

open List

variable {σ ι : Type} (step : σ → ι → σ)

/-- Every input finds the property at its turn. -/
def Along (P : σ → ι → Prop) : σ → List ι → Prop
  | _, [] => True
  | s, i::rest => P s i ∧ Along P (step s i) rest

variable {step} {P Q : σ → ι → Prop} {s : σ} {inputs : List ι}

theorem along_append {inputs' : List ι} :
    Along step P s (inputs++inputs') ↔ Along step P s inputs ∧
      Along step P (inputs.foldl step s) inputs' := by
  induction inputs generalizing s with
  | nil => simp [Along]
  | cons i inputs ih => simp [Along,ih,and_assoc]

theorem along_iff : Along step P s inputs ↔ ∀ done i rest, inputs=done++i::rest →
    P (done.foldl step s) i := by
  constructor
  · rintro h done i rest rfl
    exact (along_append.mp h).2.1
  intro h
  induction inputs generalizing s with
  | nil => exact trivial
  | cons i inputs ih =>
    refine ⟨h [] i inputs rfl,ih fun done j rest hsplit => ?_⟩
    exact h (i::done) j rest (by rw [hsplit,cons_append])

theorem along_true (step : σ → ι → σ) (s : σ) (inputs : List ι) :
    Along step (fun _ _ => True) s inputs := by
  induction inputs generalizing s with
  | nil => exact trivial
  | cons i inputs ih => exact ⟨trivial,ih (step s i)⟩

theorem along_and : Along step (fun s i => P s i ∧ Q s i) s inputs ↔ Along step P s inputs ∧
    Along step Q s inputs := by
  induction inputs generalizing s with
  | nil => simp [Along]
  | cons i inputs ih =>
    simp only [Along,ih]
    tauto

/-- An invariant that is kept while `Q` holds carries an equivalence of `P` and `Q` along the run.
-/
theorem along_congr (Inv : σ → Prop) (allowed : ι → Prop)
    (hiff : ∀ s i, Inv s → allowed i → (P s i ↔ Q s i))
    (hkeep : ∀ s i, Inv s → allowed i → Q s i → Inv (step s i)) (hs : Inv s)
    (hin : ∀ i∈inputs, allowed i) : Along step P s inputs ↔ Along step Q s inputs := by
  induction inputs generalizing s with
  | nil => exact Iff.rfl
  | cons i inputs ih =>
    have hi := hin i (mem_cons_self ..)
    have hrest : ∀ j∈inputs, allowed j := fun j hj => hin j (mem_cons_of_mem i hj)
    constructor
    · rintro ⟨hP,h⟩
      have hQ := (hiff s i hs hi).mp hP
      exact ⟨hQ,(ih (hkeep s i hs hi hQ) hrest).mp h⟩
    · rintro ⟨hQ,h⟩
      exact ⟨(hiff s i hs hi).mpr hQ,(ih (hkeep s i hs hi hQ) hrest).mpr h⟩

theorem along_map {τ : Type} {step' : τ → ι → τ} {R : τ → ι → Prop} (f : σ → τ) (allowed : ι → Prop)
    (hf : ∀ s i, allowed i → f (step s i)=step' (f s) i) (hin : ∀ i∈inputs, allowed i) :
    Along step (fun s i => R (f s) i) s inputs ↔ Along step' R (f s) inputs := by
  induction inputs generalizing s with
  | nil => exact Iff.rfl
  | cons i inputs ih =>
    simp only [Along]
    rw [ih fun j hj => hin j (mem_cons_of_mem i hj),hf s i (hin i (mem_cons_self ..))]

theorem along_of_along (Inv : σ → Prop) (allowed : ι → Prop)
    (hstep : ∀ s i, Inv s → allowed i → P s i → Q s i ∧ Inv (step s i)) (hs : Inv s)
    (hin : ∀ i∈inputs, allowed i) (h : Along step P s inputs) : Along step Q s inputs := by
  induction inputs generalizing s with
  | nil => exact trivial
  | cons i inputs ih =>
    obtain ⟨hQ,hInv⟩ := hstep s i hs (hin i (mem_cons_self ..)) h.1
    exact ⟨hQ,ih hInv (fun j hj => hin j (mem_cons_of_mem i hj)) h.2⟩

/-! ## Draws on a resource -/

section

variable (step) (meter : σ → Option ℕ)

/-- The input uses the resource up or moves its meter. -/
def Draws (s : σ) (i : ι) : Prop := ∃ b, meter s=some b ∧ ∀ b', meter (step s i)=some b' → b < b'

def Renews (s : σ) (i : ι) : Prop := meter s=none ∧ (meter (step s i)).isSome

/-- No input draws on the resource before it is made anew. -/
def Untapped (s : σ) (inputs : List ι) : Prop :=
  ∀ done i rest, inputs=done++i::rest → Draws step meter (done.foldl step s) i →
    ∃ first j last, done=first++j::last ∧ Renews step meter (first.foldl step s) j

/-- After a draw there is no other one before the resource is made anew. -/
def DrawnOnce (s : σ) (inputs : List ι) : Prop :=
  ∀ done i rest, inputs=done++i::rest → Draws step meter (done.foldl step s) i →
    Untapped step meter (step (done.foldl step s) i) rest

/-- A meter starts at zero and does not run backwards. -/
structure Metered (s : σ) (i : ι) : Prop where
  start : meter s=none → meter (step s i)=none ∨ meter (step s i)=some 0
  ascend : ∀ b, meter s=some b → meter (step s i)=none ∨ ∃ b' ≥ b, meter (step s i)=some b'

variable {step meter} {i : ι} {rest : List ι}

theorem untapped_cons : Untapped step meter s (i::rest) ↔
      ¬ Draws step meter s i ∧ (Renews step meter s i ∨ Untapped step meter (step s i) rest) := by
  constructor
  · intro h
    refine ⟨fun hdraw => ?_,?_⟩
    · obtain ⟨first,j,last,hnil,-⟩ := h [] i rest rfl hdraw
      simp at hnil
    by_cases hrenew : Renews step meter s i
    · exact .inl hrenew
    refine .inr fun done j last hsplit hdraw => ?_
    obtain ⟨first,k,last',hfirst,hk⟩ := h (i::done) j last (by rw [hsplit,cons_append]) hdraw
    cases first with
    | nil =>
      cases hfirst
      exact (hrenew hk).elim
    | cons i' first =>
      cases hfirst
      exact ⟨first,k,last',rfl,hk⟩
  · rintro ⟨hnot,hnext⟩ done j last hsplit hdraw
    cases done with
    | nil =>
      cases hsplit
      exact (hnot hdraw).elim
    | cons i' done =>
      cases hsplit
      obtain hrenew | huntapped := hnext
      · exact ⟨[],i,done,rfl,hrenew⟩
      · obtain ⟨first,k,last',hfirst,hk⟩ := huntapped done j last rfl hdraw
        exact ⟨i::first,k,last',by rw [hfirst,cons_append],hk⟩

theorem drawnOnce_cons : DrawnOnce step meter s (i::rest) ↔
    (Draws step meter s i → Untapped step meter (step s i) rest) ∧
        DrawnOnce step meter (step s i) rest := by
  constructor
  · intro h
    refine ⟨fun hdraw => h [] i rest rfl hdraw,fun done j last hsplit hdraw => ?_⟩
    exact h (i::done) j last (by rw [hsplit,cons_append]) hdraw
  · rintro ⟨hfirst,hnext⟩ done j last hsplit hdraw
    cases done with
    | nil =>
      cases hsplit
      exact hfirst hdraw
    | cons i' done =>
      cases hsplit
      exact hnext done j last rfl hdraw

theorem untapped_of_none (hmetered : Along step (Metered step meter) s inputs) (hs : meter s=none) :
    Untapped step meter s inputs := by
  induction inputs generalizing s with
  | nil => exact fun done i rest hsplit => by simp at hsplit
  | cons i inputs ih =>
    obtain ⟨hi,hmetered⟩ := hmetered
    refine untapped_cons.mpr ⟨?_,?_⟩
    · rintro ⟨b,hb,-⟩
      rw [hs] at hb
      cases hb
    · obtain hnone | hzero := hi.start hs
      · exact .inr (ih hmetered hnone)
      · exact .inl ⟨hs,by rw [hzero]; rfl⟩

/-- Once the meter has moved, the resource must not be drawn on again; before that, it may be once.
-/
theorem drawn_iff (hmetered : Along step (Metered step meter) s inputs) :
    ((∀ b, meter s=some b → b=0) → (DrawnOnce step meter s inputs ↔
        Along step (fun s i => Draws step meter s i → meter s=some 0) s inputs)) ∧
      ∀ b, 0 < b → meter s=some b → (Untapped step meter s inputs ∧ DrawnOnce step meter s inputs ↔
        Along step (fun s i => Draws step meter s i → meter s=some 0) s inputs) := by
  induction inputs generalizing s with
  | nil =>
    have honce : DrawnOnce step meter s [] := fun done i rest hsplit => by simp at hsplit
    have huntapped : Untapped step meter s [] := fun done i rest hsplit => by simp at hsplit
    exact ⟨fun _ => ⟨fun _ => trivial,fun _ => honce⟩,fun _ _ _ =>
      ⟨fun _ => trivial,fun _ => ⟨huntapped,honce⟩⟩⟩
  | cons i inputs ih =>
    obtain ⟨hi,hmetered⟩ := hmetered
    obtain ⟨ihclean,ihmoved⟩ := ih hmetered
    have hpresent : ∀ b, meter s=some b → ¬ Draws step meter s i → meter (step s i)=some b := by
      intro b hb hdraw
      obtain hnone | ⟨b',hge,hb'⟩ := hi.ascend b hb
      · exact (hdraw ⟨b,hb,fun b' hb' => by rw [hnone] at hb'; cases hb'⟩).elim
      · have hle : ¬ b < b' := fun hlt =>
          hdraw ⟨b,hb,fun c hc => by cases hb'.symm.trans hc; exact hlt⟩
        rw [hb',show b'=b by omega]
    constructor
    · intro hclean
      rw [drawnOnce_cons,Along]
      by_cases hdraw : Draws step meter s i
      · obtain ⟨b,hb,hraise⟩ := hdraw
        have hzero : meter s=some 0 := by rw [hb,hclean b hb]
        have hdraw : Draws step meter s i := ⟨b,hb,hraise⟩
        cases hnext : meter (step s i) with
        | none =>
          rw [ihclean fun b' hb' => by rw [hnext] at hb'; cases hb']
          exact ⟨fun h => ⟨fun _ => hzero,h.2⟩,fun h =>
            ⟨fun _ => untapped_of_none hmetered hnext,h.2⟩⟩
        | some b' =>
          have hpos : 0 < b' := Nat.zero_lt_of_lt (hraise b' hnext)
          rw [← ihmoved b' hpos hnext]
          exact ⟨fun h => ⟨fun _ => hzero,h.1 hdraw,h.2⟩,fun h => ⟨fun _ => h.2.1,h.2.2⟩⟩
      · have hstay : ∀ b, meter (step s i)=some b → b=0 := by
          intro b hb
          cases hs : meter s with
          | none =>
            obtain hnone | hzero := hi.start hs
            · rw [hnone] at hb
              cases hb
            · exact Option.some.inj (hb.symm.trans hzero)
          | some c =>
            have hc := hpresent c hs hdraw
            rw [hclean c hs] at hc
            exact Option.some.inj (hb.symm.trans hc)
        rw [ihclean hstay]
        exact ⟨fun h => ⟨fun hd => (hdraw hd).elim,h.2⟩,fun h => ⟨fun hd => (hdraw hd).elim,h.2⟩⟩
    · intro b hpos hb
      rw [untapped_cons,drawnOnce_cons,Along]
      by_cases hdraw : Draws step meter s i
      · refine ⟨fun h => (h.1.1 hdraw).elim,fun h => ?_⟩
        have hzero := hb.symm.trans (h.1 hdraw)
        cases hzero
        exact (Nat.lt_irrefl 0 hpos).elim
      · rw [← ihmoved b hpos (hpresent b hb hdraw)]
        have hrenew : ¬ Renews step meter s i := fun h => by cases hb.symm.trans h.1
        exact ⟨fun h => ⟨fun hd => (hdraw hd).elim,h.1.2.resolve_left hrenew,h.2.2⟩,
          fun h => ⟨⟨hdraw,.inr h.2.1⟩,fun hd => (hdraw hd).elim,h.2.2⟩⟩

end

end InputRun
