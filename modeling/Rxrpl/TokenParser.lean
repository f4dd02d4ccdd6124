import Mathlib.Data.List.TakeDrop

/-!
# Parsers over a list of tokens

A parser takes tokens off the front of its input and may fail. `Reads p w a` says that `p`
takes exactly the word `w` off any input that starts with it and returns `a`, so that a
grammar is read by composing the words of its parts. `Ensures p P` says that whatever `p`
returns satisfies `P`.
-/

/-- A parser of `α` over tokens `τ` with errors `ε`. -/
abbrev TokenParser (τ ε : Type) := StateT (List τ) (Except ε)

namespace TokenParser

variable {τ ε α β : Type}

/-- The next `n` tokens, or the error `e` when there are fewer. -/
def next (e : ε) (n : ℕ) : TokenParser τ ε (List τ) := fun s =>
  if s.length < n then .error e else .ok (s.take n,s.drop n)

def remaining : TokenParser τ ε ℕ := fun s => .ok (s.length,s)

/-- A result that takes no token. -/
def ofResult (x : Except ε α) : TokenParser τ ε α := fun s =>
  match x with
  | .ok a => .ok (a,s)
  | .error e => .error e

theorem bind_apply (p : TokenParser τ ε α) (f : α → TokenParser τ ε β) (s : List τ) :
    (p >>= f) s=match p s with
      | .ok (a,s') => f a s'
      | .error e => .error e := by
  change Except.bind (p s) _=_
  cases p s <;> rfl

variable {P : α → Prop} {a : α} {b : β} {e : ε} {f : α → TokenParser τ ε β} {p : TokenParser τ ε α}
  {s s' w : List τ}

theorem bind_of_ok (h : p s=.ok (a,s')) : (p >>= f) s=f a s' := by
  rw [bind_apply,h]

theorem bind_eq_ok_iff : (p >>= f) s=.ok (b,s') ↔ ∃ a t, p s=.ok (a,t) ∧ f a t=.ok (b,s') := by
  rw [bind_apply]
  constructor
  · intro h
    split at h
    · rename_i a t hp
      exact ⟨a,t,hp,h⟩
    · cases h
  · rintro ⟨a,t,hp,hf⟩
    rw [hp]
    exact hf

theorem pure_apply (a : α) (s : List τ) : (pure a : TokenParser τ ε α) s=.ok (a,s) := rfl

/-! ## Reading a word -/

/-- The parser takes the word off any input that starts with it. -/
def Reads (p : TokenParser τ ε α) (w : List τ) (a : α) : Prop := ∀ rest, p (w++rest)=.ok (a,rest)

theorem Reads.pure (a : α) : Reads (Pure.pure a : TokenParser τ ε α) [] a := fun _ => rfl

theorem Reads.bind {w' : List τ} (hp : Reads p w a) (hf : Reads (f a) w' b) :
    Reads (p >>= f) (w++w') b := by
  intro rest
  rw [List.append_assoc,bind_of_ok (hp _)]
  exact hf rest

theorem Reads.bind_pure (hp : Reads p w a) (hf : f a=Pure.pure b) : Reads (p >>= f) w b := by
  have hlast : Reads (f a) [] b := by
    rw [hf]
    exact Reads.pure b
  have h := hp.bind hlast
  rwa [List.append_nil] at h

theorem reads_next {n : ℕ} (h : w.length=n) : Reads (next e n) w w := by
  intro rest
  rw [next,if_neg (by rw [List.length_append]; omega),List.take_left' h,List.drop_left' h]

theorem reads_ofResult {x : Except ε α} (h : x=.ok a) :
    Reads (ofResult x : TokenParser τ ε α) [] a := by
  intro rest
  rw [h]
  rfl

/-! ## What a parser returns -/

/-- Whatever the parser returns satisfies `P`. -/
def Ensures (p : TokenParser τ ε α) (P : α → Prop) : Prop := ∀ ⦃s a rest⦄, p s=.ok (a,rest) → P a

theorem Ensures.mono {Q : α → Prop} (h : Ensures p P) (hPQ : ∀ a, P a → Q a) : Ensures p Q :=
  fun _ _ _ hp => hPQ _ (h hp)

theorem ensures_pure (h : P a) : Ensures (Pure.pure a : TokenParser τ ε α) P := by
  intro s a' rest hp
  cases hp
  exact h

theorem ensures_throw : Ensures (throw e : TokenParser τ ε α) P := by
  intro s a rest hp
  cases hp

theorem Ensures.bind {Q : β → Prop} (hp : Ensures p P) (hf : ∀ a, P a → Ensures (f a) Q) :
    Ensures (p >>= f) Q := by
  intro s b rest h
  obtain ⟨a,t,ha,hb⟩ := bind_eq_ok_iff.mp h
  exact hf a (hp ha) hb

theorem ensures_any (p : TokenParser τ ε α) : Ensures p fun _ => True := fun _ _ _ _ => trivial

theorem ensures_next (e : ε) (n : ℕ) :
    Ensures (next e n : TokenParser τ ε (List τ)) (·.length=n) := by
  intro s a rest h
  rw [next] at h
  split at h
  · cases h
  rename_i hlen
  cases h
  rw [List.length_take]
  omega

theorem ensures_ofResult (x : Except ε α) : Ensures (ofResult x : TokenParser τ ε α) fun a =>
    x=.ok a := by
  intro s a rest h
  cases x with
  | ok a' =>
    cases h
    rfl
  | error e => cases h

end TokenParser
