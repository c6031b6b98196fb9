/-
  Two runs of stateful programs that may fail, side by side.

  `Couple E P Q x y` says: from states related by `P`, the programs `x` and `y` either both
  return the same value, in states that `Q` relates for it, or both fail with the same error,
  which meets `E`. With `x = y` and a relation that leaves part of the state free it says that
  the program does not depend on that part; with a relation inside equality it is the usual
  triple of a pre- and a postcondition.

  `Within R x` says how far one run of `x` can change the state.
-/
import Mathlib.Tactic

namespace Venix.Lib

variable {σ ε α β : Type} {E : ε → Prop} {P P' : σ → σ → Prop} {Q Q' : α → σ → σ → Prop}
  {R : β → σ → σ → Prop}

def Couple (E : ε → Prop) (P : σ → σ → Prop) (Q : α → σ → σ → Prop)
    (x y : StateT σ (Except ε) α) : Prop :=
  ∀ s t, P s t →
    (∃ a s' t', x s = .ok (a, s') ∧ y t = .ok (a, t') ∧ Q a s' t') ∨
    ∃ e, x s = .error e ∧ y t = .error e ∧ E e

/-- Nothing is done but to return. -/
theorem stateT_pure_eq (a : α) (s : σ) : (pure a : StateT σ (Except ε) α) s = .ok (a, s) := rfl

theorem stateT_bind_ok {x : StateT σ (Except ε) α} (f : α → StateT σ (Except ε) β) {s s' : σ}
    {a : α} (h : x s = .ok (a, s')) : (x >>= f) s = f a s' := by
  show (x s >>= fun p => f p.1 p.2) = f a s'
  rw [h]
  rfl

theorem stateT_bind_error {x : StateT σ (Except ε) α} (f : α → StateT σ (Except ε) β) {s : σ}
    {e : ε} (h : x s = .error e) : (x >>= f) s = .error e := by
  show (x s >>= fun p => f p.1 p.2) = .error e
  rw [h]
  rfl

theorem stateT_bind_eq_ok {x : StateT σ (Except ε) α} {f : α → StateT σ (Except ε) β} {s : σ}
    {r : β × σ} (h : (x >>= f) s = .ok r) : ∃ a s', x s = .ok (a, s') ∧ f a s' = .ok r := by
  cases hx : x s with
  | error e =>
    rw [stateT_bind_error f hx] at h
    cases h
  | ok p =>
    obtain ⟨a, s'⟩ := p
    rw [stateT_bind_ok f hx] at h
    exact ⟨a, s', rfl, h⟩

theorem stateT_bind_congr {x y : StateT σ (Except ε) α} (f : α → StateT σ (Except ε) β)
    {s t : σ} (h : x s = y t) : (x >>= f) s = (y >>= f) t := by
  show (x s >>= fun p => f p.1 p.2) = (y t >>= fun p => f p.1 p.2)
  rw [h]

theorem Couple.pure {a : α} (h : ∀ s t, P s t → Q a s t) :
    Couple E P Q (Pure.pure a : StateT σ (Except ε) α) (Pure.pure a) :=
  fun s t hP => Or.inl ⟨a, s, t, rfl, rfl, h s t hP⟩

theorem Couple.bind {x y : StateT σ (Except ε) α} {f g : α → StateT σ (Except ε) β}
    (hx : Couple E P Q x y) (hf : ∀ a, Couple E (Q a) R (f a) (g a)) :
    Couple E P R (x >>= f) (y >>= g) := by
  intro s t hP
  rcases hx s t hP with ⟨a, s', t', hxs, hyt, hQ⟩ | ⟨e, hxs, hyt, he⟩
  · rw [stateT_bind_ok f hxs, stateT_bind_ok g hyt]
    exact hf a s' t' hQ
  · exact Or.inr ⟨e, stateT_bind_error f hxs, stateT_bind_error g hyt, he⟩

theorem Couple.mono {x y : StateT σ (Except ε) α} (hP : ∀ s t, P' s t → P s t)
    (hQ : ∀ a s t, Q a s t → Q' a s t) (h : Couple E P Q x y) : Couple E P' Q' x y := by
  intro s t hs
  rcases h s t (hP s t hs) with ⟨a, s', t', hx, hy, hq⟩ | herr
  · exact Or.inl ⟨a, s', t', hx, hy, hQ a s' t' hq⟩
  · exact Or.inr herr

/-! ## How far a run changes the state -/

def Within (T : σ → σ → Prop) (x : StateT σ (Except ε) α) : Prop :=
  ∀ s a s', x s = .ok (a, s') → T s s'

variable {T T' : σ → σ → Prop}

theorem Within.bind {x : StateT σ (Except ε) α} {f : α → StateT σ (Except ε) β}
    (htrans : ∀ s t u, T s t → T t u → T s u) (hx : Within T x) (hf : ∀ a, Within T (f a)) :
    Within T (x >>= f) := by
  intro s b s' h
  obtain ⟨a, t, hx', hf'⟩ := stateT_bind_eq_ok h
  exact htrans s t s' (hx s a t hx') (hf a t b s' hf')

theorem Within.mono {x : StateT σ (Except ε) α} (hT : ∀ s t, T s t → T' s t)
    (hx : Within T x) : Within T' x :=
  fun s a s' h => hT s s' (hx s a s' h)

theorem Within.ite {p : Prop} [Decidable p] {x y : StateT σ (Except ε) α} (hx : Within T x)
    (hy : Within T y) : Within T (if p then x else y) := by
  split
  · exact hx
  · exact hy

end Venix.Lib
