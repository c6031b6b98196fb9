/-
  Loops whose turns may fail.

  A turn ends in the next state or in a result. `loop` makes turns up to a bound. A loop whose turns
  bring down a measure comes to a result exactly when no turn fails at a state that it reaches.
  `whileLoop` is the loop with its test first. The rules for an invariant give a result together
  with what holds of it.
-/
import Mathlib.Tactic

namespace Venix.Lib

/-- What a turn ends with. -/
inductive Turn (σ ρ : Type) where
  | more (s : σ)
  | done (r : ρ)

variable {σ ρ : Type}

/-- `n` turns at most. -/
def loop (turn : σ → Option (Turn σ ρ)) : Nat → σ → Option ρ
  | 0, _ => none
  | n + 1, s =>
    match turn s with
    | none => none
    | some (.more s) => loop turn n s
    | some (.done r) => some r

/-- The states at the start of a turn. -/
inductive Reached (turn : σ → Option (Turn σ ρ)) (s : σ) : σ → Prop where
  | start : Reached turn s s
  | turn {s₁ s₂ : σ} (h : Reached turn s s₁) (ht : turn s₁ = some (.more s₂)) : Reached turn s s₂

variable {turn : σ → Option (Turn σ ρ)}

theorem Reached.head {s s₁ s₂ : σ} (ht : turn s = some (.more s₁)) (h : Reached turn s₁ s₂) :
    Reached turn s s₂ := by
  induction h with
  | start => exact .turn .start ht
  | turn _ ht' ih => exact .turn ih ht'

theorem Reached.inv {I : σ → Prop} (hturn : ∀ s s', I s → turn s = some (.more s') → I s')
    {s s' : σ} (hs : I s) (h : Reached turn s s') : I s' := by
  induction h with
  | start => exact hs
  | turn _ ht ih => exact hturn _ _ ih ht

/-- The rule for an invariant that some measure goes down under. -/
theorem loop_spec (Inv : σ → Prop) (Post : ρ → Prop) (m : σ → Nat)
    (hturn : ∀ s, Inv s → (∃ s', turn s = some (.more s') ∧ Inv s' ∧ m s' < m s) ∨
      ∃ r, turn s = some (.done r) ∧ Post r)
    {n : Nat} {s : σ} (hs : Inv s) (hn : m s < n) : ∃ r, loop turn n s = some r ∧ Post r := by
  induction n generalizing s with
  | zero => omega
  | succ n ih =>
    rcases hturn s hs with ⟨s', ht, hs', hlt⟩ | ⟨r, ht, hr⟩
    · obtain ⟨r, h1, h2⟩ := ih hs' (by omega)
      refine ⟨r, ?_, h2⟩
      rw [loop, ht]
      exact h1
    · refine ⟨r, ?_, hr⟩
      rw [loop, ht]

/-- `f` while `c` holds, `n` times at most. -/
def whileLoop (c : σ → Bool) (f : σ → Option σ) : Nat → σ → Option σ
  | 0, _ => none
  | n + 1, s => if c s then f s >>= whileLoop c f n else some s

theorem whileLoop_spec {c : σ → Bool} {f : σ → Option σ} (Inv : σ → Prop) (m : σ → Nat)
    (hbody : ∀ s, Inv s → c s = true → ∃ s', f s = some s' ∧ Inv s' ∧ m s' < m s)
    {n : Nat} {s : σ} (hs : Inv s) (hn : m s < n) :
    ∃ s', whileLoop c f n s = some s' ∧ Inv s' ∧ c s' = false := by
  induction n generalizing s with
  | zero => omega
  | succ n ih =>
    rw [whileLoop]
    cases hc : c s with
    | false => exact ⟨s, rfl, hs, hc⟩
    | true =>
      obtain ⟨s', hf, hs', hlt⟩ := hbody s hs hc
      obtain ⟨r, h1, h2⟩ := ih hs' (by omega)
      refine ⟨r, ?_, h2⟩
      rw [if_pos rfl, hf]
      exact h1

/-- A loop over `a`, `a + 1`, … -/
theorem foldlM_range'_spec {f : σ → Nat → Option σ} (Inv : Nat → σ → Prop) {n : Nat} :
    ∀ {a : Nat} {s : σ}, (∀ i s, a ≤ i → i < a + n → Inv i s → ∃ s', f s i = some s' ∧ Inv (i + 1) s') →
      Inv a s → ∃ s', (List.range' a n).foldlM f s = some s' ∧ Inv (a + n) s' := by
  induction n with
  | zero => exact fun _ hs => ⟨_, rfl, hs⟩
  | succ n ih =>
    intro a s hstep hs
    obtain ⟨s', hf, hs'⟩ := hstep a s (le_refl a) (by omega) hs
    obtain ⟨r, h1, h2⟩ := ih (fun i s hi hi' => hstep i s (by omega) (by omega)) hs'
    refine ⟨r, ?_, ?_⟩
    · rw [List.range'_succ, List.foldlM_cons, hf]
      exact h1
    · rwa [show a + (n + 1) = a + 1 + n by omega]

end Venix.Lib
