/-
  Runs of a deterministic machine over a list of operations, and refinement between two of
  them.

  `exec step s ops` runs `step` from `s` and collects what each operation returned. `Allowed`
  says that every operation of a list meets a precondition at the state the specification has
  reached there. `exec_refines` lifts a one-operation simulation to whole runs, and
  `exec_refines_good` those runs whose results all meet a condition; `exec_inv` is the
  one-machine form. `runs` is for a machine whose operations may be refused, and `runs_inv` its
  invariant rule; `runs_inv_of_meets` is for the runs all of whose operations meet a condition.
-/
import Mathlib.Tactic

namespace Venix.Lib

variable {σ α ι ω : Type}

/-- The state after `ops`, and what each of them returned. -/
def exec (step : σ → ι → σ × ω) : σ → List ι → σ × List ω
  | s, [] => (s, [])
  | s, i :: ops =>
    let r := step s i
    let rest := exec step r.1 ops
    (rest.1, r.2 :: rest.2)

/-- Every operation meets `pre` at the state reached before it. -/
def Allowed (step : σ → ι → σ × ω) (pre : σ → ι → Prop) : σ → List ι → Prop
  | _, [] => True
  | s, i :: ops => pre s i ∧ Allowed step pre (step s i).1 ops

instance Allowed.decidable {step : σ → ι → σ × ω} {pre : σ → ι → Prop}
    [∀ s i, Decidable (pre s i)] : ∀ s ops, Decidable (Allowed step pre s ops)
  | _, [] => .isTrue trivial
  | s, i :: ops =>
    have : Decidable (Allowed step pre (step s i).1 ops) := Allowed.decidable (step s i).1 ops
    inferInstanceAs (Decidable (_ ∧ _))

@[simp] theorem exec_nil (step : σ → ι → σ × ω) (s : σ) : exec step s [] = (s, []) := rfl

theorem exec_cons (step : σ → ι → σ × ω) (s : σ) (i : ι) (ops : List ι) :
    exec step s (i :: ops) =
      ((exec step (step s i).1 ops).1, (step s i).2 :: (exec step (step s i).1 ops).2) := rfl

theorem allowed_of_forall {step : σ → ι → σ × ω} {pre : ι → Prop} (s : σ) (ops : List ι)
    (h : ∀ i ∈ ops, pre i) : Allowed step (fun _ i => pre i) s ops := by
  induction ops generalizing s with
  | nil => trivial
  | cons i ops ih =>
    exact ⟨h i List.mem_cons_self, ih _ (fun j hj => h j (List.mem_cons_of_mem _ hj))⟩

/-- If every operation keeps `Inv`, so does every run. -/
theorem exec_inv {step : σ → ι → σ × ω} {Inv : σ → Prop}
    (hstep : ∀ s i, Inv s → Inv (step s i).1) (s : σ) (ops : List ι) (hs : Inv s) :
    Inv (exec step s ops).1 := by
  induction ops generalizing s with
  | nil => exact hs
  | cons i ops ih => exact ih _ (hstep s i hs)

/-- If one operation of `step` with a good result returns what `spec` returns and keeps `R`,
    wherever `pre` holds of the specification's state, then every allowed run with good results
    returns what `spec` returns. -/
theorem exec_refines_good {step : σ → ι → σ × ω} {spec : α → ι → α × ω} {pre : α → ι → Prop}
    {good : ω → Prop} {R : σ → α → Prop}
    (hstep : ∀ s a i, R s a → pre a i → good (step s i).2 →
      (step s i).2 = (spec a i).2 ∧ R (step s i).1 (spec a i).1)
    (s : σ) (a : α) (ops : List ι) (hR : R s a) (hok : Allowed spec pre a ops)
    (hgood : ∀ o ∈ (exec step s ops).2, good o) :
    (exec step s ops).2 = (exec spec a ops).2 ∧
      R (exec step s ops).1 (exec spec a ops).1 := by
  induction ops generalizing s a with
  | nil => exact ⟨rfl, hR⟩
  | cons i ops ih =>
    rw [exec_cons] at hgood
    obtain ⟨hout, hR'⟩ := hstep s a i hR hok.1 (hgood _ (List.mem_cons_self))
    obtain ⟨houts, hfin⟩ := ih _ _ hR' hok.2 (fun o ho => hgood o (List.mem_cons_of_mem _ ho))
    refine ⟨?_, hfin⟩
    rw [exec_cons, exec_cons]
    simp only [hout, houts]

/-- The same where every result is good. -/
theorem exec_refines {step : σ → ι → σ × ω} {spec : α → ι → α × ω} {pre : α → ι → Prop}
    {R : σ → α → Prop}
    (hstep : ∀ s a i, R s a → pre a i →
      (step s i).2 = (spec a i).2 ∧ R (step s i).1 (spec a i).1)
    (s : σ) (a : α) (ops : List ι) (hR : R s a) (hok : Allowed spec pre a ops) :
    (exec step s ops).2 = (exec spec a ops).2 ∧
      R (exec step s ops).1 (exec spec a ops).1 :=
  exec_refines_good (fun s a i h hp (_ : True) => hstep s a i h hp) s a ops hR hok
    (fun _ _ => trivial)

/-! ## Operations that may be refused -/

/-- The state after `ops`, and what each of them returned, if none is refused. -/
def runs {ε : Type} (step : σ → ι → Except ε (σ × ω)) : σ → List ι → Except ε (σ × List ω)
  | s, [] => .ok (s, [])
  | s, i :: ops =>
    match step s i with
    | .error e => .error e
    | .ok (s', o) =>
      match runs step s' ops with
      | .error e => .error e
      | .ok (s'', os) => .ok (s'', o :: os)

theorem runs_cons_ok {ε : Type} {step : σ → ι → Except ε (σ × ω)} {s s'' : σ} {i : ι} {ops : List ι}
    {outs : List ω} (h : runs step s (i :: ops) = .ok (s'', outs)) :
    ∃ s' o os, step s i = .ok (s', o) ∧ runs step s' ops = .ok (s'', os) ∧ outs = o :: os := by
  unfold runs at h
  split at h
  · cases h
  · rename_i s' o hstep
    split at h
    · cases h
    · rename_i s₂ os hrest
      cases h
      exact ⟨s', o, os, hstep, hrest, rfl⟩

/-- If every operation that is made keeps `Inv`, so does every run. -/
theorem runs_inv {ε : Type} {step : σ → ι → Except ε (σ × ω)} {Inv : σ → Prop}
    (hstep : ∀ s i s' o, Inv s → step s i = .ok (s', o) → Inv s') {s s' : σ}
    {ops : List ι} {outs : List ω} (hs : Inv s) (h : runs step s ops = .ok (s', outs)) :
    Inv s' := by
  induction ops generalizing s outs with
  | nil =>
    cases h
    exact hs
  | cons i ops ih =>
    obtain ⟨s₁, o, os, h1, h2, -⟩ := runs_cons_ok h
    exact ih (hstep s i s₁ o hs h1) h2

/-- Every operation of the run meets `ok` at the state reached before it. -/
def Meets {ε : Type} (step : σ → ι → Except ε (σ × ω)) (ok : σ → ι → Prop) : σ → List ι → Prop
  | _, [] => True
  | s, i :: ops => ok s i ∧
    match step s i with
    | .error _ => True
    | .ok (s', _) => Meets step ok s' ops

instance Meets.decidable {ε : Type} {step : σ → ι → Except ε (σ × ω)} {ok : σ → ι → Prop}
    [∀ s i, Decidable (ok s i)] : ∀ s ops, Decidable (Meets step ok s ops)
  | _, [] => .isTrue trivial
  | s, i :: ops =>
    match h : step s i with
    | .error _ => decidable_of_iff (ok s i) (by simp [Meets, h])
    | .ok (s', _) =>
      have : Decidable (Meets step ok s' ops) := Meets.decidable s' ops
      decidable_of_iff (ok s i ∧ Meets step ok s' ops) (by simp [Meets, h])

/-- If every operation that meets `ok` keeps `Inv`, so does every run of such operations. -/
theorem runs_inv_of_meets {ε : Type} {step : σ → ι → Except ε (σ × ω)} {ok : σ → ι → Prop}
    {Inv : σ → Prop} (hstep : ∀ s i s' o, Inv s → ok s i → step s i = .ok (s', o) → Inv s')
    {s s' : σ} {ops : List ι} {outs : List ω} (hs : Inv s) (hok : Meets step ok s ops)
    (h : runs step s ops = .ok (s', outs)) : Inv s' := by
  induction ops generalizing s outs with
  | nil =>
    cases h
    exact hs
  | cons i ops ih =>
    obtain ⟨s₁, o, os, h1, h2, -⟩ := runs_cons_ok h
    obtain ⟨hi, hrest⟩ := hok
    rw [h1] at hrest
    exact ih (hstep s i s₁ o hs hi h1) hrest h2

/-- If no operation that meets `ok` is refused with `bad`, no run of such operations is. -/
theorem runs_ne_error {ε : Type} {step : σ → ι → Except ε (σ × ω)} {ok : σ → ι → Prop}
    {Inv : σ → Prop} {bad : ε}
    (hstep : ∀ s i s' o, Inv s → ok s i → step s i = .ok (s', o) → Inv s')
    (hbad : ∀ s i, Inv s → ok s i → step s i ≠ .error bad)
    {s : σ} {ops : List ι} (hs : Inv s) (hok : Meets step ok s ops) :
    runs step s ops ≠ .error bad := by
  induction ops generalizing s with
  | nil =>
    intro h
    cases h
  | cons i ops ih =>
    obtain ⟨hi, hrest⟩ := hok
    unfold runs
    split
    · next e he =>
      intro h
      cases h
      exact hbad s i hs hi he
    · next s' o hstep' =>
      rw [hstep'] at hrest
      have hnext := ih (hstep s i s' o hs hi hstep') hrest
      split
      · next e he =>
        intro h
        cases h
        exact hnext he
      · intro h
        cases h

end Venix.Lib
