/-
  Computations with fuel.

  `e` is the error of a computation that has run out. `Below e x y` says that `x` is `y`, or has run out.
  A computation whose results only change from `e` to something else with more fuel ends when some fuel
  gives a result: `Ends`. A run that tries one call after another ends, with whether one of them
  succeeds, unless a call that never ends is met before: `tryEach_decides`.
-/
import Mathlib.Tactic

namespace Venix.Lib

variable {ε α β : Type} {e : ε}

/-- `x` has run out of fuel, or is `y`. -/
def Below (e : ε) (x y : Except ε α) : Prop := x = .error e ∨ x = y

theorem Below.refl (x : Except ε α) : Below e x x := Or.inr rfl

theorem Below.trans {x y z : Except ε α} (h : Below e x y) (h' : Below e y z) : Below e x z := by
  rcases h with h | rfl
  · exact Or.inl h
  · exact h'

theorem Below.bind {x y : Except ε α} {f g : α → Except ε β} (h : Below e x y)
    (hfg : ∀ a, Below e (f a) (g a)) : Below e (x >>= f) (y >>= g) := by
  rcases h with rfl | rfl
  · exact Or.inl rfl
  · cases x with
    | error e' => exact Or.inr rfl
    | ok a => exact hfg a

theorem Below.le {f : Nat → Except ε α} (h : ∀ n, Below e (f n) (f (n + 1))) {m n : Nat} (hmn : m ≤ n) :
    Below e (f m) (f n) := by
  induction n, hmn using Nat.le_induction with
  | base => exact .refl _
  | succ n _ ih => exact ih.trans (h n)

/-- A computation that gives `a` for some fuel gives it, or runs out, for any. -/
theorem Below.ok {f : Nat → Except ε α} (h : ∀ n, Below e (f n) (f (n + 1))) {m : Nat} {a : α}
    (hm : f m = .ok a) (n : Nat) : f n = .error e ∨ f n = .ok a := by
  rcases Nat.le_total n m with hle | hle
  · rcases Below.le h hle with hout | heq
    · exact Or.inl hout
    · exact Or.inr (heq.trans hm)
  · rcases Below.le h hle with hout | heq
    · rw [hm] at hout
      cases hout
    · exact Or.inr (heq.symm.trans hm)

/-- The result with enough fuel. -/
def Ends (f : Nat → Except ε α) (a : α) : Prop := ∃ n, ∀ m, n ≤ m → f m = .ok a

theorem Ends.const {x : Except ε α} {a : α} (h : x = .ok a) : Ends (fun _ => x) a := ⟨0, fun _ _ => h⟩

theorem Ends.bind {f : Nat → Except ε α} {g : Nat → α → Except ε β} {a : α} {b : β} (hf : Ends f a)
    (hg : Ends (fun n => g n a) b) : Ends (fun n => f n >>= g n) b := by
  obtain ⟨m, hm⟩ := hf
  obtain ⟨k, hk⟩ := hg
  refine ⟨max m k, fun n hn => ?_⟩
  dsimp only
  rw [hm n (le_trans (le_max_left m k) hn)]
  exact hk n (le_trans (le_max_right m k) hn)

theorem Ends.congr {f g : Nat → Except ε α} {a : α} (hg : Ends g a) (h : ∀ n, f n = g n) : Ends f a := by
  obtain ⟨n, hn⟩ := hg
  exact ⟨n, fun m hm => (h m).trans (hn m hm)⟩

/-- One turn more. -/
theorem Ends.of_succ {f g : Nat → Except ε α} {a : α} (hg : Ends g a) (h : ∀ n, f (n + 1) = g n) :
    Ends f a := by
  obtain ⟨n, hn⟩ := hg
  refine ⟨n + 1, fun m hm => ?_⟩
  obtain ⟨m, rfl⟩ : ∃ k, m = k + 1 := ⟨m - 1, by omega⟩
  rw [h]
  exact hn m (Nat.le_of_succ_le_succ hm)

theorem Ends.exists_ok {f : Nat → Except ε α} {a : α} (h : Ends f a) : ∃ n, f n = .ok a := by
  obtain ⟨n, hn⟩ := h
  exact ⟨n, hn n (le_refl n)⟩

/-! ## Tries -/

variable {σ : Type}

/-- The calls in their order, until one is true. -/
def tryEach (adv : α → σ → Except ε (Bool × σ)) : List α → σ → Except ε (Bool × σ)
  | [], s => .ok (false, s)
  | a :: as, s => do
    let (r, s) ← adv a s
    if r then return (true, s) else tryEach adv as s

/-- A call of which `S` holds is met before one of which `M` does. -/
def meets (M S : α → Bool) : List α → Bool
  | [] => false
  | a :: as => S a || (!M a && meets M S as)

theorem meets_map {β : Type} (M S : β → Bool) (f : α → β) (as : List α) :
    meets M S (as.map f) = meets (M ∘ f) (S ∘ f) as := by
  induction as with
  | nil => rfl
  | cons a as ih =>
    rw [List.map_cons, meets, ih]
    rfl

/-- A computation that ends with `M`, in a state of which `I` holds, unless it never ends. -/
structure Decides (e : ε) (f : Nat → Except ε (Bool × σ)) (M S : Bool) (I : σ → Prop) : Prop where
  ends : S = false → ∃ s, Ends f (M, s) ∧ I s
  endless : S = true → ∀ n, f n = .error e

variable {f g : Nat → Except ε (Bool × σ)} {M S : Bool} {I J : σ → Prop} {s : σ}

theorem Decides.const (h : ∀ n, f n = .ok (M, s)) (hs : I s) : Decides e f M false I :=
  ⟨fun _ => ⟨s, ⟨0, fun n _ => h n⟩, hs⟩, fun h => absurd h Bool.false_ne_true⟩

theorem Decides.imp (h : Decides e f M S I) (hIJ : ∀ s, I s → J s) : Decides e f M S J := by
  refine ⟨fun hS => ?_, h.endless⟩
  obtain ⟨s, hends, hs⟩ := h.ends hS
  exact ⟨s, hends, hIJ s hs⟩

/-- From some fuel on `f` is `g`; with less it has run out. -/
theorem Decides.of_large (h : Decides e g M S I) (m : Nat) (hless : ∀ n, n < m → f n = .error e)
    (hlarge : ∀ n, m ≤ n → f n = g n) : Decides e f M S I := by
  refine ⟨fun hS => ?_, fun hS n => ?_⟩
  · obtain ⟨s, ⟨k, hk⟩, hs⟩ := h.ends hS
    refine ⟨s, ⟨max m k, fun n hn => ?_⟩, hs⟩
    rw [hlarge n (le_trans (le_max_left m k) hn)]
    exact hk n (le_trans (le_max_right m k) hn)
  · rcases Nat.lt_or_ge n m with hlt | hge
    · exact hless n hlt
    · exact (hlarge n hge).trans (h.endless hS n)

theorem Decides.of_succ (h : Decides e g M S I) (hzero : f 0 = .error e) (hsucc : ∀ n, f (n + 1) = g n) :
    Decides e f M S I := by
  refine ⟨fun hS => ?_, fun hS n => ?_⟩
  · obtain ⟨s, hends, hs⟩ := h.ends hS
    exact ⟨s, hends.of_succ hsucc, hs⟩
  · cases n with
    | zero => exact hzero
    | succ n => exact (hsucc n).trans (h.endless hS n)

/-- What any fuel gives. -/
theorem Decides.ok_or (h : Decides e f M S I) (hbelow : ∀ n, Below e (f n) (f (n + 1))) (n : Nat) :
    f n = .error e ∨ S = false ∧ ∃ s, f n = .ok (M, s) ∧ I s := by
  cases hS : S with
  | true => exact Or.inl (h.endless hS n)
  | false =>
    obtain ⟨s, hends, hs⟩ := h.ends hS
    obtain ⟨m, hm⟩ := hends.exists_ok
    exact (Below.ok hbelow hm n).imp_right fun hn => ⟨rfl, s, hn, hs⟩

theorem tryEach_decides {adv : Nat → α → σ → Except ε (Bool × σ)} {M S : α → Bool} {as : List α}
    (hbelow : ∀ n a s, Below e (adv n a s) (adv (n + 1) a s))
    (h : ∀ a ∈ as, ∀ s, I s → Decides e (fun n => adv n a s) (M a) (S a) I) (hs : I s) :
    Decides e (fun n => tryEach (adv n) as s) (as.any M) (meets M S as) I := by
  induction as generalizing s with
  | nil => exact .const (fun _ => rfl) hs
  | cons a as ih =>
    have ha := h a List.mem_cons_self s hs
    have hrest := fun {s} => ih (fun b hb => h b (List.mem_cons_of_mem a hb)) (s := s)
    refine ⟨fun hfirst => ?_, fun hfirst n => ?_⟩
    · obtain ⟨hS, hnext⟩ := Bool.or_eq_false_iff.mp hfirst
      obtain ⟨s', hends, hs'⟩ := ha.ends hS
      cases hM : M a with
      | true =>
        rw [hM] at hends
        refine ⟨s', hends.bind (Ends.const ?_), hs'⟩
        rw [List.any_cons, hM, Bool.true_or]
      | false =>
        rw [hM] at hends hnext
        obtain ⟨s'', hends', hs''⟩ := (hrest hs').ends hnext
        refine ⟨s'', hends.bind ?_, hs''⟩
        rw [List.any_cons, hM, Bool.false_or]
        exact hends'
    · rcases ha.ok_or (fun n => hbelow n a s) n with hout | ⟨hS, s', hok, hs'⟩
      · exact congrArg (· >>= _) hout
      · -- the call has ended, so a later one never does
        have hnext : meets M S (a :: as) = (!M a && meets M S as) := by
          rw [meets, hS, Bool.false_or]
        rw [hnext, Bool.and_eq_true, Bool.not_eq_true'] at hfirst
        have hlater := (hrest hs').endless hfirst.2 n
        rw [hfirst.1] at hok
        exact (congrArg (· >>= _) hok).trans hlater

end Venix.Lib
