/-
  The square root (`libmp`, `msqrt.c`).

  The variables of the call are objects beside those of the program. The loop is Newton's method
  from above: it starts with a number that is not below the root (`msqrtStart_spec`), and goes down
  until the next number is not smaller (`msqrtLoop_spec`). `msqrt_root` is the result.
-/
import Venix.Libmp.Util

namespace Venix.Libmp

open Venix.Lib

/-- The variables of `msqrt`. -/
inductive SqrtVar
  | x | junk | y
  deriving DecidableEq

/-- `x.val[j++]=0` for `n` limbs. -/
def zeroLimbs (x : Nat) : Nat → Nat → Heap → Option Heap
  | 0, _, h => some h
  | n + 1, j, h => do
    let h ← h.write x j 0
    zeroLimbs x n (j + 1) h

/-- The number that the loop starts with. -/
def msqrtStart (a : Mint) (h : Heap) : Option (Mint × Heap) := do
  let len := if a.len % 2 = 1 then (1 + a.len) / 2 else 1 + a.len / 2
  let (val, h) := h.xalloc len
  let h ← zeroLimbs val (turns len) 0 h
  let h ← h.write val (turns len - 1) (if a.len % 2 = 1 then 0o400 else 1)
  return (⟨len, val⟩, h)

section Objects

variable {Q : Type} [DecidableEq Q]

/-- `y` is the next number. -/
def msqrtNext (fuel : Nat) (busy : Int16) (a : Q) (st : Q ⊕ SqrtVar → Mint) (h : Heap) :
    Option ((Q ⊕ SqrtVar → Mint) × Heap) := do
  let (st, h) ← mdivAt fuel busy st (.inl a) (.inr .x) (.inr .y) (.inr .junk) h
  let (st, h) ← xfreeAt st (.inr .junk) h
  let (st, h) ← maddAt fuel st (.inr .x) (.inr .y) (.inr .y) h
  let (st, _, h) ← sdivAt busy st (.inr .y) 2 (.inr .y) h
  return (st, h)

def msqrtLoop (fuel : Nat) (busy : Int16) (a : Q) : Nat → (Q ⊕ SqrtVar → Mint) → Heap →
    Option ((Q ⊕ SqrtVar → Mint) × Heap)
  | 0, _, _ => none
  | n + 1, st, h => do
    let (st, h) ← msqrtNext fuel busy a st h
    let (c, h) ← mcmp fuel (st (.inr .x)) (st (.inr .y)) h
    if 0 < c then
      let (st, h) ← xfreeAt st (.inr .x) h
      let (st, h) ← moveAt st (.inr .y) (.inr .x) h
      let (st, h) ← xfreeAt st (.inr .y) h
      msqrtLoop fuel busy a n st h
    else return (st, h)

/-- The result of the call, and what is left in the objects. -/
def msqrt (fuel : Nat) (busy : Int16) (st : Q → Mint) (a b r : Q) (h : Heap) :
    Option (Int16 × (Q → Mint) × Heap) := do
  if (st a).len < 0 then none
  else if (st a).len = 0 then
    let st := Function.update st b ⟨0, (st b).val⟩
    let st := Function.update st r ⟨0, (st r).val⟩
    return (0, st, h)
  else
    let (x, h) ← msqrtStart (st a) h
    let vars := Function.update (Sum.elim st fun _ : SqrtVar => z₀) (.inr .x) x
    let (vars, h) ← xfreeAt vars (.inl b) h
    let (vars, h) ← xfreeAt vars (.inl r) h
    let (vars, h) ← msqrtLoop fuel busy a fuel vars h
    let (vars, h) ← xfreeAt vars (.inr .y) h
    let (vars, h) ← moveAt vars (.inr .x) (.inl b) h
    let (vars, h) ← multAt vars (.inr .x) (.inr .x) (.inr .x) h
    let (vars, h) ← msubAt fuel vars (.inl a) (.inr .x) (.inl r) h
    let (vars, h) ← xfreeAt vars (.inr .x) h
    return ((vars (.inl r)).len, fun q => vars (.inl q), h)

end Objects

/-! ## Newton's method -/

/-- The next number is not below the root. -/
theorem newton_ge {a x s : Int} (hs : s * s ≤ a) (hx : 0 < x) : s ≤ (x + a / x) / 2 := by
  have hsq : (2 * s - x) * x ≤ a := by
    have := mul_self_nonneg (s - x)
    linarith
  have hdiv : 2 * s - x ≤ a / x := (Int.le_ediv_iff_mul_le hx).mpr hsq
  omega

/-- A number from which the next one is not smaller is the root. -/
theorem newton_fixed {a x s : Int} (ha : a < (s + 1) * (s + 1)) (hs0 : 0 ≤ s) (hsx : s ≤ x)
    (hx : 0 < x) (hstop : x ≤ (x + a / x) / 2) : x = s := by
  have hsq : x * x ≤ a := (Int.le_ediv_iff_mul_le hx).mp (by omega)
  have hlt : x < s + 1 := lt_of_mul_self_lt_mul_self₀ (by omega) (lt_of_le_of_lt hsq ha)
  omega

theorem newton_quotient_le {a x s : Int} (ha : a < (s + 1) * (s + 1)) (hs0 : 0 ≤ s) (hsx : s ≤ x)
    (hx : 0 < x) : a / x ≤ x + 2 := by
  have hle : (s + 1) * (s + 1) ≤ (x + 1) * (x + 1) :=
    mul_le_mul (by omega) (by omega) (by omega) (by omega)
  refine (Int.ediv_le_iff_le_mul hx).mpr ?_
  have h1 : (x + 1) * (x + 1) = (x + 2) * x + 1 := by ring
  omega

/-! ## The loop -/

section Objects

variable {Q : Type} [DecidableEq Q]

/-- The values of the objects and of the variables. -/
def SqrtVar.vals (v : Q → Int) (x junk y : Int) : Q ⊕ SqrtVar → Int
  | .inl q => v q
  | .inr .x => x
  | .inr .junk => junk
  | .inr .y => y

variable {v : Q → Int} {x junk y w : Int}

theorem SqrtVar.set_object (b : Q) : Function.update (SqrtVar.vals v x junk y) (Sum.inl b) w =
    SqrtVar.vals (Function.update v b w) x junk y := by
  funext q
  rcases q with q | _ | _ | _
  · by_cases e : q = b
    · subst e
      rw [Function.update_self]
      change w = Function.update v q w q
      rw [Function.update_self]
    · have hne : (Sum.inl q : Q ⊕ SqrtVar) ≠ Sum.inl b := fun e' => e (Sum.inl.inj e')
      rw [Function.update_of_ne hne]
      change v q = Function.update v b w q
      rw [Function.update_of_ne e]
  all_goals rfl

omit [DecidableEq Q] in
theorem SqrtVar.get_object (q : Q) : SqrtVar.vals v x junk y (.inl q) = v q := rfl

omit [DecidableEq Q] in
theorem SqrtVar.get_x : SqrtVar.vals v x junk y (.inr .x) = x := rfl

theorem SqrtVar.set_x : Function.update (SqrtVar.vals v x junk y) (.inr .x) w = SqrtVar.vals v w junk y := by
  funext q
  rcases q with q | _ | _ | _ <;> rfl

theorem SqrtVar.set_junk : Function.update (SqrtVar.vals v x junk y) (.inr .junk) w = SqrtVar.vals v x w y := by
  funext q
  rcases q with q | _ | _ | _ <;> rfl

theorem SqrtVar.set_y : Function.update (SqrtVar.vals v x junk y) (.inr .y) w = SqrtVar.vals v x junk w := by
  funext q
  rcases q with q | _ | _ | _ <;> rfl

variable {st : Q ⊕ SqrtVar → Mint} {h : Heap} {a : Q} {busy : Int16}

omit [DecidableEq Q] in
theorem SqrtVar.vals_zero : Sum.elim v (fun _ : SqrtVar => 0) = SqrtVar.vals v 0 0 0 := by
  funext q
  rcases q with q | _ | _ | _ <;> rfl

/-- One turn: `y` is the next number of Newton's method. -/
theorem msqrtNext_spec (f : Nat) (hbusy : busy ≠ 0) {s : Int} (ha : v a < (s + 1) * (s + 1))
    (hs0 : 0 < s) (hsx : s ≤ x) (ha0 : 0 ≤ v a) (hrooma : Roomy (v a)) (hroom : Roomy (2 * x + 2))
    (hst : Store h st (SqrtVar.vals v x 0 y)) :
    ∃ st' h', msqrtNext (f + 5) busy a st h = some (st', h') ∧
      Store h' st' (SqrtVar.vals v x 0 ((x + v a / x) / 2)) := by
  have hx0 : 0 < x := by omega
  have hq0 : 0 ≤ v a / x := Int.ediv_nonneg ha0 hx0.le
  have hq1 := newton_quotient_le ha hs0.le hsx hx0
  have hxle : x ≤ 2 * x + 2 := by omega
  have hqle : v a / x ≤ 2 * x + 2 := by omega
  have hsum : x + v a / x ≤ 2 * x + 2 := by omega
  have hfuel : 3 ≤ f + 5 := by omega
  obtain ⟨st₁, h₁, e₁, s₁⟩ := mdivAt_puts hfuel hbusy hst
    (hst.fits hrooma (.inl a) ha0 (le_refl _)) (hst.fits hroom (.inr .x) hx0.le hxle) hx0.ne'
    Sum.inr_ne_inl (vars_ne (x := .y) (by decide)) Sum.inr_ne_inl (vars_ne (x := .junk) (by decide))
    (vars_ne (by decide))
  have hdiv : (SqrtVar.vals v x 0 y (.inl a)).tdiv (SqrtVar.vals v x 0 y (.inr .x)) = v a / x :=
    Int.tdiv_eq_ediv_of_nonneg ha0
  rw [hdiv, SqrtVar.set_y, SqrtVar.set_junk] at s₁
  obtain ⟨st₂, h₂, e₂, s₂⟩ := xfreeAt_puts s₁ (.inr .junk)
  rw [SqrtVar.set_junk] at s₂
  obtain ⟨st₃, h₃, e₃, s₃⟩ := maddAt_puts s₂ (s₂.fits hroom (.inr .x) hx0.le hxle)
    (s₂.fits hroom (.inr .y) hq0 hqle) (.inr .y) f
  rw [SqrtVar.set_y] at s₃
  obtain ⟨st₄, k, h₄, e₄, s₄, -⟩ := sdivAt_puts (n := 2) hbusy (by decide) (by decide) s₃
    (s₃.fits hroom (.inr .y) (add_nonneg hx0.le hq0) hsum) (.inr .y)
  rw [SqrtVar.set_y] at s₄
  have hhalf : (x + v a / x).tdiv 2 = (x + v a / x) / 2 := Int.tdiv_eq_ediv_of_nonneg (by omega)
  refine ⟨st₄, h₄, ?_, hhalf ▸ s₄⟩
  unfold msqrtNext
  exact Option.bind_eq_some_iff.mpr ⟨_, e₁, Option.bind_eq_some_iff.mpr ⟨_, e₂,
    Option.bind_eq_some_iff.mpr ⟨_, e₃, Option.bind_eq_some_iff.mpr ⟨_, e₄, rfl⟩⟩⟩⟩

/-- The loop ends at the root. -/
theorem msqrtLoop_spec (f : Nat) (hbusy : busy ≠ 0) {s top : Int} (hs : s * s ≤ v a)
    (ha : v a < (s + 1) * (s + 1)) (hs0 : 0 < s) (hrooma : Roomy (v a)) (hroom : Roomy (2 * top + 2))
    (n : Nat) (hn : x.toNat < n) (hsx : s ≤ x) (hxtop : x ≤ top)
    (hst : Store h st (SqrtVar.vals v x 0 y)) :
    ∃ st' h' z, msqrtLoop (f + 5) busy a n st h = some (st', h') ∧
      Store h' st' (SqrtVar.vals v s 0 z) := by
  have ha0 : 0 ≤ v a := (mul_self_nonneg s).trans hs
  induction n generalizing x y st h with
  | zero => omega
  | succ n ih =>
    have hx0 : 0 < x := by omega
    obtain ⟨st₁, h₁, e₁, s₁⟩ := msqrtNext_spec f hbusy ha hs0 hsx ha0 hrooma
      (hroom.mono (by omega)) hst
    have hge := newton_ge hs hx0
    have hle := newton_quotient_le ha hs0.le hsx hx0
    have hxle : x ≤ 2 * top + 2 := by omega
    have hyle : (x + v a / x) / 2 ≤ 2 * top + 2 := by omega
    have hy0 : 0 ≤ (x + v a / x) / 2 := by omega
    have hfity := s₁.fits hroom (.inr .y) hy0 hyle
    obtain ⟨c, h₂, e₂, hg₂, hc⟩ := mcmp_spec (s₁.num (.inr .x)) (s₁.num (.inr .y))
      (s₁.fits hroom (.inr .x) hx0.le hxle) hfity hx0.le hy0 f
    have s₂ := s₁.grows hg₂
    by_cases hless : 0 < c
    · have hlt : (x + v a / x) / 2 < x := hc.mp hless
      obtain ⟨st₃, h₃, e₃, s₃⟩ := xfreeAt_puts s₂ (.inr .x)
      rw [SqrtVar.set_x] at s₃
      obtain ⟨st₄, h₄, e₄, s₄⟩ := moveAt_puts s₃ (s₃.fits hroom (.inr .y) hy0 hyle)
        (vars_ne (x := SqrtVar.y) (y := SqrtVar.x) (by decide))
      rw [SqrtVar.set_x] at s₄
      obtain ⟨st₅, h₅, e₅, s₅⟩ := xfreeAt_puts s₄ (.inr .y)
      rw [SqrtVar.set_y] at s₅
      obtain ⟨st₆, h₆, z, e₆, s₆⟩ := ih (by omega) hge (by omega) s₅
      refine ⟨st₆, h₆, z, ?_, s₆⟩
      rw [msqrtLoop]
      refine Option.bind_eq_some_iff.mpr ⟨_, e₁, Option.bind_eq_some_iff.mpr ⟨_, e₂, ?_⟩⟩
      refine (if_pos hless).trans ?_
      exact Option.bind_eq_some_iff.mpr ⟨_, e₃, Option.bind_eq_some_iff.mpr ⟨_, e₄,
        Option.bind_eq_some_iff.mpr ⟨_, e₅, e₆⟩⟩⟩
    · have hfix : x ≤ (x + v a / x) / 2 := not_lt.mp fun hlt => hless (hc.mpr hlt)
      have hroot := newton_fixed ha hs0.le hsx hx0 hfix
      refine ⟨st₁, h₂, (x + v a / x) / 2, ?_, ?_⟩
      · rw [msqrtLoop]
        refine Option.bind_eq_some_iff.mpr ⟨_, e₁, Option.bind_eq_some_iff.mpr ⟨_, e₂, ?_⟩⟩
        exact if_neg hless
      · have := s₂
        rwa [show SqrtVar.vals v x 0 = SqrtVar.vals v s 0 by rw [hroot]] at this

end Objects

/-! ## The start -/

theorem zeroLimbs_spec (n : Nat) {p : Nat} (pre : List Int16) {rest : List (Option Int16)} {h : Heap}
    (hp : h.blocks p = some (pre.map some ++ (List.replicate n none ++ rest))) :
    ∃ h', zeroLimbs p n pre.length h = some h' ∧
      Sets h h' p ((pre ++ List.replicate n 0).map some ++ rest) := by
  induction n generalizing pre h with
  | zero =>
    refine ⟨h, rfl, rfl, ?_⟩
    rw [List.replicate_zero, List.nil_append] at hp
    rw [List.replicate_zero, List.append_nil, ← hp, Function.update_eq_self]
  | succ n ih =>
    have hcell : h.blocks p = some (pre.map some ++ none :: (List.replicate n none ++ rest)) := hp
    obtain ⟨h₁, hw, hset⟩ := write_spec hcell 0
    rw [List.length_map] at hw
    obtain ⟨h', hrun, hset'⟩ := ih (pre ++ [0]) (h := h₁) (by rw [hset.self]; simp)
    rw [List.length_append, List.length_singleton] at hrun
    refine ⟨h', ?_, ?_⟩
    · rw [zeroLimbs, hw]
      exact hrun
    · have := hset.trans hset'
      rwa [List.append_assoc, List.singleton_append, ← List.replicate_succ] at this

theorem value_zeros (n : Nat) : value (List.replicate n 0) = 0 := by
  induction n with
  | zero => rfl
  | succ n ih =>
    rw [List.replicate_succ', value_append, ih]
    simp [value, ints, valL]

/-- A number of `k` limbs that are 0 and one that is not. -/
theorem topLimb_value {h : Heap} {m : Mint} {k : Nat} {t : Int16} (hlen : m.len.toInt = k + 1)
    (ht : 0 < t.toInt) (hh : Holds h m.val (List.replicate k 0 ++ [t])) :
    IsNum h m (32768 ^ k * t.toInt) := by
  have htlt := t.toInt_lt
  have hl : Limbs (List.replicate k 0 ++ [t]) := by
    intro y hy
    simp only [ints, List.map_append, List.map_replicate, List.mem_append, List.mem_replicate,
      List.map_cons, List.map_nil, List.mem_singleton] at hy
    rcases hy with ⟨-, rfl⟩ | rfl
    · decide
    · omega
  have hrep : Rep h m (List.replicate k 0 ++ [t]) :=
    ⟨by rw [hlen, List.length_append, List.length_replicate]; rfl, fun _ => hh, hl⟩
  have hc : Canon (List.replicate k 0 ++ [t]) := by
    intro y hy
    rw [List.getLast?_concat] at hy
    cases hy
    exact ht
  have := hrep.isNum hc
  rwa [value_concat, value_zeros, zero_add, List.length_replicate] at this

/-- A new block with one limb that is not 0. -/
theorem zeros_spec {h : Heap} {len : Int16} {k : Nat} (hlen : len.toInt = ((k + 1 : Nat) : Int))
    (hbig : k + 1 ≤ 32765) {t : Int16} (ht : 0 < t.toInt) :
    ∃ h₁ h', zeroLimbs h.next (turns len) 0 (h.xalloc len).2 = some h₁ ∧
      h₁.write h.next (turns len - 1) t = some h' ∧ Grows h h' ∧
      IsNum h' ⟨len, h.next⟩ (32768 ^ k * t.toInt) := by
  obtain ⟨h₀, hal, hg, -, hcells⟩ := xalloc_spec hlen (h := h) hbig
  rw [List.replicate_add] at hcells
  obtain ⟨h₁, hz, hset⟩ := zeroLimbs_spec (k + 1) [] (p := h.next) (h := h₀) hcells
  have hcells₁ := hset.self
  rw [List.nil_append, List.replicate_succ', List.map_append, List.append_assoc] at hcells₁
  obtain ⟨h', hw, hset'⟩ := write_spec hcells₁ t
  rw [List.length_map, List.length_replicate] at hw
  refine ⟨h₁, h', ?_, ?_, hset'.grows (hset.grows hg (le_refl _)) (le_refl _), ?_⟩
  · rw [hal, turns_eq hlen]
    exact hz
  · rw [turns_eq hlen]
    exact hw
  · refine topLimb_value hlen ht ⟨List.replicate 2 none, ?_⟩
    rw [hset'.self]
    simp

/-- The number of limbs of the start, for a number of `n` limbs. -/
theorem startLen {len : Int16} {n : Nat} (hlen : len.toInt = n) (hn : n ≤ 32764) :
    (len % 2 = 1 ↔ n % 2 = 1) ∧
      (if len % 2 = 1 then (1 + len) / 2 else 1 + len / 2).toInt = ((n / 2 + 1 : Nat) : Int) := by
  have h1 : (1 : Int16).toInt = 1 := rfl
  have h2 : (2 : Int16).toInt = 2 := rfl
  have hmod : len % 2 = 1 ↔ n % 2 = 1 := by
    rw [← Int16.toInt_inj, Int16.toInt_mod, hlen, h2, h1, Int.tmod_eq_emod_of_nonneg (by omega)]
    omega
  refine ⟨hmod, ?_⟩
  by_cases hodd : len % 2 = 1
  · have hn1 := hmod.mp hodd
    have hsum : (1 + len).toInt = n + 1 := by
      rw [add_toInt (by omega) (by omega), h1, hlen]
      omega
    rw [if_pos hodd, Int16.toInt_div, hsum, h2, Int.tdiv_eq_ediv_of_nonneg (by omega),
      Int.bmod_eq_of_le (by omega) (by omega)]
    omega
  · have hdiv : (len / 2).toInt = ((n / 2 : Nat) : Int) := by
      rw [Int16.toInt_div, hlen, h2, Int.tdiv_eq_ediv_of_nonneg (by omega),
        Int.bmod_eq_of_le (by omega) (by omega)]
      omega
    rw [if_neg hodd, add_toInt (by omega) (by omega), hdiv, h1]
    omega

/-- The start is not below the root, and has room. -/
theorem msqrtStart_spec {h : Heap} {a : Mint} {va : Int} (ha : IsNum h a va) (hva : 0 < va)
    (hfa : Fits a) :
    ∃ m h' x, msqrtStart a h = some (m, h') ∧ Grows h h' ∧ IsNum h' m x ∧ h.next ≤ m.val ∧
      (∀ s, 0 ≤ s → s * s ≤ va → s ≤ x) ∧ Roomy (2 * x + 2) := by
  obtain ⟨l, hl, hc, rfl⟩ := ha.rep hva.le
  have hlen := hl.length_le hfa
  obtain ⟨hodd, hstart⟩ := startLen hl.len hlen
  have hlt := hl.limbs.lt
  have hpow : (0 : Int) < 32768 ^ (l.length / 2) := by positivity
  by_cases h1 : a.len % 2 = 1
  · obtain ⟨h₁, h', hz, hw, hg, hnum⟩ := zeros_spec (h := h) (t := 0o400) hstart (by omega) (by decide)
    have ht : (0o400 : Int16).toInt = 256 := rfl
    rw [ht] at hnum
    refine ⟨_, h', _, ?_, hg, hnum, le_refl _, fun s hs hsq => ?_, ?_⟩
    · unfold msqrtStart
      simp only [if_pos h1]
      rw [if_pos h1] at hz hw
      exact Option.bind_eq_some_iff.mpr ⟨_, hz, Option.bind_eq_some_iff.mpr ⟨_, hw, rfl⟩⟩
    · have hn : l.length = l.length / 2 + l.length / 2 + 1 := by
        have := hodd.mp h1
        omega
      rw [hn, pow_succ, pow_add] at hlt
      refine (lt_of_mul_self_lt_mul_self₀ (by positivity) (lt_of_le_of_lt hsq (hlt.trans ?_))).le
      have := mul_pos hpow hpow
      linarith
    · refine roomy_of_lt (k := l.length / 2 + 1) (by omega) ?_
      rw [pow_succ]
      linarith
  · obtain ⟨h₁, h', hz, hw, hg, hnum⟩ := zeros_spec (h := h) (t := 1) hstart (by omega) (by decide)
    have ht : (1 : Int16).toInt = 1 := rfl
    rw [ht, mul_one] at hnum
    refine ⟨_, h', _, ?_, hg, hnum, le_refl _, fun s hs hsq => ?_, ?_⟩
    · unfold msqrtStart
      simp only [if_neg h1]
      rw [if_neg h1] at hz hw
      exact Option.bind_eq_some_iff.mpr ⟨_, hz, Option.bind_eq_some_iff.mpr ⟨_, hw, rfl⟩⟩
    · have hn : l.length = l.length / 2 + l.length / 2 := by
        have heven : ¬l.length % 2 = 1 := fun h => h1 (hodd.mpr h)
        omega
      rw [hn, pow_add] at hlt
      exact (lt_of_mul_self_lt_mul_self₀ hpow.le (lt_of_le_of_lt hsq hlt)).le
    · refine roomy_of_lt (k := l.length / 2 + 1) (by omega) ?_
      rw [pow_succ]
      linarith

/-! ## The root -/

theorem sqrt_bounds {a : Int} (ha : 0 ≤ a) :
    0 ≤ a.sqrt ∧ a.sqrt * a.sqrt ≤ a ∧ a < (a.sqrt + 1) * (a.sqrt + 1) := by
  obtain ⟨n, rfl⟩ := Int.eq_ofNat_of_zero_le ha
  unfold Int.sqrt
  rw [Int.toNat_natCast]
  exact ⟨Int.natCast_nonneg _, by exact_mod_cast Nat.sqrt_le n, by exact_mod_cast Nat.lt_succ_sqrt n⟩

theorem isSquare_iff_sqrt {a : Int} (ha : 0 ≤ a) : IsSquare a ↔ a - a.sqrt * a.sqrt = 0 := by
  rw [sub_eq_zero]
  constructor
  · rintro ⟨r, rfl⟩
    rw [Int.sqrt_eq, ← Int.natCast_mul, Int.natAbs_mul_self]
  · exact fun h => ⟨_, h⟩

section Objects

variable {Q : Type} [DecidableEq Q]

/-- The objects after the call. -/
theorem root_vals {v : Q → Int} {b r : Q} (hbr : b ≠ r) (s z : Int) :
    Function.update (Function.update (Function.update (Function.update v b 0) r 0) b s) r z =
      Function.update (Function.update v b s) r z := by
  rw [Function.update_comm hbr.symm, Function.update_idem, Function.update_idem]

theorem msqrt_zero (fuel : Nat) (busy : Int16) {h : Heap} {st : Q → Mint} {v : Q → Int}
    (hs : Store h st v) {a : Q} (b r : Q) (hzero : (st a).len = 0) :
    ∃ st', msqrt fuel busy st a b r h = some (0, st', h) ∧
      Store h st' (Function.update (Function.update v b 0) r 0) := by
  have hframe : ∀ c, Frame h h c := fun c => ⟨le_refl _, fun _ _ _ => rfl⟩
  have h1 := hs.replaced (c := b) (isNum_empty h (st b).val) (hframe _) fun hne => absurd rfl hne
  have h2 := h1.replaced (c := r) (isNum_empty h (Function.update st b ⟨0, (st b).val⟩ r).val)
    (hframe _) fun hne => absurd rfl hne
  refine ⟨_, ?_, h2⟩
  unfold msqrt
  rw [hzero, if_neg (by decide), if_pos rfl]
  rfl

theorem msqrt_pos {busy : Int16} (hbusy : busy ≠ 0) {h : Heap} {st : Q → Mint} {v : Q → Int}
    (hs : Store h st v) {a b r : Q} (hfa : Fits (st a)) (hva : 0 < v a) (hba : b ≠ a) (hra : r ≠ a)
    (hbr : b ≠ r) :
    ∃ n, ∀ fuel ≥ n, ∃ st' h', msqrt fuel busy st a b r h = some ((st' r).len, st', h') ∧
      Store h' st' (Function.update (Function.update v b (v a).sqrt) r
        (v a - (v a).sqrt * (v a).sqrt)) := by
  obtain ⟨hs0, hsq, hlt⟩ := sqrt_bounds hva.le
  have hspos : 0 < (v a).sqrt := by
    by_contra hcon
    have hroot : (v a).sqrt = 0 := by omega
    rw [hroot] at hlt
    omega
  obtain ⟨m, h₁, x, e₁, hg₁, hm, hnew, htop, hroom⟩ := msqrtStart_spec (hs.num a) hva hfa
  have s₁ := hs.start hg₁ SqrtVar.x hm hnew
  rw [SqrtVar.vals_zero, SqrtVar.set_x] at s₁
  have hroomv : Roomy (v a) := abs_of_pos hva ▸ hfa.roomy (hs.num a)
  refine ⟨x.toNat + 6, fun fuel hfuel => ?_⟩
  obtain ⟨f, rfl⟩ : ∃ f, fuel = f + 5 := ⟨fuel - 5, by omega⟩
  obtain ⟨st₂, h₂, e₂, s₂⟩ := xfreeAt_puts s₁ (.inl b)
  rw [SqrtVar.set_object] at s₂
  obtain ⟨st₃, h₃, e₃, s₃⟩ := xfreeAt_puts s₂ (.inl r)
  rw [SqrtVar.set_object] at s₃
  have ha₃ : Function.update (Function.update v b 0) r 0 a = v a := by
    rw [Function.update_of_ne hra.symm, Function.update_of_ne hba.symm]
  obtain ⟨st₄, h₄, z, e₄, s₄⟩ := msqrtLoop_spec (a := a) f hbusy (ha₃ ▸ hsq) (ha₃ ▸ hlt)
    hspos (ha₃ ▸ hroomv) hroom (f + 5) (by omega) (htop _ hs0 hsq) (le_refl x) s₃
  obtain ⟨st₅, h₅, e₅, s₅⟩ := xfreeAt_puts s₄ (.inr .y)
  rw [SqrtVar.set_y] at s₅
  have hrle : (v a).sqrt ≤ 2 * x + 2 := by
    have := htop _ hs0 hsq
    omega
  obtain ⟨st₆, h₆, e₆, s₆⟩ := moveAt_puts (b := .inl b) s₅ (s₅.fits hroom (.inr .x) hs0 hrle)
    Sum.inr_ne_inl
  rw [SqrtVar.set_object, SqrtVar.get_x] at s₆
  obtain ⟨st₇, h₇, e₇, s₇⟩ := multAt_puts s₆ (.inr .x) (.inr .x) (.inr .x)
    (product_len (hs.num a) hfa (s₆.num (.inr .x)) (s₆.num (.inr .x)) hspos hspos hsq)
  rw [SqrtVar.set_x, SqrtVar.get_x] at s₇
  have ha₇ : Function.update (Function.update (Function.update v b 0) r 0) b (v a).sqrt a = v a := by
    rw [Function.update_of_ne hba.symm, ha₃]
  obtain ⟨st₈, h₈, e₈, s₈⟩ := msubAt_puts s₇
    (s₇.fits hroomv (.inl a) (hva.le.trans_eq ha₇.symm) ha₇.le)
    (s₇.fits hroomv (.inr .x) (mul_self_nonneg _) hsq) (.inl r) f
  rw [SqrtVar.get_object, SqrtVar.get_x, ha₇, if_neg (by omega), SqrtVar.set_object, root_vals hbr] at s₈
  obtain ⟨st₉, h₉, e₉, s₉⟩ := xfreeAt_puts s₈ (.inr .x)
  rw [SqrtVar.set_x] at s₉
  refine ⟨_, h₉, ?_, s₉.program⟩
  have h0 : (0 : Int16).toInt = 0 := rfl
  have hnot : ¬(st a).len < 0 := by
    have := (hs.num a).len_nonneg.mpr hva.le
    rw [Int16.le_iff_toInt_le] at this
    rw [Int16.lt_iff_toInt_lt]
    omega
  have hne : ¬(st a).len = 0 := fun e => hva.ne' ((hs.num a).eq_zero e)
  unfold msqrt
  rw [if_neg hnot, if_neg hne]
  exact Option.bind_eq_some_iff.mpr ⟨_, e₁, Option.bind_eq_some_iff.mpr ⟨_, e₂,
    Option.bind_eq_some_iff.mpr ⟨_, e₃, Option.bind_eq_some_iff.mpr ⟨_, e₄,
    Option.bind_eq_some_iff.mpr ⟨_, e₅, Option.bind_eq_some_iff.mpr ⟨_, e₆,
    Option.bind_eq_some_iff.mpr ⟨_, e₇, Option.bind_eq_some_iff.mpr ⟨_, e₈,
    Option.bind_eq_some_iff.mpr ⟨_, e₉, rfl⟩⟩⟩⟩⟩⟩⟩⟩⟩

/-- `msqrt` comes back with the integer square root in `b` and what is left in `r`, and its result
is zero exactly for a perfect square. -/
theorem msqrt_root {busy : Int16} (hbusy : busy ≠ 0) (h : Heap) (st : Q → Mint) (v : Q → Int)
    (hs : Store h st v) (a b r : Q) (hfa : Fits (st a)) (hva : 0 ≤ v a) (hba : b ≠ a) (hra : r ≠ a)
    (hbr : b ≠ r) :
    ∃ n, ∀ fuel ≥ n, ∃ res st' h', msqrt fuel busy st a b r h = some (res, st', h') ∧
      Store h' st' (Function.update (Function.update v b (v a).sqrt) r
        (v a - (v a).sqrt * (v a).sqrt)) ∧
      (res = 0 ↔ IsSquare (v a)) := by
  by_cases hzero : (st a).len = 0
  · have hv := (hs.num a).eq_zero hzero
    refine ⟨0, fun fuel _ => ?_⟩
    obtain ⟨st', hrun, hs'⟩ := msqrt_zero fuel busy hs b r hzero
    refine ⟨0, st', h, hrun, ?_, ?_⟩
    · rw [hv]
      exact hs'
    · rw [isSquare_iff_sqrt hva, hv]
      exact ⟨fun _ => rfl, fun _ => rfl⟩
  · have hpos : 0 < v a := lt_of_le_of_ne hva fun e => hzero (by
      have := hs.num a
      rw [← e] at this
      exact this.len_zero)
    obtain ⟨n, hn⟩ := msqrt_pos hbusy hs hfa hpos hba hra hbr
    refine ⟨n, fun fuel hfuel => ?_⟩
    obtain ⟨st', h', hrun, hs'⟩ := hn fuel hfuel
    refine ⟨_, st', h', hrun, hs', ?_⟩
    have hr := hs'.num r
    rw [Function.update_self] at hr
    rw [isSquare_iff_sqrt hva]
    constructor
    · exact fun hlen => hr.eq_zero hlen
    · intro hleft
      rw [hleft] at hr
      exact hr.len_zero

end Objects

/-- The root of 5. -/
theorem msqrt_root_five : ∃ n, ∀ fuel ≥ n, ∃ res st' h',
    msqrt fuel 1 (quotients 1) (Sum.inl 0) (Sum.inl 1) (Sum.inl 2) fiveThree = some (res, st', h') ∧
      Store h' st' (Function.update (Function.update (Sum.elim ![5, 3, 0] fun _ => 0) (Sum.inl 1)
        (Int.sqrt 5)) (Sum.inl 2) (5 - Int.sqrt 5 * Int.sqrt 5)) ∧
      (res = 0 ↔ IsSquare (5 : Int)) :=
  msqrt_root (show (1 : Int16) ≠ 0 by decide) fiveThree (quotients 1) _ (quotients_store (Or.inl rfl))
    (Sum.inl 0) (Sum.inl 1) (Sum.inl 2) (signed_fits (Or.inl rfl) (Or.inl rfl)).1 (by decide)
    (by decide) (by decide) (by decide)

end Venix.Libmp
