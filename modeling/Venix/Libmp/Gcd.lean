/-
  The greatest common divisor and the inverse (`libmp`, `gcd.c`).

  The variables of a call are objects beside those of the program. `invert` keeps the magnitudes of
  the cofactors (`Cofactors`) and takes the sign from the number of turns, of which only the lowest
  bit is used. `gcd_invert` is the result.
-/
import Venix.Lib.Bezout
import Venix.Libmp.Util

namespace Venix.Libmp

open Venix.Lib

/-- The variables of `invert`; those of `gcd` are the first four. -/
inductive EuclidVar
  | x | y | z | w | anew | aold
  deriving DecidableEq

section Objects

variable {Q : Type} [DecidableEq Q]

def gcdLoop (fuel : Nat) (busy : Int16) : Nat → (Q ⊕ EuclidVar → Mint) → Heap →
    Option ((Q ⊕ EuclidVar → Mint) × Heap)
  | 0, _, _ => none
  | n + 1, st, h =>
    if (st (.inr .y)).len = 0 then some (st, h)
    else do
      let (st, h) ← mdivAt fuel busy st (.inr .x) (.inr .y) (.inr .w) (.inr .z) h
      let (st, h) ← moveAt st (.inr .y) (.inr .x) h
      let (st, h) ← moveAt st (.inr .z) (.inr .y) h
      gcdLoop fuel busy n st h

def gcd (fuel : Nat) (busy : Int16) (st : Q → Mint) (a b c : Q) (h : Heap) :
    Option ((Q → Mint) × Heap) := do
  let vars : Q ⊕ EuclidVar → Mint := Sum.elim st fun _ => z₀
  let (vars, h) ← moveAt vars (.inl a) (.inr .x) h
  let (vars, h) ← moveAt vars (.inl b) (.inr .y) h
  let (vars, h) ← gcdLoop fuel busy fuel vars h
  let (vars, h) ← moveAt vars (.inr .x) (.inl c) h
  let (vars, h) ← xfreeAt vars (.inr .x) h
  let (vars, h) ← xfreeAt vars (.inr .y) h
  let (vars, h) ← xfreeAt vars (.inr .z) h
  let (vars, h) ← xfreeAt vars (.inr .w) h
  return (fun q => vars (.inl q), h)

/-- The new cofactor: `x` holds the old `Anew` for a while. -/
def nextCofactor (fuel : Nat) (st : Q ⊕ EuclidVar → Mint) (h : Heap) :
    Option ((Q ⊕ EuclidVar → Mint) × Heap) := do
  let (st, h) ← moveAt st (.inr .anew) (.inr .x) h
  let (st, h) ← multAt st (.inr .w) (.inr .anew) (.inr .anew) h
  let (st, h) ← maddAt fuel st (.inr .anew) (.inr .aold) (.inr .anew) h
  moveAt st (.inr .x) (.inr .aold) h

/-- The loop of `invert`; `i` is the number of turns, in 16 bits. -/
def invertLoop (fuel : Nat) (busy : Int16) : Nat → Int16 → (Q ⊕ EuclidVar → Mint) → Heap →
    Option (Int16 × (Q ⊕ EuclidVar → Mint) × Heap)
  | 0, _, _, _ => none
  | n + 1, i, st, h =>
    if (st (.inr .y)).len = 0 then some (i, st, h)
    else do
      let (st, h) ← mdivAt fuel busy st (.inr .x) (.inr .y) (.inr .w) (.inr .z) h
      let (st, h) ← nextCofactor fuel st h
      let (st, h) ← moveAt st (.inr .y) (.inr .x) h
      let (st, h) ← moveAt st (.inr .z) (.inr .y) h
      invertLoop fuel busy n (i + 1) st h

def invert (fuel : Nat) (busy : Int16) (st : Q → Mint) (a b c : Q) (h : Heap) :
    Option ((Q → Mint) × Heap) := do
  let (val, h) := h.xalloc 1
  let h ← h.write val 0 1
  let vars := Function.update (Sum.elim st fun _ : EuclidVar => z₀) (.inr .anew) ⟨1, val⟩
  let (vars, h) ← moveAt vars (.inl b) (.inr .x) h
  let (vars, h) ← moveAt vars (.inl a) (.inr .y) h
  let (i, vars, h) ← invertLoop fuel busy fuel 0 vars h
  let (vars, h) ← moveAt vars (.inr .aold) (.inl c) h
  let (vars, h) ← (if i &&& 1 = 0 then msubAt fuel vars (.inl b) (.inl c) (.inl c) h
    else some (vars, h))
  let (vars, h) ← xfreeAt vars (.inr .x) h
  let (vars, h) ← xfreeAt vars (.inr .y) h
  let (vars, h) ← xfreeAt vars (.inr .z) h
  let (vars, h) ← xfreeAt vars (.inr .w) h
  let (vars, h) ← xfreeAt vars (.inr .aold) h
  let (vars, h) ← xfreeAt vars (.inr .anew) h
  return (fun q => vars (.inl q), h)

/-! ## The values -/

/-- The values of the variables. -/
structure Euclid where
  x : Int
  y : Int
  z : Int
  w : Int
  anew : Int
  aold : Int

/-- The values of the objects and of the variables. -/
def Euclid.vals (v : Q → Int) (s : Euclid) : Q ⊕ EuclidVar → Int
  | .inl q => v q
  | .inr .x => s.x
  | .inr .y => s.y
  | .inr .z => s.z
  | .inr .w => s.w
  | .inr .anew => s.anew
  | .inr .aold => s.aold

namespace Euclid

variable {v : Q → Int} {s : Euclid} {n : Int}

theorem set_object (b : Q) :
    Function.update (s.vals v) (.inl b) n = s.vals (Function.update v b n) := by
  funext q
  rcases q with q | _ | _ | _ | _ | _ | _
  · by_cases e : q = b
    · subst e
      rw [Function.update_self]
      change n = Function.update v q n q
      rw [Function.update_self]
    · have hne : (Sum.inl q : Q ⊕ EuclidVar) ≠ Sum.inl b := fun e' => e (Sum.inl.inj e')
      rw [Function.update_of_ne hne]
      change v q = Function.update v b n q
      rw [Function.update_of_ne e]
  all_goals rfl

omit [DecidableEq Q] in
theorem vals_zero : Sum.elim v (fun _ : EuclidVar => 0) = vals v ⟨0, 0, 0, 0, 0, 0⟩ := by
  funext q
  rcases q with q | _ | _ | _ | _ | _ | _ <;> rfl

/-- One variable is set. -/
def set (s : Euclid) (n : Int) : EuclidVar → Euclid
  | .x => { s with x := n }
  | .y => { s with y := n }
  | .z => { s with z := n }
  | .w => { s with w := n }
  | .anew => { s with anew := n }
  | .aold => { s with aold := n }

theorem set_var (o : EuclidVar) :
    Function.update (s.vals v) (.inr o) n = (s.set n o).vals v := by
  funext q
  rcases q with q | _ | _ | _ | _ | _ | _ <;> cases o <;> rfl

end Euclid

/-! ## `gcd` -/

variable {v : Q → Int} {s : Euclid} {st : Q ⊕ EuclidVar → Mint} {h : Heap} {fuel : Nat}
  {busy : Int16}

/-- The division of a turn. -/
theorem divide_puts (hfuel : 3 ≤ fuel) (hbusy : busy ≠ 0) {top : Int} (hroom : Roomy top)
    (hx0 : 0 ≤ s.x) (hx : s.x ≤ top) (hy0 : 0 < s.y) (hy : s.y ≤ top)
    (hst : Store h st (s.vals v)) :
    ∃ st' h', mdivAt fuel busy st (.inr .x) (.inr .y) (.inr .w) (.inr .z) h = some (st', h') ∧
      Store h' st' (Euclid.vals v { s with w := s.x / s.y, z := s.x % s.y }) := by
  obtain ⟨st', h', e', s'⟩ := mdivAt_puts hfuel hbusy hst
    (hst.fits hroom (.inr .x) hx0 hx) (hst.fits hroom (.inr .y) hy0.le hy) hy0.ne'
    (vars_ne (x := EuclidVar.w) (y := EuclidVar.x) (by decide))
    (vars_ne (x := EuclidVar.w) (by decide))
    (vars_ne (x := EuclidVar.z) (y := EuclidVar.x) (by decide))
    (vars_ne (x := EuclidVar.z) (by decide)) (vars_ne (by decide))
  have hquot : (s.vals v (.inr .x)).tdiv (s.vals v (.inr .y)) = s.x / s.y :=
    Int.tdiv_eq_ediv_of_nonneg hx0
  have hrem : remainder (s.vals v (.inr .x)) (s.vals v (.inr .y)) = s.x % s.y :=
    (if_neg (not_lt.mpr hy0.le)).trans (Int.tmod_eq_emod_of_nonneg hx0)
  rw [hquot, hrem, Euclid.set_var, Euclid.set_var] at s'
  exact ⟨st', h', e', s'⟩

theorem gcdLoop_spec (hfuel : 3 ≤ fuel) (hbusy : busy ≠ 0) {top : Int} (hroom : Roomy top) (n : Nat)
    (hn : s.y.toNat < n) (hx0 : 0 ≤ s.x) (hx : s.x ≤ top) (hy0 : 0 ≤ s.y) (hy : s.y ≤ top)
    (hst : Store h st (s.vals v)) :
    ∃ st' h' s', gcdLoop fuel busy n st h = some (st', h') ∧ Store h' st' (Euclid.vals v s') ∧
      s'.x = Int.gcd s.x s.y := by
  induction n generalizing s st h with
  | zero => omega
  | succ n ih =>
    rw [gcdLoop]
    by_cases hlen : (st (.inr .y)).len = 0
    · have hzero : s.y = 0 := (hst.num (.inr .y)).eq_zero hlen
      rw [if_pos hlen]
      refine ⟨st, h, s, rfl, hst, ?_⟩
      rw [hzero, Int.gcd_zero_right, Int.natAbs_of_nonneg hx0]
    · have hpos : 0 < s.y := lt_of_le_of_ne hy0 fun e => hlen (by
        have hnum := hst.num (.inr .y)
        rw [show s.vals v (.inr .y) = s.y from rfl, ← e] at hnum
        exact hnum.len_zero)
      have hr0 := Int.emod_nonneg s.x hpos.ne'
      have hr1 := Int.emod_lt_of_pos s.x hpos
      obtain ⟨st₁, h₁, e₁, s₁⟩ := divide_puts hfuel hbusy hroom hx0 hx hpos hy hst
      obtain ⟨st₂, h₂, e₂, s₂⟩ := moveAt_puts s₁ (s₁.fits hroom (.inr .y) hy0 hy)
        (vars_ne (x := EuclidVar.y) (y := EuclidVar.x) (by decide))
      rw [Euclid.set_var] at s₂
      obtain ⟨st₃, h₃, e₃, s₃⟩ := moveAt_puts s₂
        (s₂.fits hroom (.inr .z) hr0 (hr1.le.trans hy))
        (vars_ne (x := EuclidVar.z) (y := EuclidVar.y) (by decide))
      rw [Euclid.set_var] at s₃
      have hless : (s.x % s.y).toNat < n := by omega
      obtain ⟨st₄, h₄, s₄, e₄, hst₄, hgcd⟩ := ih hless hy0 hy hr0 (hr1.le.trans hy) s₃
      refine ⟨st₄, h₄, s₄, ?_, hst₄, ?_⟩
      · rw [if_neg hlen]
        exact Option.bind_eq_some_iff.mpr ⟨_, e₁, Option.bind_eq_some_iff.mpr ⟨_, e₂,
          Option.bind_eq_some_iff.mpr ⟨_, e₃, e₄⟩⟩⟩
      · have hstep : Int.gcd s.y (s.x % s.y) = Int.gcd s.x s.y := by
          rw [Int.gcd_comm, Int.gcd_emod]
        exact hgcd.trans (congrArg _ hstep)

/-- `gcd`, whichever of the objects are the same. -/
theorem gcd_puts (hbusy : busy ≠ 0) {st : Q → Mint} (hs : Store h st v) {a b : Q} (c : Q)
    (hfa : Fits (st a)) (hfb : Fits (st b)) (ha : 0 ≤ v a) (hb : 0 ≤ v b) :
    ∃ n, ∀ fuel ≥ n, Puts v c (Int.gcd (v a) (v b)) (gcd fuel busy st a b c h) := by
  have hroom : ∃ top, Roomy top ∧ v a ≤ top ∧ v b ≤ top := by
    rcases le_total (v a) (v b) with hle | hle
    · exact ⟨v b, abs_of_nonneg hb ▸ hfb.roomy (hs.num b), hle, le_refl _⟩
    · exact ⟨v a, abs_of_nonneg ha ▸ hfa.roomy (hs.num a), le_refl _, hle⟩
  obtain ⟨top, hroom, hatop, hbtop⟩ := hroom
  have s₀ := hs.locals (L := EuclidVar)
  rw [Euclid.vals_zero] at s₀
  refine ⟨(v b).toNat + 3, fun fuel hfuel => ?_⟩
  obtain ⟨st₁, h₁, e₁, s₁⟩ := moveAt_puts s₀ (s₀.fits hroom (.inl a) ha hatop)
    (Sum.inl_ne_inr (b := EuclidVar.x))
  rw [Euclid.set_var] at s₁
  obtain ⟨st₂, h₂, e₂, s₂⟩ := moveAt_puts s₁ (s₁.fits hroom (.inl b) hb hbtop)
    (Sum.inl_ne_inr (b := EuclidVar.y))
  rw [Euclid.set_var] at s₂
  have hn : (v b).toNat < fuel := by omega
  have hthree : 3 ≤ fuel := by omega
  obtain ⟨st₃, h₃, s, e₃, s₃, hx⟩ :=
    gcdLoop_spec hthree hbusy hroom fuel hn ha hatop hb hbtop s₂
  have hgcd : s.x = Int.gcd (v a) (v b) := hx
  have hx0 : 0 ≤ s.x := hgcd ▸ Int.natCast_nonneg _
  have hxtop : s.x ≤ top := by
    rw [hgcd]
    by_cases hzero : v a = 0
    · rw [hzero, Int.gcd_zero_left, Int.natAbs_of_nonneg hb]
      exact hbtop
    · exact (Int.le_of_dvd (by omega) (Int.gcd_dvd_left (v a) (v b))).trans hatop
  obtain ⟨st₄, h₄, e₄, s₄⟩ := moveAt_puts s₃ (s₃.fits hroom (.inr .x) hx0 hxtop)
    (Sum.inr_ne_inl (a := c))
  rw [Euclid.set_object] at s₄
  obtain ⟨st₅, h₅, e₅, s₅⟩ := xfreeAt_puts s₄ (.inr .x)
  rw [Euclid.set_var] at s₅
  obtain ⟨st₆, h₆, e₆, s₆⟩ := xfreeAt_puts s₅ (.inr .y)
  rw [Euclid.set_var] at s₆
  obtain ⟨st₇, h₇, e₇, s₇⟩ := xfreeAt_puts s₆ (.inr .z)
  rw [Euclid.set_var] at s₇
  obtain ⟨st₈, h₈, e₈, s₈⟩ := xfreeAt_puts s₇ (.inr .w)
  rw [Euclid.set_var] at s₈
  have hout := s₈.program
  rw [← hgcd]
  refine ⟨_, h₈, ?_, hout⟩
  unfold gcd
  exact Option.bind_eq_some_iff.mpr ⟨_, e₁, Option.bind_eq_some_iff.mpr ⟨_, e₂,
    Option.bind_eq_some_iff.mpr ⟨_, e₃, Option.bind_eq_some_iff.mpr ⟨_, e₄,
    Option.bind_eq_some_iff.mpr ⟨_, e₅, Option.bind_eq_some_iff.mpr ⟨_, e₆,
    Option.bind_eq_some_iff.mpr ⟨_, e₇, Option.bind_eq_some_iff.mpr ⟨_, e₈, rfl⟩⟩⟩⟩⟩⟩⟩⟩

/-! ## `invert` -/

theorem and_one_iff (i : Int16) : i &&& 1 = 0 ↔ i.toBitVec.toNat % 2 = 0 := by
  rw [← Int16.toBitVec_inj, Int16.toBitVec_and, ← BitVec.toNat_inj, BitVec.toNat_and]
  change i.toBitVec.toNat &&& 1 = 0 ↔ _
  rw [Nat.and_one_is_mod]

/-- The lowest bit of the counter, also where it wraps. -/
theorem and_one_succ (i : Int16) : (i + 1) &&& 1 = 0 ↔ ¬i &&& 1 = 0 := by
  rw [and_one_iff, and_one_iff, Int16.toBitVec_add, BitVec.toNat_add]
  change (i.toBitVec.toNat + 1) % 65536 % 2 = 0 ↔ _
  omega

/-- The new cofactor is in `Anew`, and the old `Anew` in `Aold`. -/
theorem nextCofactor_spec (f : Nat) {b : Q} (hroom : Roomy (v b)) (hw : 0 < s.w) (hnew : 0 < s.anew)
    (hold : 0 ≤ s.aold) (hle : s.w * s.anew + s.aold ≤ v b) (hst : Store h st (s.vals v)) :
    ∃ st' h', nextCofactor (f + 5) st h = some (st', h') ∧ Store h' st' (Euclid.vals v
      { s with x := s.anew, anew := s.w * s.anew + s.aold, aold := s.anew }) := by
  have hprod : 0 < s.w * s.anew := mul_pos hw hnew
  have hle' : s.w * s.anew ≤ v b := by omega
  have hnewle : s.anew ≤ v b :=
    (le_mul_of_one_le_left hnew.le (Int.add_one_le_iff.mpr hw)).trans hle'
  have holdle : s.aold ≤ v b := by omega
  have hb : 0 ≤ v b := hnew.le.trans hnewle
  obtain ⟨st₁, h₁, e₁, s₁⟩ := moveAt_puts hst (hst.fits hroom (.inr .anew) hnew.le hnewle)
    (vars_ne (x := EuclidVar.anew) (y := EuclidVar.x) (by decide))
  rw [Euclid.set_var] at s₁
  obtain ⟨st₂, h₂, e₂, s₂⟩ := multAt_puts s₁ (.inr .w) (.inr .anew) (.inr .anew)
    (product_len (s₁.num (.inl b)) (s₁.fits hroom (.inl b) hb (le_refl _)) (s₁.num (.inr .w))
      (s₁.num (.inr .anew)) hw hnew hle')
  rw [Euclid.set_var] at s₂
  obtain ⟨st₃, h₃, e₃, s₃⟩ := maddAt_puts s₂ (s₂.fits hroom (.inr .anew) hprod.le hle')
    (s₂.fits hroom (.inr .aold) hold holdle) (.inr .anew) f
  rw [Euclid.set_var] at s₃
  obtain ⟨st₄, h₄, e₄, s₄⟩ := moveAt_puts s₃ (s₃.fits hroom (.inr .x) hnew.le hnewle)
    (vars_ne (x := EuclidVar.x) (y := EuclidVar.aold) (by decide))
  rw [Euclid.set_var] at s₄
  refine ⟨st₄, h₄, ?_, s₄⟩
  unfold nextCofactor
  exact Option.bind_eq_some_iff.mpr ⟨_, e₁, Option.bind_eq_some_iff.mpr ⟨_, e₂,
    Option.bind_eq_some_iff.mpr ⟨_, e₃, e₄⟩⟩⟩

/-- The loop keeps the cofactors. -/
theorem invertLoop_spec (f : Nat) (hbusy : busy ≠ 0) {b : Q} (hroom : Roomy (v b)) {a : Int} (n : Nat)
    (hn : s.y.toNat < n) {k : Nat} {i : Int16} (hi : i &&& 1 = 0 ↔ k % 2 = 0)
    (hcof : Cofactors a (v b) k s.x s.y s.aold s.anew) (hst : Store h st (s.vals v)) :
    ∃ i' st' h' s' k', invertLoop (f + 5) busy n i st h = some (i', st', h') ∧
      Store h' st' (Euclid.vals v s') ∧ Cofactors a (v b) k' s'.x 0 s'.aold s'.anew ∧
      (i' &&& 1 = 0 ↔ k' % 2 = 0) := by
  induction n generalizing s st h k i with
  | zero => omega
  | succ n ih =>
    rw [invertLoop]
    by_cases hlen : (st (.inr .y)).len = 0
    · have hzero : s.y = 0 := (hst.num (.inr .y)).eq_zero hlen
      rw [if_pos hlen]
      exact ⟨i, st, h, s, k, rfl, hst, hzero ▸ hcof, hi⟩
    · have hpos : 0 < s.y := lt_of_le_of_ne hcof.rest fun e => hlen (by
        have hnum := hst.num (.inr .y)
        rw [show s.vals v (.inr .y) = s.y from rfl, ← e] at hnum
        exact hnum.len_zero)
      obtain ⟨hxle, -, -, -, hsum⟩ := hcof.le hpos
      have hnext := hcof.step hpos
      have hless := hcof.less
      have hthree : 3 ≤ f + 5 := by omega
      have hquot : 1 ≤ s.x / s.y := (Int.le_ediv_iff_mul_le hpos).mpr (by omega)
      obtain ⟨st₁, h₁, e₁, s₁⟩ := divide_puts hthree hbusy hroom (hpos.trans hless).le hxle hpos
        (hless.le.trans hxle) hst
      obtain ⟨st₂, h₂, e₂, s₂⟩ := nextCofactor_spec (s := { s with w := s.x / s.y, z := s.x % s.y })
        f hroom (Int.add_one_le_iff.mp hquot) (Int.add_one_le_iff.mp hcof.new_pos) hcof.old_nonneg
        hsum s₁
      obtain ⟨st₃, h₃, e₃, s₃⟩ := moveAt_puts s₂
        (s₂.fits hroom (.inr .y) hpos.le (hless.le.trans hxle))
        (vars_ne (x := EuclidVar.y) (y := EuclidVar.x) (by decide))
      rw [Euclid.set_var] at s₃
      obtain ⟨st₄, h₄, e₄, s₄⟩ := moveAt_puts s₃
        (s₃.fits hroom (.inr .z) hnext.rest (hnext.less.le.trans (hless.le.trans hxle)))
        (vars_ne (x := EuclidVar.z) (y := EuclidVar.y) (by decide))
      rw [Euclid.set_var] at s₄
      have hn' : (s.x % s.y).toNat < n := by
        have := hnext.less
        clear * - hn hpos this
        omega
      have hi' : (i + 1) &&& 1 = 0 ↔ (k + 1) % 2 = 0 := by
        rw [and_one_succ, hi]
        omega
      obtain ⟨i', st₅, h₅, s₅, k', e₅, hst₅, hcof₅, hi₅⟩ := ih hn' hi' hnext s₄
      refine ⟨i', st₅, h₅, s₅, k', ?_, hst₅, hcof₅, hi₅⟩
      rw [if_neg hlen]
      exact Option.bind_eq_some_iff.mpr ⟨_, e₁, Option.bind_eq_some_iff.mpr ⟨_, e₂,
        Option.bind_eq_some_iff.mpr ⟨_, e₃, Option.bind_eq_some_iff.mpr ⟨_, e₄, e₅⟩⟩⟩⟩

/-- The start of `invert`. -/
theorem invert_start {st : Q → Mint} (hs : Store h st v) :
    ∃ h', (h.xalloc 1).2.write h.next 0 1 = some h' ∧
      Store h' (Function.update (Sum.elim st fun _ : EuclidVar => z₀) (.inr .anew) ⟨1, h.next⟩)
        (Euclid.vals v ⟨0, 0, 0, 0, 1, 0⟩) := by
  have h1 : (1 : Int16).toInt = 1 := rfl
  obtain ⟨h₁, hal, hg, -, hcells⟩ := xalloc_spec (h := h) (n := 1) h1 (by decide)
  have hcell : h₁.blocks h.next = some (([] : List Int16).map some ++ none :: [none, none]) := hcells
  obtain ⟨h', hw, hset⟩ := write_spec hcell 1
  have hnum : IsNum h' ⟨1, h.next⟩ ((1 : Int16).toInt * (1 : Int16).toInt) :=
    oneLimb_isNum ⟨[none, none], hset.self⟩ (by decide) (Or.inl rfl)
  have hout := hs.start (hset.grows hg (le_refl _)) EuclidVar.anew hnum (le_refl _)
  rw [Euclid.vals_zero, Euclid.set_var] at hout
  refine ⟨h', ?_, hout⟩
  rw [hal]
  exact hw

/-- The end of `invert`: the cofactor, with its sign. -/
theorem invert_end (f : Nat) {b c : Q} (hcb : c ≠ b) {i : Int16} {k : Nat}
    (hi : i &&& 1 = 0 ↔ k % 2 = 0) (hroom : Roomy (v b)) (hold : 0 ≤ s.aold) (hle : s.aold ≤ v b)
    (hst : Store h st (s.vals v)) :
    ∃ st₁ h₁ st₂ h₂, moveAt st (.inr .aold) (.inl c) h = some (st₁, h₁) ∧
      (if i &&& 1 = 0 then msubAt (f + 5) st₁ (.inl b) (.inl c) (.inl c) h₁ else some (st₁, h₁)) =
        some (st₂, h₂) ∧
      Store h₂ st₂
        (s.vals (Function.update v c (if k % 2 = 0 then v b - s.aold else s.aold))) := by
  obtain ⟨st₁, h₁, e₁, s₁⟩ := moveAt_puts hst (hst.fits hroom (.inr .aold) hold hle)
    (Sum.inr_ne_inl (a := c))
  rw [Euclid.set_object] at s₁
  have hb : 0 ≤ v b := hold.trans hle
  have hvb : Euclid.vals (Function.update v c (s.vals v (.inr .aold))) s (.inl b) = v b :=
    Function.update_of_ne hcb.symm _ _
  have hvc : Euclid.vals (Function.update v c (s.vals v (.inr .aold))) s (.inl c) = s.aold :=
    Function.update_self _ _ _
  by_cases heven : i &&& 1 = 0
  · obtain ⟨st₂, h₂, e₂, s₂⟩ := msubAt_puts s₁ (s₁.fits hroom (.inl b) (hb.trans_eq hvb.symm) hvb.le)
      (s₁.fits hroom (.inl c) (hold.trans_eq hvc.symm) (hvc.le.trans hle)) (.inl c) f
    rw [hvb, hvc, if_neg (by omega), Euclid.set_object, Function.update_idem] at s₂
    refine ⟨st₁, h₁, st₂, h₂, e₁, ?_, ?_⟩
    · rw [if_pos heven]
      exact e₂
    · rw [if_pos (hi.mp heven)]
      exact s₂
  · refine ⟨st₁, h₁, st₁, h₁, e₁, if_neg heven, ?_⟩
    rw [if_neg fun hk => heven (hi.mpr hk)]
    exact s₁

theorem invert_puts (hbusy : busy ≠ 0) {st : Q → Mint} (hs : Store h st v) {a b c : Q}
    (hfb : Fits (st b)) (ha : 0 < v a) (hab : v a < v b) (hcop : Int.gcd (v a) (v b) = 1)
    (hcb : c ≠ b) :
    ∃ n, ∀ fuel ≥ n, ∃ w, Puts v c w (invert fuel busy st a b c h) ∧ v a * w ≡ 1 [ZMOD v b] ∧
      0 < w ∧ w < v b := by
  have hb : 0 < v b := ha.trans hab
  have hroom : Roomy (v b) := abs_of_pos hb ▸ hfb.roomy (hs.num b)
  obtain ⟨h₁, e₁, s₁⟩ := invert_start hs
  refine ⟨(v a).toNat + 6, fun fuel hfuel => ?_⟩
  obtain ⟨f, rfl⟩ : ∃ f, fuel = f + 5 := ⟨fuel - 5, by omega⟩
  obtain ⟨st₂, h₂, e₂, s₂⟩ := moveAt_puts s₁ (s₁.fits hroom (.inl b) hb.le (le_refl _))
    (Sum.inl_ne_inr (b := EuclidVar.x))
  rw [Euclid.set_var] at s₂
  obtain ⟨st₃, h₃, e₃, s₃⟩ := moveAt_puts s₂ (s₂.fits hroom (.inl a) ha.le hab.le)
    (Sum.inl_ne_inr (b := EuclidVar.y))
  rw [Euclid.set_var] at s₃
  have hn : (v a).toNat < f + 5 := by omega
  have hzero : (0 : Int16) &&& 1 = 0 ↔ 0 % 2 = 0 := by decide
  obtain ⟨i, st₄, h₄, s, k, e₄, s₄, hcof, hi⟩ :=
    invertLoop_spec f hbusy hroom (f + 5) hn hzero (Cofactors.start ha hab hcop) s₃
  obtain ⟨hold, hless, hinv⟩ := hcof.inverse ha
  obtain ⟨st₅, h₅, st₆, h₆, e₅, e₆, s₆⟩ := invert_end f hcb hi hroom hold.le hless.le s₄
  obtain ⟨st₇, h₇, e₇, s₇⟩ := xfreeAt_puts s₆ (.inr .x)
  rw [Euclid.set_var] at s₇
  obtain ⟨st₈, h₈, e₈, s₈⟩ := xfreeAt_puts s₇ (.inr .y)
  rw [Euclid.set_var] at s₈
  obtain ⟨st₉, h₉, e₉, s₉⟩ := xfreeAt_puts s₈ (.inr .z)
  rw [Euclid.set_var] at s₉
  obtain ⟨st₁₀, h₁₀, e₁₀, s₁₀⟩ := xfreeAt_puts s₉ (.inr .w)
  rw [Euclid.set_var] at s₁₀
  obtain ⟨st₁₁, h₁₁, e₁₁, s₁₁⟩ := xfreeAt_puts s₁₀ (.inr .aold)
  rw [Euclid.set_var] at s₁₁
  obtain ⟨st₁₂, h₁₂, e₁₂, s₁₂⟩ := xfreeAt_puts s₁₁ (.inr .anew)
  rw [Euclid.set_var] at s₁₂
  refine ⟨_, ⟨_, h₁₂, ?_, s₁₂.program⟩, hinv, ?_, ?_⟩
  · unfold invert
    exact Option.bind_eq_some_iff.mpr ⟨_, e₁, Option.bind_eq_some_iff.mpr ⟨_, e₂,
      Option.bind_eq_some_iff.mpr ⟨_, e₃, Option.bind_eq_some_iff.mpr ⟨_, e₄,
      Option.bind_eq_some_iff.mpr ⟨_, e₅, Option.bind_eq_some_iff.mpr ⟨_, e₆,
      Option.bind_eq_some_iff.mpr ⟨_, e₇, Option.bind_eq_some_iff.mpr ⟨_, e₈,
      Option.bind_eq_some_iff.mpr ⟨_, e₉, Option.bind_eq_some_iff.mpr ⟨_, e₁₀,
      Option.bind_eq_some_iff.mpr ⟨_, e₁₁, Option.bind_eq_some_iff.mpr ⟨_, e₁₂, rfl⟩⟩⟩⟩⟩⟩⟩⟩⟩⟩⟩⟩
  · split
    · omega
    · exact hold
  · split
    · omega
    · exact hless

/-- `gcd` comes back with the greatest common divisor of any two numbers, and `invert` with the
inverse of a number that is smaller than the modulus and has no common divisor with it. -/
theorem gcd_invert {busy : Int16} (hbusy : busy ≠ 0) (h : Heap) (st : Q → Mint) (v : Q → Int)
    (hs : Store h st v) (a b c : Q) (hfa : Fits (st a)) (hfb : Fits (st b)) (ha : 0 ≤ v a)
    (hb : 0 ≤ v b) :
    (∃ n, ∀ fuel ≥ n, Puts v c (Int.gcd (v a) (v b)) (gcd fuel busy st a b c h)) ∧
      (0 < v a → v a < v b → Int.gcd (v a) (v b) = 1 → c ≠ b →
        ∃ n, ∀ fuel ≥ n, ∃ w, Puts v c w (invert fuel busy st a b c h) ∧
          v a * w ≡ 1 [ZMOD v b] ∧ 0 < w ∧ w < v b) :=
  ⟨gcd_puts hbusy hs c hfa hfb ha hb, fun hpos hab hcop hcb =>
    invert_puts hbusy hs hfb hpos hab hcop hcb⟩

end Objects

/-- 3 and 5. -/
theorem gcd_invert_three :
    (∃ n, ∀ fuel ≥ n, Puts (Sum.elim ![5, 3, 0] fun _ => 0) (Sum.inl 2) (Int.gcd 3 5)
      (gcd fuel 1 (quotients 1) (Sum.inl 1) (Sum.inl 0) (Sum.inl 2) fiveThree)) ∧
    ∃ n, ∀ fuel ≥ n, ∃ w, Puts (Sum.elim ![5, 3, 0] fun _ => 0) (Sum.inl 2) w
        (invert fuel 1 (quotients 1) (Sum.inl 1) (Sum.inl 0) (Sum.inl 2) fiveThree) ∧
      3 * w ≡ 1 [ZMOD 5] ∧ 0 < w ∧ w < 5 := by
  have hf := signed_fits (s := 1) (t := 1) (Or.inl rfl) (Or.inl rfl)
  have h := gcd_invert (show (1 : Int16) ≠ 0 by decide) fiveThree (quotients 1) _
    (quotients_store (Or.inl rfl)) (Sum.inl 1) (Sum.inl 0) (Sum.inl 2) hf.2 hf.1 (by decide) (by decide)
  exact ⟨h.1, h.2 (by decide) (by decide) (by decide) (by decide)⟩

end Venix.Libmp
