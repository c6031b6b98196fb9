/-
  The functions that `m_div` uses: `s_div`, `m_trq` and `m_dsb`.

  `s_div` keeps the remainder below the divisor. `m_trq`, with a leading limb of the divisor that is
  at least half the base, ends after two corrections at most, with every `long` in range. `m_dsb`
  subtracts a multiple of the divisor and adds the divisor back where it was one too large.
-/
import Venix.Libmp.Mdiv
import Venix.Lib.QuotDigit

namespace Venix.Libmp

open Venix.Lib

/-! ## Words -/

theorem long_eq {x : Int} (h1 : -2147483648 ≤ x) (h2 : x < 2147483648) : long x = some x :=
  if_pos ⟨h1, h2⟩

theorem ofInt_toInt {x : Int} (h1 : -32768 ≤ x) (h2 : x < 32768) : (Int16.ofInt x).toInt = x :=
  Int16.toInt_ofInt_of_le h1 h2

theorem add_toInt {x y : Int16} (h1 : -32768 ≤ x.toInt + y.toInt) (h2 : x.toInt + y.toInt < 32768) :
    (x + y).toInt = x.toInt + y.toInt := by
  rw [Int16.toInt_add, Int.bmod_eq_of_le] <;> omega

theorem sub_one_toInt {x : Int16} (h : -32768 < x.toInt) : (x - 1).toInt = x.toInt - 1 := by
  have h1 : (1 : Int16).toInt = 1 := rfl
  have := x.toInt_lt
  rw [Int16.toInt_sub, h1, Int.bmod_eq_of_le] <;> omega

/-- A limb. -/
def IsLimb (x : Int) : Prop := 0 ≤ x ∧ x < 32768

/-! ## Division by one limb -/

section Single

variable {n : Int16} (hn : 0 < n.toInt)
include hn

/-- One step of `s_div`. -/
theorem s_div_step {x : Int} {v : Int16} (hx : 0 ≤ x) (hxn : x < n.toInt) (hv : IsLimb v.toInt) :
    long (x * 0o100000) = some (x * 32768) ∧
      long (x * 32768 + v.toInt) = some (x * 32768 + v.toInt) ∧
      ∃ q : Int16, Int16.ofInt ((x * 32768 + v.toInt).tdiv n.toInt) = q ∧ IsLimb q.toInt ∧
        ∃ y, (x * 32768 + v.toInt).tmod n.toInt = y ∧ 0 ≤ y ∧ y < n.toInt ∧
          x * 32768 + v.toInt = q.toInt * n.toInt + y := by
  obtain ⟨hv0, hv1⟩ := hv
  have hn1 := n.toInt_lt
  have hnum : 0 ≤ x * 32768 + v.toInt := by omega
  have hlt : x * 32768 + v.toInt < 32768 * n.toInt := by omega
  refine ⟨long_eq (by omega) (by omega), long_eq (by omega) (by omega), _, rfl, ?_⟩
  rw [Int.tdiv_eq_ediv_of_nonneg hnum, Int.tmod_eq_emod_of_nonneg hnum]
  have hdiv0 : 0 ≤ (x * 32768 + v.toInt) / n.toInt := Int.ediv_nonneg hnum hn.le
  have hdiv1 : (x * 32768 + v.toInt) / n.toInt < 32768 := Int.ediv_lt_of_lt_mul hn hlt
  rw [ofInt_toInt (by omega) hdiv1]
  refine ⟨⟨hdiv0, hdiv1⟩, _, rfl, Int.emod_nonneg _ (by omega), Int.emod_lt_of_pos _ hn, ?_⟩
  have := Int.mul_ediv_add_emod (x * 32768 + v.toInt) n.toInt
  linarith

theorem s_divLoop_spec (l : List Int16) (hl : Limbs l) {a : Mint} {qval : Nat} (hne : a.val ≠ qval)
    {x : Int} (hx : 0 ≤ x) (hxn : x < n.toInt) {h : Heap} {rest : List (Option Int16)}
    (ha : ∀ i (hi : i < l.length), h.read a.val i = some l[i])
    (hq : h.blocks qval = some (List.replicate l.length none ++ rest)) :
    ∃ qs y h', s_divLoop a n qval l.length x h = some (y, h') ∧ qs.length = l.length ∧ Limbs qs ∧
      0 ≤ y ∧ y < n.toInt ∧ value l + 32768 ^ l.length * x = value qs * n.toInt + y ∧
      Sets h h' qval (qs.map some ++ rest) := by
  induction l using List.reverseRecOn generalizing x h rest with
  | nil =>
    refine ⟨[], x, h, rfl, rfl, hl, hx, hxn, ?_, rfl, ?_⟩
    · simp [value, ints, valL]
    · rw [List.map_nil, List.nil_append]
      rw [List.length_nil, List.replicate_zero, List.nil_append] at hq
      rw [← hq, Function.update_eq_self]
  | append_singleton l v ih =>
    obtain ⟨hl₀, hv⟩ := limbs_append.mp hl
    have hv0 : IsLimb v.toInt := hv v.toInt (by simp [ints])
    obtain ⟨hlong1, hlong2, q, hqeq, hq0, y, hyeq, hy0, hy1, heq⟩ := s_div_step hn hx hxn hv0
    have hread : h.read a.val l.length = some v := by
      have := ha l.length (by simp)
      simpa using this
    have hcells : h.blocks qval =
        some (List.replicate l.length none ++ none :: rest) := by
      rw [hq, List.length_append, List.length_singleton, List.replicate_succ', List.append_assoc]
      rfl
    obtain ⟨h₁, hw, hset⟩ := write_spec hcells q
    rw [List.length_replicate] at hw
    obtain ⟨qs, z, h', hrun, hqs, hlq, hz0, hz1, hval, hset'⟩ := ih hl₀ hy0 hy1
      (fun i hi => by
        have hother : h₁.blocks a.val = h.blocks a.val := hset.other hne
        unfold Heap.read
        rw [hother]
        have := ha i (by simp; omega)
        unfold Heap.read at this
        rw [this, List.getElem_append_left hi])
      hset.self
    refine ⟨qs ++ [q], z, h', ?_, by simp [hqs], ?_, hz0, hz1, ?_, ?_⟩
    · have hnz : ¬n = 0 := by
        rintro rfl
        exact absurd hn (by decide)
      rw [List.length_append, List.length_singleton, s_divLoop, hread]
      simp only [Option.bind_eq_bind, Option.bind_some, hlong1, hlong2, if_neg hnz, hqeq, hw, hyeq]
      exact hrun
    · exact limbs_append.mpr ⟨hlq, by
        intro t ht
        simp [ints] at ht
        rw [ht]
        exact hq0⟩
    · rw [value_concat, value_concat, List.length_append, List.length_singleton, pow_succ, hqs]
      linear_combination hval + 32768 ^ l.length * heq
    · have := hset.trans hset'
      simpa using this

end Single

/-! ## Quotients -/

/-- A quotient with at most one limb too many loses that limb. -/
theorem quot_canon {qs : List Int16} (hl : Limbs qs) (hne : qs ≠ []) :
    ∃ l x, qs = l ++ [x] ∧ 0 ≤ x.toInt ∧ (x ≠ 0 → Canon qs) ∧
      (x = 0 → Limbs l ∧ value l = value qs ∧
        ((2 ≤ qs.length → 32768 ^ (qs.length - 2) ≤ value qs) → Canon l)) := by
  obtain ⟨l, x, rfl⟩ : ∃ l x, qs = l ++ [x] :=
    ⟨qs.dropLast, qs.getLast hne, (List.dropLast_append_getLast hne).symm⟩
  obtain ⟨hl₀, hx⟩ := limbs_append.mp hl
  have hx0 := (hx x.toInt (by simp [ints])).1
  refine ⟨l, x, rfl, hx0, fun hxne => ?_, fun hzero => ?_⟩
  · intro y hy
    rw [List.getLast?_concat] at hy
    cases hy
    exact lt_of_le_of_ne hx0 fun e => hxne (Int16.toInt_inj.mp e.symm)
  · have hval : value (l ++ [x]) = value l := by
      rw [value_concat, hzero]
      change value l + _ * 0 = _
      rw [mul_zero, add_zero]
    refine ⟨hl₀, hval.symm, fun hbig => ?_⟩
    by_cases hnil : l = []
    · subst hnil
      simp [Canon]
    · have hlen := List.length_pos_iff.mpr hnil
      refine canon_of_pow_le hl₀ ?_
      have := hbig (by simp; omega)
      rw [hval, List.length_append, List.length_singleton] at this
      exact this

/-- The quotient of a canonical number by one limb. -/
theorem single_big {l qs : List Int16} {n y : Int} (hc : Canon l) (hl : Limbs l) (hn0 : 0 < n)
    (hn : n < 32768) (hlen : qs.length = l.length) (hy : y < n)
    (hval : value l = value qs * n + y) (h2 : 2 ≤ qs.length) :
    32768 ^ (qs.length - 2) ≤ value qs := by
  have hne : l ≠ [] := List.length_pos_iff.mp (by omega)
  have hlow := hc.pow_le hl hne
  have hpow : (32768 : Int) ^ (l.length - 1) = 32768 ^ (qs.length - 2) * 32768 := by
    rw [← pow_succ]
    congr 1
    omega
  rw [hpow, hval] at hlow
  by_contra hcon
  have h1 : (value qs + 1) * n ≤ 32768 ^ (qs.length - 2) * n :=
    mul_le_mul_of_nonneg_right (by omega) hn0.le
  have h3 : (32768 : Int) ^ (qs.length - 2) * n ≤ 32768 ^ (qs.length - 2) * 32768 :=
    mul_le_mul_of_nonneg_left hn.le (by positivity)
  have h4 : (value qs + 1) * n = value qs * n + n := by ring
  omega

theorem turns_eq {n : Int16} {k : Nat} (h : n.toInt = k) : turns n = k := by
  unfold turns
  rw [h]
  rfl

theorem eq_zero_of_toInt {n : Int16} (h : n.toInt = 0) : n = 0 := Int16.toInt_inj.mp h

/-- `s_div`: the quotient in a new block, in canonical form if the dividend is, and the remainder. -/
theorem s_div_spec {busy : Int16} (hbusy : busy ≠ 0) {n : Int16} (hn : 0 < n.toInt) {a : Mint}
    {l : List Int16} {h : Heap} (ha : Rep h a l) (hlen : l.length ≤ 32765) :
    ∃ y r h' lq, s_div busy a n h = some (y, r, h') ∧ Rep h' y lq ∧ (Canon l → Canon lq) ∧
      value l = value lq * n.toInt + r.toInt ∧ 0 ≤ r.toInt ∧ r.toInt < n.toInt ∧ Grows h h' ∧
      y.val = h.next ∧ lq.length ≤ l.length := by
  obtain ⟨h₁, hal, hg, -, hcells⟩ := xalloc_spec ha.len (h := h) hlen
  rw [List.replicate_add] at hcells
  have hread : ∀ i (hi : i < l.length), h₁.read a.val i = some l[i] := fun i hi =>
    (ha.grows hg).read hi
  have hrun : ∃ qs y h₂, s_divLoop a n h.next l.length 0 h₁ = some (y, h₂) ∧
      qs.length = l.length ∧ Limbs qs ∧ 0 ≤ y ∧ y < n.toInt ∧
      value l = value qs * n.toInt + y ∧
      Sets h₁ h₂ h.next (qs.map some ++ List.replicate 2 none) := by
    by_cases hnil : l = []
    · subst hnil
      refine ⟨[], 0, h₁, rfl, rfl, ha.limbs, le_refl _, hn, by simp [value, ints, valL], rfl, ?_⟩
      rw [List.map_nil]
      rw [List.length_nil, List.replicate_zero] at hcells
      rw [← hcells, Function.update_eq_self]
    · have hne : a.val ≠ h.next := ((ha.cells hnil).lt).ne
      obtain ⟨qs, y, h₂, h1, h2, h3, h4, h5, h6, h7⟩ :=
        s_divLoop_spec hn l ha.limbs hne (le_refl 0) hn hread hcells
      refine ⟨qs, y, h₂, h1, h2, h3, h4, h5, ?_, h7⟩
      rw [mul_zero, add_zero] at h6
      exact h6
  obtain ⟨qs, y, h₂, hloop, hqs, hlq, hy0, hy1, hval, hset⟩ := hrun
  have hg₂ : Grows h h₂ := hset.grows hg (le_refl _)
  have hn1 := n.toInt_lt
  have hry : (Int16.ofInt y).toInt = y := ofInt_toInt (by omega) (by omega)
  have hturns := ha.turns
  -- the end of `s_div` for a part `lq` of the limbs that were written
  have key : ∀ (lq : List Int16) (qlen : Int16), qlen.toInt = lq.length → Limbs lq →
      (Canon l → Canon lq) →
      value lq = value qs → lq.length ≤ qs.length → (lq ≠ [] → Holds h₂ h.next lq) →
      (∀ h', (if qlen = 0 then h₂.free h.next else some h₂) = some h' →
        s_div busy a n h = some (⟨qlen, h.next⟩, Int16.ofInt y, h')) →
      ∃ y r h' lq, s_div busy a n h = some (y, r, h') ∧ Rep h' y lq ∧ (Canon l → Canon lq) ∧
        value l = value lq * n.toInt + r.toInt ∧ 0 ≤ r.toInt ∧ r.toInt < n.toInt ∧ Grows h h' ∧
        y.val = h.next ∧ lq.length ≤ l.length := by
    intro lq qlen hql hllq hclq hvlq hlelq hholds hend
    by_cases hzero : qlen = 0
    · have hnil : lq = [] := by
        have h0 : (0 : Int16).toInt = 0 := rfl
        rw [hzero, h0] at hql
        exact List.length_eq_zero_iff.mp (by omega)
      obtain ⟨h₃, hfree, hnext, hother⟩ := free_spec hset.self
      refine ⟨_, _, h₃, lq, hend h₃ (by rw [if_pos hzero]; exact hfree),
        ⟨hql, fun hne => absurd hnil hne, hllq⟩, hclq, by rw [hvlq, hry]; exact hval,
        by rw [hry]; exact hy0, by rw [hry]; exact hy1, ?_, rfl, by omega⟩
      exact ⟨by rw [hnext]; exact hg₂.next, fun p hp => by
        rw [hother p (by omega), hg₂.old p hp]⟩
    · exact ⟨_, _, h₂, lq, hend h₂ (if_neg hzero), ⟨hql, hholds, hllq⟩, hclq,
        by rw [hvlq, hry]; exact hval, by rw [hry]; exact hy0, by rw [hry]; exact hy1, hg₂, rfl,
        by omega⟩
  have hholds : Holds h₂ h.next qs := ⟨_, hset.self⟩
  by_cases hnil : qs = []
  · have hl0 : l.length = 0 := by rw [← hqs, hnil]; rfl
    refine key [] a.len (by rw [ha.len, hl0]; rfl) (by simp [Limbs, ints, Digits])
      (by simp [Canon]) (by rw [hnil]) (Nat.zero_le _) (fun hne => absurd rfl hne) fun h' hend => ?_
    rw [hl0] at hturns hloop
    unfold s_div
    simp only [hal, hturns, hloop, Option.bind_eq_bind, Option.bind_some, if_true, if_neg hbusy,
      hend, Option.pure_def]
  · have hbig := fun hc => single_big hc ha.limbs hn (by omega) hqs hy1 hval
    obtain ⟨l', x, rfl, hx0, hkeep, hdrop⟩ := quot_canon hlq hnil
    rw [List.length_append, List.length_singleton] at hqs
    have htop : h₂.read h.next (l.length - 1) = some x := by
      have := hholds.read (i := l'.length) (by simp)
      rw [← hqs]
      simpa using this
    have hne0 : ¬l.length = 0 := by omega
    by_cases hx : x = 0
    · obtain ⟨hl', hv', hc'⟩ := hdrop hx
      have h1 : (1 : Int16).toInt = 1 := rfl
      have hql : (a.len - 1).toInt = l'.length := by
        rw [sub_one_toInt (by rw [ha.len]; omega), ha.len]
        omega
      refine key l' (a.len - 1) hql hl' (fun hc => hc' (hbig hc)) hv' (by simp) (fun _ => ?_)
        fun h' hend => ?_
      · obtain ⟨rest, hrest⟩ := hholds
        exact ⟨some x :: rest, by rw [hrest]; simp⟩
      · unfold s_div
        simp only [hal, hturns, hloop, Option.bind_eq_bind, Option.bind_some, if_neg hne0, htop, if_pos hx,
          hend, Option.pure_def]
    · have hql : a.len.toInt = (l' ++ [x]).length := by
        rw [ha.len, List.length_append, List.length_singleton, hqs]
      refine key (l' ++ [x]) a.len hql hlq (fun _ => hkeep hx) rfl (le_refl _) (fun _ => hholds)
        fun h' hend => ?_
      unfold s_div
      simp only [hal, hturns, hloop, Option.bind_eq_bind, Option.bind_some, if_neg hne0, htop, if_neg hx,
        hend, Option.pure_def]

/-- `sdiv` of numbers without signs, with nothing in `q` before. -/
theorem sdiv_spec {busy : Int16} (hbusy : busy ≠ 0) {n : Int16} (hn : 0 < n.toInt) {a q : Mint}
    {l : List Int16} {h : Heap} (ha : Rep h a l) (hlen : l.length ≤ 32765) (hq : q.len = 0) :
    ∃ y r h' lq, sdiv busy a n q h = some (y, r, h') ∧ Rep h' y lq ∧ (Canon l → Canon lq) ∧
      value l = value lq * n.toInt + r.toInt ∧ 0 ≤ r.toInt ∧ r.toInt < n.toInt ∧ Grows h h' ∧
      y.val = h.next ∧ lq.length ≤ l.length := by
  obtain ⟨y, r, h', lq, hrun, hrep, hcq, hval, hr0, hr1, hg, hyv, hle⟩ :=
    s_div_spec hbusy hn ha hlen
  have hn0 : ¬n < 0 := by
    rw [Int16.lt_iff_toInt_lt]
    have h0 : (0 : Int16).toInt = 0 := rfl
    omega
  have ha0 : ¬a.len < 0 := by
    rw [Int16.lt_iff_toInt_lt, ha.len]
    have h0 : (0 : Int16).toInt = 0 := rfl
    omega
  have hfree : xfree q h' = some h' := if_pos hq
  refine ⟨y, r, h', lq, ?_, hrep, hcq, hval, hr0, hr1, hg, hyv, hle⟩
  unfold sdiv
  simp only [if_neg hn0, if_neg ha0, hrun, hfree, Option.bind_eq_bind, Option.bind_some,
    Option.pure_def, Int16.one_mul, Int16.mul_one]

/-! ## The estimate -/

section Estimate

variable {v1 v2 u1 u2 u3 : Int} (hv1 : IsLimb v1) (hv2 : IsLimb v2) (hu1 : IsLimb u1)
  (hu2 : IsLimb u2) (hu3 : IsLimb u3) (hhalf : 16384 ≤ v1)
include hv1 hv2 hu1 hu3

/-- One turn of `m_trq`: every `long` is in range. -/
theorem trq_turn {d : Int} (hd0 : 0 ≤ d) (hd1 : d ≤ 32767) (hx0 : 0 ≤ u1 * 32768 + u2 - v1 * d)
    (hx1 : u1 * 32768 + u2 - v1 * d ≤ 65534) (fuel : Nat) :
    trqLoop v1 v2 u1 u2 u3 (fuel + 1) d =
      if (u1 * 32768 + u2) * 32768 + u3 - (v1 * 32768 + v2) * d < 0 then
        trqLoop v1 v2 u1 u2 u3 fuel (d - 1)
      else some d := by
  unfold IsLimb at *
  have hp1 : v1 * d ≤ 32767 * 32767 := mul_le_mul (by omega) hd1 hd0 (by omega)
  have hp2 : v2 * d ≤ 32767 * 32767 := mul_le_mul (by omega) hd1 hd0 (by omega)
  have hp3 : 0 ≤ v1 * d := mul_nonneg hv1.1 hd0
  have hp4 : 0 ≤ v2 * d := mul_nonneg hv2.1 hd0
  have htest : (u1 * 32768 + u2) * 32768 + u3 - (v1 * 32768 + v2) * d =
      (u1 * 32768 + u2 - v1 * d) * 32768 + u3 - v2 * d := by ring
  rw [htest, trqLoop]
  simp only [Option.bind_eq_bind]
  rw [long_eq (by omega) (by omega), Option.bind_some, long_eq (by omega) (by omega),
    Option.bind_some, long_eq (by omega) (by omega), Option.bind_some,
    long_eq (by omega) (by omega), Option.bind_some, long_eq (by omega) (by omega),
    Option.bind_some, long_eq (by omega) (by omega), Option.bind_some,
    long_eq (by omega) (by omega), Option.bind_some, long_eq (by omega) (by omega),
    Option.bind_some]

include hu2 hhalf

/-- The loop of `m_trq` goes down to the largest number that passes the test. Each turn that fails
makes the test's first term larger by `v1`, so that `fuel` more turns are enough. -/
theorem trqLoop_spec (fuel : Nat) {d : Int} (hd0 : 0 ≤ d) (hd1 : d ≤ 32767)
    (hx0 : 0 ≤ u1 * 32768 + u2 - v1 * d) (hx1 : u1 * 32768 + u2 - v1 * d ≤ 65534)
    (hfuel : 32768 ≤ u1 * 32768 + u2 - v1 * d + fuel * v1) :
    ∃ e, trqLoop v1 v2 u1 u2 u3 (fuel + 1) d = some e ∧ 0 ≤ e ∧ e ≤ d ∧
      (v1 * 32768 + v2) * e ≤ (u1 * 32768 + u2) * 32768 + u3 ∧
      ∀ q ≤ d, (v1 * 32768 + v2) * q ≤ (u1 * 32768 + u2) * 32768 + u3 → q ≤ e := by
  induction fuel generalizing d with
  | zero =>
    rw [trq_turn hv1 hv2 hu1 hu3 hd0 hd1 hx0 hx1]
    unfold IsLimb at *
    have hp2 : v2 * d ≤ 32767 * 32767 := mul_le_mul (by omega) hd1 hd0 (by omega)
    have htest : (u1 * 32768 + u2) * 32768 + u3 - (v1 * 32768 + v2) * d =
        (u1 * 32768 + u2 - v1 * d) * 32768 + u3 - v2 * d := by ring
    rw [Nat.cast_zero, zero_mul, add_zero] at hfuel
    have hok : 0 ≤ (u1 * 32768 + u2) * 32768 + u3 - (v1 * 32768 + v2) * d := by
      rw [htest]
      omega
    exact ⟨d, if_neg (by omega), hd0, le_refl d, by omega, fun q hq _ => hq⟩
  | succ fuel ih =>
    rw [trq_turn hv1 hv2 hu1 hu3 hd0 hd1 hx0 hx1]
    by_cases hneg : (u1 * 32768 + u2) * 32768 + u3 - (v1 * 32768 + v2) * d < 0
    · rw [if_pos hneg]
      unfold IsLimb at *
      have hp2 : v2 * d ≤ 32767 * 32767 := mul_le_mul (by omega) hd1 hd0 (by omega)
      have htest : (u1 * 32768 + u2) * 32768 + u3 - (v1 * 32768 + v2) * d =
          (u1 * 32768 + u2 - v1 * d) * 32768 + u3 - v2 * d := by ring
      have hsmall : u1 * 32768 + u2 - v1 * d < 32767 := by
        rw [htest] at hneg
        omega
      have hpos : 1 ≤ d := by
        by_contra hcon
        have hzero : d = 0 := by omega
        rw [hzero, mul_zero] at hneg
        omega
      have hpred : v1 * (d - 1) = v1 * d - v1 := by ring
      have hcast : ((fuel + 1 : Nat) : Int) * v1 = fuel * v1 + v1 := by
        push_cast
        ring
      rw [hcast] at hfuel
      obtain ⟨e, hrun, he0, he1, htest', hmax⟩ := ih (d := d - 1) (by omega) (by omega)
        (by rw [hpred]; omega) (by rw [hpred]; omega) (by rw [hpred]; omega)
      refine ⟨e, hrun, he0, by omega, htest', fun q hq hle => hmax q ?_ hle⟩
      by_contra hcon
      have heq : q = d := by omega
      rw [heq] at hle
      omega
    · rw [if_neg hneg]
      exact ⟨d, rfl, hd0, le_refl d, by omega, fun q hq _ => hq⟩

end Estimate

/-- `m_trq` gives the largest limb that passes the test. -/
theorem m_trq_spec {v1 v2 u1 u2 u3 : Int16} (hv1 : IsLimb v1.toInt) (hv2 : IsLimb v2.toInt)
    (hu1 : IsLimb u1.toInt) (hu2 : IsLimb u2.toInt) (hu3 : IsLimb u3.toInt)
    (hhalf : 16384 ≤ v1.toInt) (hle : u1.toInt ≤ v1.toInt) {fuel : Nat} (hfuel : 3 ≤ fuel) :
    ∃ e : Int16, m_trq fuel v1 v2 u1 u2 u3 = some e ∧ IsLimb e.toInt ∧
      (v1.toInt * 32768 + v2.toInt) * e.toInt ≤
        (u1.toInt * 32768 + u2.toInt) * 32768 + u3.toInt ∧
      ∀ q, 0 ≤ q → q ≤ 32767 → (v1.toInt * 32768 + v2.toInt) * q ≤
        (u1.toInt * 32768 + u2.toInt) * 32768 + u3.toInt → q ≤ e.toInt := by
  obtain ⟨n, rfl⟩ : ∃ n, fuel = n + 1 := ⟨fuel - 1, by omega⟩
  have hgrow : 2 * v1.toInt ≤ n * v1.toInt := mul_le_mul_of_nonneg_right (by omega) hv1.1
  have hu := hu1
  have hv := hv1
  have hw := hu2
  have ht := hu3
  unfold IsLimb at hu hv hw ht
  -- the loop from a first estimate `d` that no digit exceeds
  have key : ∀ d, 0 ≤ d → d ≤ 32767 → 0 ≤ u1.toInt * 32768 + u2.toInt - v1.toInt * d →
      u1.toInt * 32768 + u2.toInt - v1.toInt * d ≤ 65534 →
      (∀ q, 0 ≤ q → q ≤ 32767 → v1.toInt * q ≤ u1.toInt * 32768 + u2.toInt → q ≤ d) →
      (m_trq (n + 1) v1 v2 u1 u2 u3 =
        (trqLoop v1.toInt v2.toInt u1.toInt u2.toInt u3.toInt (n + 1) d).bind fun d =>
          some (Int16.ofInt d)) →
      ∃ e : Int16, m_trq (n + 1) v1 v2 u1 u2 u3 = some e ∧ IsLimb e.toInt ∧
        (v1.toInt * 32768 + v2.toInt) * e.toInt ≤
          (u1.toInt * 32768 + u2.toInt) * 32768 + u3.toInt ∧
        ∀ q, 0 ≤ q → q ≤ 32767 → (v1.toInt * 32768 + v2.toInt) * q ≤
          (u1.toInt * 32768 + u2.toInt) * 32768 + u3.toInt → q ≤ e.toInt := by
    intro d hd0 hd1 hx0 hx1 hfirst hrun
    obtain ⟨e, hloop, he0, he1, htest, hmax⟩ :=
      trqLoop_spec hv1 hv2 hu1 hu2 hu3 hhalf n hd0 hd1 hx0 hx1 (by omega)
    have heq : (Int16.ofInt e).toInt = e := ofInt_toInt (by omega) (by omega)
    refine ⟨Int16.ofInt e, by rw [hrun, hloop, Option.bind_some], by rw [heq]; exact ⟨he0, by omega⟩,
      by rw [heq]; exact htest, fun q hq0 hq1 hq => ?_⟩
    rw [heq]
    exact hmax q (hfirst q hq0 hq1 (estimate_le_first (by decide) hv2.1 hu3.2 hq0 hq)) hq
  by_cases heq : u1 = v1
  · have heq' : u1.toInt = v1.toInt := by rw [heq]
    refine key 32767 (by decide) (le_refl _) (by omega) (by omega) (fun q _ hq _ => hq) ?_
    unfold m_trq
    simp only [if_pos heq, Option.bind_eq_bind, Option.bind_some, Option.pure_def]
  · have hlt : u1.toInt < v1.toInt :=
      lt_of_le_of_ne hle fun e => heq (Int16.toInt_inj.mp e)
    have hne : ¬v1 = 0 := by
      intro e
      rw [e] at hhalf
      exact absurd hhalf (by decide)
    have hnum : 0 ≤ u1.toInt * 32768 + u2.toInt := by omega
    have hdm := Int.mul_ediv_add_emod (u1.toInt * 32768 + u2.toInt) v1.toInt
    have hm0 := Int.emod_nonneg (u1.toInt * 32768 + u2.toInt) (show v1.toInt ≠ 0 by omega)
    have hm1 := Int.emod_lt_of_pos (u1.toInt * 32768 + u2.toInt) (show 0 < v1.toInt by omega)
    have hd1 : (u1.toInt * 32768 + u2.toInt) / v1.toInt < 32768 :=
      Int.ediv_lt_of_lt_mul (by omega) (by omega)
    refine key ((u1.toInt * 32768 + u2.toInt) / v1.toInt) (Int.ediv_nonneg hnum (by omega))
      (by omega) (by omega) (by omega) (fun q hq0 hq1 hq => ?_) ?_
    · exact (Int.le_ediv_iff_mul_le (by omega)).mpr (by rw [mul_comm]; exact hq)
    · unfold m_trq
      simp only [if_neg heq, if_neg hne, Option.bind_eq_bind, Option.pure_def]
      rw [long_eq (by omega) (by omega), Option.bind_some, long_eq (by omega) (by omega),
        Option.bind_some, Int.tdiv_eq_ediv_of_nonneg hnum, Option.bind_some]

/-! ## Subtraction and addition of the divisor -/

/-- A step of a loop of `m_dsb`: the borrow stays between `lo` and `hi`, and `k` times the limb of the
divisor is added. -/
def Steps (f : Int16 → Int16 → Int16 → Option (Int16 × Int16)) (k lo hi : Int) : Prop :=
  ∀ c x y : Int16, lo ≤ c.toInt → c.toInt ≤ hi → IsLimb x.toInt → IsLimb y.toInt →
    ∃ low c', f c x y = some (low, c') ∧ IsLimb low.toInt ∧ lo ≤ c'.toInt ∧ c'.toInt ≤ hi ∧
      c.toInt + k * x.toInt + y.toInt = low.toInt + 32768 * c'.toInt

theorem subLimb_steps {q : Int16} (hq : IsLimb q.toInt) :
    Steps (subLimb q.toInt) (-q.toInt) (-32767) 0 := by
  intro c x y hc0 hc1 hx hy
  unfold IsLimb at *
  have hp0 : 0 ≤ x.toInt * q.toInt := mul_nonneg hx.1 hq.1
  have hp1 : x.toInt * q.toInt ≤ 32767 * 32767 := mul_le_mul (by omega) (by omega) hq.1 (by omega)
  have hlow : (Int16.ofInt ((c.toInt - x.toInt * q.toInt + y.toInt) % 32768)).toInt =
      (c.toInt - x.toInt * q.toInt + y.toInt) % 32768 := ofInt_toInt (by omega) (by omega)
  have hcarry : (Int16.ofInt ((c.toInt - x.toInt * q.toInt + y.toInt) / 32768)).toInt =
      (c.toInt - x.toInt * q.toInt + y.toInt) / 32768 := ofInt_toInt (by omega) (by omega)
  refine ⟨Int16.ofInt ((c.toInt - x.toInt * q.toInt + y.toInt) % 32768),
    Int16.ofInt ((c.toInt - x.toInt * q.toInt + y.toInt) / 32768), ?_, ?_, ?_, ?_, ?_⟩
  · unfold subLimb
    simp only [Option.bind_eq_bind, Option.pure_def]
    rw [long_eq (by omega) (by omega), Option.bind_some, long_eq (by omega) (by omega),
      Option.bind_some, long_eq (by omega) (by omega), Option.bind_some]
  · rw [hlow]
    omega
  · rw [hcarry]
    omega
  · rw [hcarry]
    omega
  · rw [hlow, hcarry]
    have hneg : -q.toInt * x.toInt = -(x.toInt * q.toInt) := by ring
    rw [hneg]
    omega

theorem addLimb_steps : Steps addLimb 1 0 1 := by
  intro c x y hc0 hc1 hx hy
  unfold IsLimb at *
  have hxy : (x + y).toInt = (x.toInt + y.toInt).bmod 65536 := Int16.toInt_add x y
  have hu : (x + y + c).toInt = (c.toInt + x.toInt + y.toInt).bmod 65536 := by
    rw [Int16.toInt_add, Int16.toInt_add, Int.bmod_add_bmod]
    congr 1
    ring
  have hlow := int16_and_low (x + y + c)
  rw [Int.bmod_def] at hu
  refine ⟨_, _, rfl, ?_, ?_⟩
  · rw [hlow]
    clear * -
    omega
  · have h0 : (0 : Int16).toInt = 0 := rfl
    have h1 : (1 : Int16).toInt = 1 := rfl
    change 0 ≤ (if x + y + c < 0 then (1 : Int16) else 0).toInt ∧
      (if x + y + c < 0 then (1 : Int16) else 0).toInt ≤ 1 ∧ _ =
        ((x + y + c) &&& 0o77777).toInt + 32768 * (if x + y + c < 0 then (1 : Int16) else 0).toInt
    rw [hlow, one_mul]
    by_cases hneg : x + y + c < 0
    · rw [if_pos hneg, h1]
      rw [Int16.lt_iff_toInt_lt, h0] at hneg
      split at hu <;> omega
    · rw [if_neg hneg, h0]
      rw [Int16.lt_iff_toInt_lt, h0] at hneg
      split at hu <;> omega

theorem dsbLoop_spec {f : Int16 → Int16 → Int16 → Option (Int16 × Int16)} {k lo hi : Int}
    (hf : Steps f k lo hi) {a b off : Nat} (hab : a ≠ b) (as ys : List Int16)
    (hlen : as.length = ys.length) (has : Limbs as) (hys : Limbs ys) {j : Nat} {c : Int16} {h : Heap}
    {pre rest : List (Option Int16)} (hpre : pre.length = off + j)
    (ha : ∀ i (hi : i < as.length), h.read a (j + i) = some as[i])
    (hb : h.blocks b = some (pre ++ (ys.map some ++ rest))) (hc0 : lo ≤ c.toInt)
    (hc1 : c.toInt ≤ hi) :
    ∃ rs c' h', dsbLoop f a b off as.length j c h = some (c', h') ∧ rs.length = ys.length ∧
      Limbs rs ∧ lo ≤ c'.toInt ∧ c'.toInt ≤ hi ∧
      value rs + 32768 ^ ys.length * c'.toInt = c.toInt + k * value as + value ys ∧
      Sets h h' b (pre ++ (rs.map some ++ rest)) := by
  induction as generalizing ys j c h pre with
  | nil =>
    obtain rfl : ys = [] := List.length_eq_zero_iff.mp hlen.symm
    refine ⟨[], c, h, rfl, rfl, hys, hc0, hc1, by simp [value, ints, valL], rfl, ?_⟩
    rw [← hb, Function.update_eq_self]
  | cons x as ih =>
    cases ys with
    | nil => cases hlen
    | cons y ys =>
      obtain ⟨hx, has'⟩ := digits_cons.mp has
      obtain ⟨hy, hys'⟩ := digits_cons.mp hys
      obtain ⟨low, c', hstep, hlow, hc0', hc1', heq⟩ := hf c x y hc0 hc1 hx hy
      have hreada : h.read a j = some x := ha 0 (Nat.succ_pos _)
      have hreadb : h.read b (off + j) = some y := by
        unfold Heap.read
        rw [hb, ← hpre]
        simp
      obtain ⟨h₁, hw, hset⟩ := write_spec hb low
      rw [hpre] at hw
      have hcells : h₁.blocks b = some ((pre ++ [some low]) ++ (ys.map some ++ rest)) := by
        rw [hset.self, List.append_assoc]
        rfl
      obtain ⟨rs, c'', h', hrun, hrs, hlrs, hc0'', hc1'', hval, hset'⟩ := ih ys
        (Nat.succ.inj hlen) has' hys' (j := j + 1) (by rw [List.length_append, hpre]; rfl)
        (fun i hi => by
          have := ha (i + 1) (Nat.succ_lt_succ hi)
          unfold Heap.read at this ⊢
          rw [hset.other hab, Nat.add_assoc, Nat.add_comm 1 i]
          exact this)
        hcells hc0' hc1'
      refine ⟨low :: rs, c'', h', ?_, by rw [List.length_cons, hrs]; rfl,
        digits_cons.mpr ⟨hlow, hlrs⟩, hc0'', hc1'', ?_, ?_⟩
      · rw [List.length_cons, dsbLoop, hreada]
        simp only [Option.bind_eq_bind, Option.bind_some, hreadb, hstep, hw]
        exact hrun
      · have h1 : value (low :: rs) = low.toInt + 32768 * value rs := rfl
        have h2 : value (x :: as) = x.toInt + 32768 * value as := rfl
        have h3 : value (y :: ys) = y.toInt + 32768 * value ys := rfl
        rw [h1, h2, h3, List.length_cons, pow_succ]
        linear_combination 32768 * hval - heq
      · have := hset.trans hset'
        simpa using this

/-- A multiple of `p` between numbers that differ by less. -/
theorem eq_zero_of_window {p x y z : Int} (hy0 : 0 ≤ y) (hy : y < p) (hz0 : 0 ≤ z) (hz : z < p)
    (heq : y = z + p * x) : x = 0 := by
  have hp : 0 < p := by omega
  by_contra hne
  rcases lt_or_gt_of_ne hne with hneg | hpos
  · have : p * x ≤ p * (-1) := mul_le_mul_of_nonneg_left (by omega) hp.le
    omega
  · have : p * 1 ≤ p * x := mul_le_mul_of_nonneg_left (by omega) hp.le
    omega

/-- `m_dsb` with a digit that is right or one too large. -/
theorem m_dsb_spec {q t : Int16} (hq : IsLimb q.toInt) (ht : IsLimb t.toInt) {a b off : Nat}
    (hab : a ≠ b) (vs us : List Int16) (hlen : vs.length = us.length) (hvs : Limbs vs)
    (hus : Limbs us) {h : Heap} {pre rest : List (Option Int16)} (hpre : pre.length = off)
    (ha : ∀ i (hi : i < vs.length), h.read a i = some vs[i])
    (hb : h.blocks b = some (pre ++ (us.map some ++ some t :: rest)))
    (hlow : (q.toInt - 1) * value vs ≤ value us + 32768 ^ us.length * t.toInt)
    (hhigh : value us + 32768 ^ us.length * t.toInt < (q.toInt + 1) * value vs) :
    ∃ back h' rs t', m_dsb q vs.length a b off h = some (back, h') ∧ rs.length = us.length ∧
      Limbs rs ∧ value rs < value vs ∧
      value us + 32768 ^ us.length * t.toInt =
        (if back then q.toInt - 1 else q.toInt) * value vs + value rs ∧
      (back = true → 1 ≤ q.toInt) ∧ Sets h h' b (pre ++ (rs.map some ++ some t' :: rest)) := by
  have hv := hvs.lt
  rw [hlen] at hv
  have hv0 : 0 ≤ value vs := hvs.nonneg
  obtain ⟨rs, c, h₁, hloop, hrs, hlrs, hc0, hc1, hval, hset⟩ :=
    dsbLoop_spec (subLimb_steps hq) hab vs us hlen hvs hus (j := 0) (c := 0) (by rw [hpre]; rfl)
      (fun i hi => by rw [Nat.zero_add]; exact ha i hi) hb (by decide) (by decide)
  have h0 : (0 : Int16).toInt = 0 := rfl
  unfold IsLimb at hq ht
  have hx : (c + t).toInt = c.toInt + t.toInt := add_toInt (by omega) (by omega)
  have hrs0 := hlrs.nonneg
  have hrs1 := hlrs.lt
  rw [hrs] at hrs1
  -- the limb above the window
  have hcells : h₁.blocks b = some ((pre ++ rs.map some) ++ some t :: rest) := by
    rw [hset.self, List.append_assoc]
  have hoff : (pre ++ rs.map some).length = off + vs.length := by
    rw [List.length_append, List.length_map, hpre, hrs, hlen]
  have hread : h₁.read b (off + vs.length) = some t := by
    unfold Heap.read
    rw [hcells, ← hoff]
    simp
  obtain ⟨h₂, hw, hset₂⟩ := write_spec hcells (Int16.ofInt ((c + t).toInt % 32768))
  rw [hoff] at hw
  have hsets := hset.trans hset₂
  rw [List.append_assoc] at hsets
  have hrem : value us + 32768 ^ us.length * t.toInt - q.toInt * value vs =
      value rs + 32768 ^ us.length * (c + t).toInt := by
    rw [hx]
    linear_combination -hval - h0
  unfold m_dsb
  simp only [hloop, hread, hw, Option.bind_eq_bind, Option.bind_some, Option.pure_def]
  by_cases hpos : (c + t).toInt / 32768 = 0
  · rw [if_pos hpos]
    have hx0 : 0 ≤ (c + t).toInt := by omega
    have hprod : 0 ≤ 32768 ^ us.length * (c + t).toInt := mul_nonneg (by positivity) hx0
    have hzero : (c + t).toInt = 0 := by
      refine eq_zero_of_window (y := value us + 32768 ^ us.length * t.toInt - q.toInt * value vs)
        (by omega) ?_ hrs0 hrs1 hrem
      have : (q.toInt + 1) * value vs = q.toInt * value vs + value vs := by ring
      clear * - hhigh hv this
      omega
    rw [hzero, mul_zero, add_zero] at hrem
    refine ⟨false, h₂, rs, _, rfl, hrs, hlrs, ?_, ?_, fun hb => absurd hb (by decide), hsets⟩
    · have : (q.toInt + 1) * value vs = q.toInt * value vs + value vs := by ring
      omega
    · change _ = q.toInt * value vs + value rs
      clear * - hrem
      omega
  · rw [if_neg hpos]
    have hx0 : (c + t).toInt ≤ -1 := by omega
    have hprod : 32768 ^ us.length * (c + t).toInt ≤ 32768 ^ us.length * (-1) :=
      mul_le_mul_of_nonneg_left hx0 (by positivity)
    have hpred : (q.toInt - 1) * value vs = q.toInt * value vs - value vs := by ring
    have hcells₂ : h₂.blocks b = some (pre ++ (rs.map some ++
        some (Int16.ofInt ((c + t).toInt % 32768)) :: rest)) := hsets.self
    have ha₂ : ∀ i (hi : i < vs.length), h₂.read a (0 + i) = some vs[i] := fun i hi => by
      rw [Nat.zero_add]
      have := ha i hi
      unfold Heap.read at this ⊢
      rw [hsets.other hab]
      exact this
    obtain ⟨rs', c', h₃, hloop', hrs', hlrs', -, -, hval', hset'⟩ :=
      dsbLoop_spec addLimb_steps hab vs rs (hlen.trans hrs.symm) hvs hlrs (j := 0) (c := 0)
        (by rw [hpre]; rfl) ha₂ hcells₂ (by decide) (by decide)
    rw [hrs] at hrs' hval'
    have hrs0' := hlrs'.nonneg
    have hrs1' := hlrs'.lt
    rw [hrs'] at hrs1'
    have hsum : value us + 32768 ^ us.length * t.toInt - (q.toInt - 1) * value vs =
        value rs' + 32768 ^ us.length * ((c + t).toInt + c'.toInt) := by
      linear_combination hrem - hval' - h0
    have hzero : (c + t).toInt + c'.toInt = 0 :=
      eq_zero_of_window (sub_nonneg.mpr hlow) (by omega) hrs0' hrs1' hsum
    rw [hzero, mul_zero, add_zero] at hsum
    simp only [hloop', Option.bind_some]
    refine ⟨true, h₃, rs', _, rfl, hrs', hlrs', by omega, ?_, fun _ => ?_, hsets.trans hset'⟩
    · change _ = (q.toInt - 1) * value vs + value rs'
      clear * - hsum
      omega
    · by_contra hcon
      have hq0 : q.toInt = 0 := by omega
      have hus0 := hus.nonneg
      have ht0 : 0 ≤ 32768 ^ us.length * t.toInt := mul_nonneg (by positivity) ht.1
      rw [hq0, zero_mul] at hrem
      clear * - hrs1 hrem hprod hus0 ht0
      omega

end Venix.Libmp
