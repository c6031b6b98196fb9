/-
  Division of signed numbers.

  `mdiv` and `sdiv` divide the magnitudes and give the sign of the quotient to the remainder too, so
  the quotient is the truncated one, and the remainder has the wrong sign for a negative divisor
  (`mdiv_gives`, `sdiv_gives`). `mdiv_sdiv_iff` is the result.
-/
import Venix.Libmp.MdivRun

namespace Venix.Libmp

open Venix.Lib

/-! ## Signs -/

/-- The remainder that is left. -/
def remainder (va vb : Int) : Int := if vb < 0 then -va.tmod vb else va.tmod vb

/-- The quotient and the remainder of the magnitudes, with the sign that they get. -/
theorem signed_quotient {va vb q r : Int} (hval : |va| = q * |vb| + r) (hr0 : 0 ≤ r)
    (hr1 : r < |vb|) :
    (if (decide (va < 0) != decide (vb < 0)) then -q else q) = va.tdiv vb ∧
      (if (decide (va < 0) != decide (vb < 0)) then -r else r) = remainder va vb := by
  have hb : vb ≠ 0 := by
    rintro rfl
    rw [abs_zero] at hr1
    omega
  have hmag : |va|.tdiv |vb| = q ∧ |va|.tmod |vb| = r := by
    have hdiv := Int.tdiv_eq_ediv_of_nonneg (b := |vb|) (abs_nonneg va)
    have hmod := Int.tmod_eq_emod_of_nonneg (b := |vb|) (abs_nonneg va)
    have hsum : r + |vb| * q = |va| := by
      rw [hval]
      ring
    obtain ⟨h1, h2⟩ := (Int.ediv_emod_unique (abs_pos.mpr hb)).mpr ⟨hsum, hr0, hr1⟩
    exact ⟨hdiv.trans h1, hmod.trans h2⟩
  obtain ⟨rfl, rfl⟩ := hmag
  unfold remainder
  by_cases ha0 : va < 0
  · by_cases hb0 : vb < 0
    · simp [ha0, hb0, abs_of_neg ha0, abs_of_neg hb0]
    · simp [ha0, hb0, abs_of_neg ha0, abs_of_nonneg (not_lt.mp hb0)]
  · by_cases hb0 : vb < 0
    · simp [ha0, hb0, abs_of_nonneg (not_lt.mp ha0), abs_of_neg hb0]
    · simp [ha0, hb0, abs_of_nonneg (not_lt.mp ha0), abs_of_nonneg (not_lt.mp hb0)]

theorem abs_remainder_lt (va : Int) {vb : Int} (hb : vb ≠ 0) : |remainder va vb| < |vb| := by
  have h : |va.tmod vb| < |vb| := by
    rw [Int.abs_eq_natAbs, Int.abs_eq_natAbs, Int.natAbs_tmod]
    exact_mod_cast Nat.mod_lt _ (Int.natAbs_pos.mpr hb)
  unfold remainder
  split
  · rwa [abs_neg]
  · exact h

/-- The division identity holds for a positive divisor, and where nothing is left. -/
theorem identity_iff {va vb : Int} (hb : vb ≠ 0) :
    va = va.tdiv vb * vb + remainder va vb ↔ 0 < vb ∨ vb ∣ va := by
  have hid := Int.tdiv_mul_add_tmod va vb
  unfold remainder
  by_cases hb0 : vb < 0
  · rw [if_pos hb0, Int.dvd_iff_tmod_eq_zero]
    omega
  · rw [if_neg hb0]
    exact ⟨fun _ => Or.inl (by omega), fun _ => hid.symm⟩

/-- The sign of the length of a magnitude. -/
theorem IsNum.signed {h : Heap} {m : Mint} {v : Int} (hm : IsNum h m v) (negative : Bool) :
    IsNum h ⟨if negative then -m.len else m.len, m.val⟩ (if negative then -v else v) := by
  cases negative with
  | false => exact hm
  | true => exact hm.neg

theorem natAbs_signed {x : Int16} (hx : -32768 < x.toInt) (negative : Bool) :
    (if negative then -x else x).toInt.natAbs = x.toInt.natAbs := by
  cases negative with
  | false => rfl
  | true =>
    rw [if_pos rfl, neg_toInt hx, Int.natAbs_neg]

/-! ## `sdiv` -/

/-- `-n` or `n`. -/
def absolute (n : Int16) : Int16 := if n < 0 then -n else n

theorem absolute_toInt {n : Int16} (hn : n ≠ -32768) : (absolute n).toInt = |n.toInt| := by
  have h0 : (0 : Int16).toInt = 0 := rfl
  have hmin : n.toInt ≠ -32768 := fun h => hn (Int16.toInt_inj.mp h)
  have := n.le_toInt
  unfold absolute
  by_cases hneg : n < 0
  · rw [if_pos hneg]
    rw [Int16.lt_iff_toInt_lt, h0] at hneg
    rw [neg_toInt (by omega), abs_of_neg hneg]
  · rw [if_neg hneg]
    rw [Int16.lt_iff_toInt_lt, h0] at hneg
    rw [abs_of_nonneg (by omega)]

theorem sdiv_eq (busy : Int16) (a q : Mint) (n : Int16) (h : Heap) :
    sdiv busy a n q h = (s_div busy (magnitude a) (absolute n) h).bind fun out =>
      (xfree q out.2.2).bind fun h' => some
        (⟨if decide (a.len < 0) != decide (n < 0) then -out.1.len else out.1.len, out.1.val⟩,
          if decide (a.len < 0) != decide (n < 0) then -out.2.1 else out.2.1, h') := by
  have h3 : (- -1 : Int16) = 1 := by decide
  unfold sdiv magnitude absolute
  by_cases ha : a.len < 0
  · by_cases hn : n < 0
    · simp only [ha, hn, if_true, h3, Int16.one_mul, Int16.mul_one, decide_true, bne_self_eq_false,
        Bool.false_eq_true, if_false]
      rfl
    · simp only [ha, hn, if_true, if_false, Int16.mul_neg, Int16.mul_one, Int16.neg_mul,
        Int16.one_mul, decide_true, decide_false, Bool.bne_false]
      rfl
  · by_cases hn : n < 0
    · simp only [ha, hn, if_true, if_false, Int16.mul_neg, Int16.mul_one, Int16.neg_mul,
        Int16.one_mul, decide_true, decide_false, Bool.bne_true, Bool.not_false]
      rfl
    · simp only [ha, hn, if_false, Int16.one_mul, Int16.mul_one, decide_false, bne_self_eq_false,
        Bool.false_eq_true]
      rfl

/-- `sdiv` by any number but 0 and -32768, also into the dividend itself. -/
theorem sdiv_gives {busy : Int16} (hbusy : busy ≠ 0) {n : Int16} (hn : n ≠ 0) (hmin : n ≠ -32768)
    {a q : Mint} {va : Int} {h : Heap} (ha : IsNum h a va) (hlen : a.len.toInt.natAbs ≤ 32765)
    (hq : Owned h q) :
    ∃ y r h', sdiv busy a n q h = some (y, r, h') ∧ IsNum h' y (va.tdiv n.toInt) ∧
      r.toInt = remainder va n.toInt ∧ Frame h h' q ∧ h.next ≤ y.val := by
  have h0 : (0 : Int16).toInt = 0 := rfl
  have hn0 : n.toInt ≠ 0 := fun h => hn (Int16.toInt_inj.mp h)
  obtain ⟨la, hla, hca, hva, hlena⟩ := ha.magnitude
  obtain ⟨y, r, h₁, lq, hrun, hy, hcq, hval, hr0, hr1, hg, hyval, -⟩ :=
    s_div_spec hbusy (n := absolute n) (by rw [absolute_toInt hmin]; exact abs_pos.mpr hn0) hla
      (by omega)
  rw [absolute_toInt hmin, hva] at hval
  rw [absolute_toInt hmin] at hr1
  obtain ⟨hquot, hrem⟩ := signed_quotient hval hr0 hr1
  obtain ⟨h₂, hx, hframe, hsame⟩ := xfree_spec hg hq
  have hnum : IsNum h₂ y (value lq) := (hy.isNum (hcq hca)).grows fun _ => hsame _ (by omega)
  have hnn : decide (n < 0) = decide (n.toInt < 0) := by
    rw [decide_eq_decide, Int16.lt_iff_toInt_lt, h0]
  refine ⟨⟨if decide (a.len < 0) != decide (n < 0) then -y.len else y.len, y.val⟩,
    if decide (a.len < 0) != decide (n < 0) then -r else r, h₂, ?_, ?_, ?_, hframe, hyval.ge⟩
  · rw [sdiv_eq, hrun, Option.bind_some, hx]
    rfl
  · rw [← hquot, ha.len_neg, hnn]
    exact hnum.signed _
  · rw [← hrem, ha.len_neg, hnn]
    split
    · exact neg_toInt (by omega)
    · rfl

/-! ## -32768, which has no magnitude -/

theorem write_blocks {h h' : Heap} {p i : Nat} {x : Int16} (hw : h.write p i x = some h') :
    ∃ l, h.blocks p = some l ∧ i < l.length ∧ h'.blocks p = some (l.set i (some x)) ∧
      ∀ q ≠ p, h'.blocks q = h.blocks q := by
  unfold Heap.write at hw
  split at hw
  · cases hw
  · next l hl =>
    split at hw
    · next hi =>
      cases hw
      exact ⟨l, hl, hi, Function.update_self _ _ _, fun q hq => Function.update_of_ne hq _ _⟩
    · cases hw

theorem write_other {h h' : Heap} {p i j : Nat} {x : Int16} (hw : h.write p i x = some h')
    (hj : j ≠ i) : h'.read p j = h.read p j := by
  obtain ⟨l, hl, -, hl', -⟩ := write_blocks hw
  unfold Heap.read
  simp only [hl, hl', Option.bind_eq_bind, Option.bind_some, List.getElem?_set_ne hj.symm]

theorem write_read {h h' : Heap} {p i : Nat} {x : Int16} (hw : h.write p i x = some h') :
    h'.read p i = some x := by
  obtain ⟨l, -, hi, hl', -⟩ := write_blocks hw
  unfold Heap.read
  simp only [hl', Option.bind_eq_bind, Option.bind_some, List.getElem?_set_self hi]

/-- The limbs from `i` on are not touched any more. -/
theorem s_divLoop_above {a : Mint} {n : Int16} {qval : Nat} (i : Nat) {x y : Int} {h h' : Heap}
    (hrun : s_divLoop a n qval i x h = some (y, h')) {j : Nat} (hj : i ≤ j) :
    h'.read qval j = h.read qval j := by
  induction i generalizing x h with
  | zero =>
    cases hrun
    rfl
  | succ i ih =>
    obtain ⟨v, -, hrun⟩ := Option.bind_eq_some_iff.mp hrun
    obtain ⟨t, -, hrun⟩ := Option.bind_eq_some_iff.mp hrun
    obtain ⟨x', -, hrun⟩ := Option.bind_eq_some_iff.mp hrun
    split at hrun
    · cases hrun
    · obtain ⟨h₁, hw, hrun⟩ := Option.bind_eq_some_iff.mp hrun
      rw [ih hrun (by omega), write_other hw (by omega)]

/-- A limb, divided by -32768: the limb before it is the quotient, with the wrong sign. -/
theorem s_divLoop_min {a : Mint} {qval i : Nat} {x : Int} {v : Int16} {out : Int × Heap} {h : Heap}
    (hx : IsLimb x) (hv : IsLimb v.toInt) (hread : h.read a.val i = some v)
    (hrun : s_divLoop a (-32768) qval (i + 1) x h = some out) :
    ∃ h₁, h.write qval i (Int16.ofInt (-x)) = some h₁ ∧
      s_divLoop a (-32768) qval i v.toInt h₁ = some out := by
  obtain ⟨hx0, hx1⟩ := hx
  obtain ⟨hv0, hv1⟩ := hv
  have hn : (-32768 : Int16).toInt = -32768 := rfl
  have hn0 : ¬(-32768 : Int16) = 0 := by decide
  have hdiv : (x * 32768 + v.toInt).tdiv (-32768) = -x := by
    rw [Int.tdiv_neg, Int.tdiv_eq_ediv_of_nonneg (by omega)]
    omega
  have hmod : (x * 32768 + v.toInt).tmod (-32768) = v.toInt := by
    rw [Int.tmod_neg, Int.tmod_eq_emod_of_nonneg (by omega)]
    omega
  rw [s_divLoop, hread, Option.bind_eq_bind, Option.bind_some, long_eq (by omega) (by omega),
    Option.bind_eq_bind, Option.bind_some, long_eq (by omega) (by omega), Option.bind_eq_bind,
    Option.bind_some, if_neg hn0, hn, hdiv, hmod] at hrun
  exact Option.bind_eq_some_iff.mp hrun

/-- What a call of `s_div` that comes back has done. -/
theorem s_div_run {busy n r : Int16} {a y : Mint} {h h' : Heap}
    (hrun : s_div busy a n h = some (y, r, h')) :
    ∃ x h₁ top, s_divLoop a n h.next (turns a.len) 0 (h.xalloc a.len).2 = some (x, h₁) ∧
      (if turns a.len = 0 then some busy else h₁.read h.next (turns a.len - 1)) = some top ∧
      y = ⟨if top = 0 then a.len - 1 else a.len, h.next⟩ ∧ r = Int16.ofInt x ∧
      (if (if top = 0 then a.len - 1 else a.len) = 0 then h₁.free h.next else some h₁) = some h' := by
  unfold s_div at hrun
  obtain ⟨⟨x, h₁⟩, hloop, hrun⟩ := Option.bind_eq_some_iff.mp hrun
  obtain ⟨top, htop, hrun⟩ := Option.bind_eq_some_iff.mp hrun
  obtain ⟨h₂, hfree, hrun⟩ := Option.bind_eq_some_iff.mp hrun
  cases hrun
  exact ⟨x, h₁, top, hloop, htop, rfl, rfl, hfree⟩

theorem IsNum.eq_zero {h : Heap} {m : Mint} {v : Int} (hm : IsNum h m v) (hlen : m.len = 0) :
    v = 0 := by
  have h1 := hm.len_nonneg.mp (by rw [hlen]; exact Int16.le_refl 0)
  have h2 := hm.len_nonpos.mp (by rw [hlen]; exact Int16.le_refl 0)
  omega

/-- The limbs of a number are not negative. -/
theorem IsNum.top_nonneg {h : Heap} {m : Mint} {v : Int} (hm : IsNum h m v) {n : Nat}
    (hlen : m.len.toInt.natAbs = n + 1) {x : Int16} (hread : h.read m.val n = some x) :
    0 ≤ x.toInt := by
  obtain ⟨l, hl, -, -, hholds, hval⟩ := hm
  have hn : n < l.length := by omega
  have hne : l ≠ [] := List.length_pos_iff.mp (by omega)
  rw [(hholds hne).read hn] at hread
  cases hread
  exact (hl.get hn).1

/-- The quotient by -32768 has a limb that is negative, or a remainder of the wrong sign. -/
theorem sdiv_min {busy r : Int16} {a q y : Mint} {va w : Int} {h h' : Heap} (ha : IsNum h a va)
    (hva : va ≠ 0) (hfa : Fits a) (hq : Owned h q)
    (hrun : sdiv busy a (-32768) q h = some (y, r, h')) (hy : IsNum h' y w) :
    va ≠ w * (-32768) + r.toInt := by
  obtain ⟨la, hla, hca, hval, hlen⟩ := ha.magnitude
  unfold Fits at hfa
  have hneg : decide ((-32768 : Int16) < 0) = true := by decide
  have habs : absolute (-32768) = -32768 := by decide
  rw [sdiv_eq, habs] at hrun
  obtain ⟨⟨y', r', h₂⟩, hdiv, hrun⟩ := Option.bind_eq_some_iff.mp hrun
  obtain ⟨h₃, hfree, hrun⟩ := Option.bind_eq_some_iff.mp hrun
  obtain ⟨x, h₁, top, hloop, htop, rfl, rfl, hfree'⟩ := s_div_run hdiv
  simp only [Option.some.injEq, Prod.mk.injEq] at hrun
  obtain ⟨rfl, rfl, rfl⟩ := hrun
  rw [hla.turns] at hloop htop
  obtain ⟨h₀, hal, hg, -, -⟩ := xalloc_spec hla.len (h := h) (by omega)
  rw [hal] at hloop
  have hread := fun i (hi : i < la.length) => (hla.grows hg).read hi
  have hlimb := fun i (hi : i < la.length) => hla.limbs.get hi
  have hne : la ≠ [] := by
    rintro rfl
    exact hva (abs_eq_zero.mp hval.symm)
  obtain ⟨k, hk⟩ : ∃ k, la.length = k + 1 := ⟨la.length - 1, by
    have := List.length_pos_iff.mpr hne
    omega⟩
  have hpos : 0 < la[k].toInt := by
    refine hca _ ?_
    rw [List.getLast?_eq_getElem?, show la.length - 1 = k by omega,
      List.getElem?_eq_getElem (by omega)]
    rfl
  -- the highest limb of the quotient is 0
  rw [hk] at hloop htop
  obtain ⟨h₄, hw, hloop⟩ := s_divLoop_min ⟨le_refl 0, by decide⟩ (hlimb k (by omega))
    (hread k (by omega)) hloop
  have htop0 : top = 0 := by
    rw [if_neg (Nat.succ_ne_zero k), Nat.add_sub_cancel, s_divLoop_above k hloop (le_refl k),
      write_read hw] at htop
    exact (Option.some.inj htop).symm
  have hmlen := hla.len
  rw [hk] at hmlen
  have hqlen : ((magnitude a).len - 1).toInt = k := by
    rw [sub_one_toInt (by omega), hmlen]
    omega
  rw [if_pos htop0] at hy hfree'
  rcases k with _ | k
  · -- one limb: the quotient is 0
    have hzero : (magnitude a).len - 1 = 0 := Int16.toInt_inj.mp hqlen
    have hw0 : w = 0 := hy.eq_zero (by rw [hzero]; split <;> rfl)
    have hx : x = la[0].toInt := by
      cases hloop
      rfl
    have hone : value la = la[0].toInt := by
      obtain ⟨c, rfl⟩ := List.length_eq_one_iff.mp hk
      simp [value, ints, valL]
    have hxr : (Int16.ofInt x).toInt = la[0].toInt := by
      rw [hx, ofInt_toInt (by omega) (hlimb 0 (by omega)).2]
    rw [hw0, ha.len_neg, hneg]
    by_cases hva0 : va < 0
    · rw [abs_of_neg hva0] at hval
      simp only [hva0, decide_true, bne_self_eq_false, Bool.false_eq_true, if_false]
      omega
    · rw [abs_of_nonneg (not_lt.mp hva0)] at hval
      simp only [hva0, decide_false, Bool.bne_true, Bool.not_false, if_true]
      rw [neg_toInt (by omega)]
      omega
  · -- the limb below it is that of the number, with the wrong sign
    exfalso
    obtain ⟨-, -, -, -, hother⟩ := write_blocks hw
    have hlow : h₄.read (magnitude a).val k = some la[k] := by
      have hlt := (hla.cells hne).lt
      have := hread k (by omega)
      unfold Heap.read at this ⊢
      rwa [hother _ hlt.ne]
    obtain ⟨h₅, hw', hloop⟩ := s_divLoop_min (hlimb (k + 1) (by omega)) (hlimb k (by omega)) hlow hloop
    have hqne : ¬(magnitude a).len - 1 = 0 := by
      intro e
      rw [e] at hqlen
      have h0 : (0 : Int16).toInt = 0 := rfl
      omega
    rw [if_neg hqne] at hfree'
    cases hfree'
    have hsame : h₃.read h.next k = h₂.read h.next k := by
      unfold xfree at hfree
      split at hfree
      · cases hfree
        rfl
      · next hqlen0 =>
        have hlt := hq.lt hqlen0
        unfold Heap.read
        rw [(free_other hfree).2 _ (by omega)]
    have htop := hy.top_nonneg (n := k) ((natAbs_signed (by omega) _).trans (by omega))
      (hsame.trans ((s_divLoop_above k hloop (le_refl k)).trans (write_read hw')))
    rw [ofInt_toInt (by have := (hlimb (k + 1) (by omega)).2; omega) (by omega)] at htop
    omega

/-- Zero by any number. -/
theorem sdiv_zero {busy : Int16} (hbusy : busy ≠ 0) (n : Int16) {a q : Mint} {h : Heap}
    (ha : IsNum h a 0) (hq : Owned h q) :
    ∃ y h', sdiv busy a n q h = some (y, 0, h') ∧ IsNum h' y 0 ∧ Frame h h' q ∧ h.next ≤ y.val := by
  have hlen := ha.len_zero
  have hm : magnitude a = a := by
    unfold magnitude
    rw [if_neg (by rw [hlen]; decide)]
  have hrep : Rep h a [] :=
    ⟨by rw [hlen]; rfl, fun hne => absurd rfl hne, by simp [Limbs, ints, Digits]⟩
  obtain ⟨y, r, h₁, lq, hrun, hy, hcq, hval, hr0, hr1, hg, hyval, -⟩ :=
    s_div_spec hbusy (n := 1) (by decide) hrep (Nat.zero_le _)
  -- the loop makes no turn
  have hsame : s_div busy a (absolute n) h = s_div busy a 1 h := by
    unfold s_div
    rw [hlen]
    rfl
  have h1 : (1 : Int16).toInt = 1 := rfl
  have h0 : value [] = 0 := rfl
  rw [h1] at hval hr1
  rw [h0] at hval
  have hr : r = 0 := eq_zero_of_toInt (by omega)
  have hnum : IsNum h₁ y 0 := by
    have := hy.isNum (hcq (by simp [Canon]))
    rwa [show value lq = 0 by omega] at this
  obtain ⟨h₂, hx, hframe, hother⟩ := xfree_spec hg hq
  refine ⟨⟨if decide (a.len < 0) != decide (n < 0) then -y.len else y.len, y.val⟩, h₂, ?_, ?_,
    hframe, hyval.ge⟩
  · rw [sdiv_eq, hm, hsame, hrun, Option.bind_some, hx, Option.bind_some, hr]
    simp only [Int16.neg_zero, ite_self]
  · have hnum₂ : IsNum h₂ y 0 := hnum.grows fun _ => hother _ (by omega)
    have := hnum₂.signed (decide (a.len < 0) != decide (n < 0))
    rwa [neg_zero, ite_self] at this

/-! ## `mdiv` -/

theorem mdiv_eq (fuel : Nat) (busy : Int16) (a b q r : Mint) (h : Heap) :
    mdiv fuel busy a b q r h = (xfree q h).bind fun h => (xfree r h).bind fun h =>
      (m_div fuel busy (magnitude a) (magnitude b) ⟨0, q.val⟩ h).bind fun out => some
        (⟨if decide (a.len < 0) != decide (b.len < 0) then -out.1.len else out.1.len, out.1.val⟩,
          ⟨if decide (a.len < 0) != decide (b.len < 0) then -out.2.1.len else out.2.1.len,
            out.2.1.val⟩, out.2.2) := by
  have h1 : ¬(1 : Int16) = -1 := by decide
  have h3 : (- -1 : Int16) = 1 := by decide
  unfold mdiv magnitude
  by_cases ha : a.len < 0
  · by_cases hb : b.len < 0
    · simp only [ha, hb, if_true, h3, h1, decide_true, bne_self_eq_false, Bool.false_eq_true,
        if_false]
      rfl
    · simp only [ha, hb, if_true, if_false, decide_true, decide_false, Bool.bne_false]
      rfl
  · by_cases hb : b.len < 0
    · simp only [ha, hb, if_true, if_false, decide_true, decide_false, Bool.bne_true, Bool.not_false]
      rfl
    · simp only [ha, hb, h1, if_false, decide_false, bne_self_eq_false, Bool.false_eq_true]
      rfl

/-- What `mdiv` leaves of the heap `h`: the old blocks but those of `q` and `r`, and new ones for the
quotient and the remainder. -/
structure Parts (h h' : Heap) (q r q' r' : Mint) : Prop where
  next : h.next ≤ h'.next
  old : ∀ p < h.next, (q.len ≠ 0 → p ≠ q.val) → (r.len ≠ 0 → p ≠ r.val) → h'.blocks p = h.blocks p
  quotient : q'.len ≠ 0 → h.next ≤ q'.val ∧ q'.val ≠ r'.val
  rest : h.next ≤ r'.val

/-- `mdiv` of any numbers, into objects that are neither of them. -/
theorem mdiv_gives {fuel : Nat} (hfuel : 3 ≤ fuel) {busy : Int16} (hbusy : busy ≠ 0)
    {a b q r : Mint} {va vb : Int} {h : Heap} (ha : IsNum h a va) (hb : IsNum h b vb) (hfa : Fits a)
    (hfb : Fits b) (hvb : vb ≠ 0) (hap : Apart h a b q r) :
    ∃ q' r' h', mdiv fuel busy a b q r h = some (q', r', h') ∧ IsNum h' q' (va.tdiv vb) ∧
      IsNum h' r' (remainder va vb) ∧ Parts h h' q r q' r' := by
  obtain ⟨h₁, hx₁, hf₁, -⟩ := xfree_spec (Grows.refl h) hap.ownedq
  have howned₁ : Owned h₁ r := fun hr => by
    obtain ⟨cells, hcells⟩ := hap.ownedr hr
    exact ⟨cells, by rw [hf₁.old _ (hap.ownedr.lt hr) fun hq => hap.qr hq hr, hcells]⟩
  obtain ⟨h₂, hx₂, hf₂, -⟩ := xfree_spec (Grows.refl h₁) howned₁
  have hnext := hf₁.next.trans hf₂.next
  have hold : ∀ p < h.next, (q.len ≠ 0 → p ≠ q.val) → (r.len ≠ 0 → p ≠ r.val) →
      h₂.blocks p = h.blocks p := fun p hp hq hr => by
    rw [hf₂.old _ (lt_of_lt_of_le hp hf₁.next) hr, hf₁.old _ hp hq]
  obtain ⟨la, hla, hca, hva, hlena⟩ :=
    (ha.grows fun hne => hold _ (ha.owned.lt hne) (hap.aq hne) (hap.ar hne)).magnitude
  obtain ⟨lb, hlb, hcb, hvb', hlenb⟩ :=
    (hb.grows fun hne => hold _ (hb.owned.lt hne) (hap.bq hne) (hap.br hne)).magnitude
  unfold Fits at hfa hfb
  have hne : lb ≠ [] := by
    rintro rfl
    exact hvb (abs_eq_zero.mp hvb'.symm)
  obtain ⟨⟨y, z, h₃, lq, lr, hrun, hlq, hcq, hlr, hcr, hval, hlt, hg⟩, hblocks⟩ :=
    m_div_divides hfuel hbusy hla hlb hca hcb hne (by omega) (by omega) (q := ⟨0, q.val⟩) rfl
  obtain ⟨hynew, hznew⟩ := hblocks y z h₃ hrun
  rw [hva, hvb'] at hval
  rw [hvb'] at hlt
  obtain ⟨hquot, hrem⟩ := signed_quotient hval hlr.limbs.nonneg hlt
  have hneg := congrArg₂ bne ha.len_neg hb.len_neg
  refine ⟨⟨if decide (a.len < 0) != decide (b.len < 0) then -y.len else y.len, y.val⟩,
    ⟨if decide (a.len < 0) != decide (b.len < 0) then -z.len else z.len, z.val⟩, h₃, ?_, ?_, ?_,
    ⟨hnext.trans hg.next, fun p hp hq hr => ?_, ?_, ?_⟩⟩
  · rw [mdiv_eq, hx₁, Option.bind_some, hx₂, Option.bind_some, hrun, Option.bind_some]
  · rw [← hquot, ← hneg]
    exact (hlq.isNum hcq).signed _
  · rw [← hrem, ← hneg]
    exact (hlr.isNum hcr).signed _
  · rw [hg.old p (by omega), hold p hp hq hr]
  · dsimp only
    intro hlen
    have hy0 : y.len ≠ 0 := by
      intro e
      rw [e] at hlen
      exact hlen (by split <;> rfl)
    exact ⟨hnext.trans (hynew hy0).1, (hynew hy0).2⟩
  · exact hnext.trans hznew

/-! ## The numbers of a program -/

section Store

variable {Q : Type} [DecidableEq Q]

/-- `mdiv(a,b,q,r)` where all of them are objects of the program. -/
def mdivAt (fuel : Nat) (busy : Int16) (st : Q → Mint) (a b q r : Q) (h : Heap) :
    Option ((Q → Mint) × Heap) :=
  (mdiv fuel busy (st a) (st b) (st q) (st r) h).map fun out =>
    (Function.update (Function.update st q out.1) r out.2.1, out.2.2)

/-- `sdiv(a,n,q,&r)` where `a` and `q` are objects of the program. -/
def sdivAt (busy : Int16) (st : Q → Mint) (a : Q) (n : Int16) (q : Q) (h : Heap) :
    Option ((Q → Mint) × Int16 × Heap) :=
  (sdiv busy (st a) n (st q) h).map fun out => (Function.update st q out.1, out.2.1, out.2.2)

omit [DecidableEq Q] in
/-- The limbs of another object stay. -/
theorem Held.kept_two {h h' : Heap} {st : Q → Mint} (hs : Held h st) {q r o : Q} {q' r' : Mint}
    (hparts : Parts h h' (st q) (st r) q' r') (hor : o ≠ r) (hoq : o ≠ q) (ho : (st o).len ≠ 0) :
    h'.blocks (st o).val = h.blocks (st o).val :=
  hparts.old _ ((hs.owned o).lt ho) (fun hl => hs.own o q hoq ho hl) fun hl => hs.own o r hor ho hl

theorem Held.replaced_two {h h' : Heap} {st : Q → Mint} (hs : Held h st) {q r : Q} (hqr : q ≠ r)
    {q' r' : Mint} (hq : Owned h' q') (hr : Owned h' r')
    (hparts : Parts h h' (st q) (st r) q' r') :
    Held h' (Function.update (Function.update st q q') r r') := by
  have hold : ∀ o, (st o).len ≠ 0 → (st o).val < h.next := fun o => (hs.owned o).lt
  refine ⟨fun o => ?_, ?_⟩
  · by_cases hor : o = r
    · subst hor
      rw [Function.update_self]
      exact hr
    · rw [Function.update_of_ne hor]
      by_cases hoq : o = q
      · subst hoq
        rw [Function.update_self]
        exact hq
      · rw [Function.update_of_ne hoq]
        exact (hs.owned o).kept (hs.kept_two hparts hor hoq)
  · -- the block of an object and the objects whose block it is not
    have hone : ∀ o o', o ≠ o' → o' ≠ r → (o = r ∨ o' ≠ q) →
        (Function.update (Function.update st q q') r r' o).len ≠ 0 →
        (Function.update (Function.update st q q') r r' o').len ≠ 0 →
        (Function.update (Function.update st q q') r r' o).val ≠
          (Function.update (Function.update st q q') r r' o').val := by
      intro o o' hne hor' hcase
      rw [Function.update_of_ne hor' r' (Function.update st q q')]
      by_cases hor : o = r
      · subst hor
        rw [Function.update_self]
        by_cases hoq' : o' = q
        · subst hoq'
          rw [Function.update_self]
          exact fun _ hl => (hparts.quotient hl).2.symm
        · rw [Function.update_of_ne hoq']
          intro _ hl heq
          have h1 := hold o' hl
          have h2 := hparts.rest
          omega
      · rw [Function.update_of_ne hor]
        have hoq' : o' ≠ q := hcase.resolve_left hor
        rw [Function.update_of_ne hoq']
        by_cases hoq : o = q
        · subst hoq
          rw [Function.update_self]
          intro hl hl' heq
          have h1 := hold o' hl'
          have h2 := (hparts.quotient hl).1
          omega
        · rw [Function.update_of_ne hoq]
          exact hs.own o o' hne
    intro o o' hne
    by_cases hor' : o' = r
    · subst hor'
      exact fun hl hl' heq => hone o' o hne.symm hne (Or.inl rfl) hl' hl heq.symm
    · by_cases hoq' : o' = q
      · subst hoq'
        by_cases hor : o = r
        · exact hone o o' hne hor' (Or.inl hor)
        · exact fun hl hl' heq => hone o' o hne.symm hor (Or.inr hne) hl' hl heq.symm
      · exact hone o o' hne hor' (Or.inr hoq')

theorem Store.replaced_two {h h' : Heap} {st : Q → Mint} {v : Q → Int} (hs : Store h st v) {q r : Q}
    (hqr : q ≠ r) {q' r' : Mint} {w z : Int} (hq : IsNum h' q' w) (hr : IsNum h' r' z)
    (hparts : Parts h h' (st q) (st r) q' r') :
    Store h' (Function.update (Function.update st q q') r r')
      (Function.update (Function.update v q w) r z) := by
  refine ⟨fun o => ?_, (hs.held.replaced_two hqr hq.owned hr.owned hparts).own⟩
  by_cases hor : o = r
  · subst hor
    rw [Function.update_self, Function.update_self]
    exact hr
  · rw [Function.update_of_ne hor, Function.update_of_ne hor]
    by_cases hoq : o = q
    · subst hoq
      rw [Function.update_self, Function.update_self]
      exact hq
    · rw [Function.update_of_ne hoq, Function.update_of_ne hoq]
      exact (hs.num o).grows (hs.held.kept_two hparts hor hoq)

variable {h : Heap} {st : Q → Mint} {v : Q → Int} {a b q r : Q}

theorem isNum_empty (h : Heap) (p : Nat) : IsNum h ⟨0, p⟩ 0 :=
  ⟨[], by simp [Limbs, ints, Digits], by simp [Canon], by simp, fun hne => absurd rfl hne,
    Or.inl ⟨rfl, rfl⟩⟩

omit [DecidableEq Q] in
/-- The variables of a call, which are zero at first, beside the objects of the program. -/
theorem Held.locals {L : Type} (hs : Held h st) : Held h (Sum.elim st fun _ : L => z₀) where
  owned q := by
    cases q with
    | inl q => exact hs.owned q
    | inr q => exact owned_z₀ h
  own q q' hne hq hq' := by
    cases q with
    | inl q =>
      cases q' with
      | inl q' => exact hs.own q q' (fun e => hne (congrArg Sum.inl e)) hq hq'
      | inr q' => exact absurd rfl hq'
    | inr q => exact absurd rfl hq

omit [DecidableEq Q] in
theorem Store.locals {L : Type} (hs : Store h st v) :
    Store h (Sum.elim st fun _ : L => z₀) (Sum.elim v fun _ : L => 0) where
  num q := by
    cases q with
    | inl q => exact hs.num q
    | inr q => exact isNum_empty h 0
  own := hs.held.locals.own

omit [DecidableEq Q] in
/-- The blocks of different objects are apart. -/
theorem Held.apart (hs : Held h st) (hqa : q ≠ a) (hqb : q ≠ b) (hra : r ≠ a) (hrb : r ≠ b)
    (hqr : q ≠ r) : Apart h (st a) (st b) (st q) (st r) where
  ownedq := hs.owned q
  ownedr := hs.owned r
  qr hq hr := hs.own r q hqr.symm hr hq
  aq := hs.own a q hqa.symm
  ar := hs.own a r hra.symm
  bq := hs.own b q hqb.symm
  br := hs.own b r hrb.symm

theorem mdivAt_puts {fuel : Nat} (hfuel : 3 ≤ fuel) {busy : Int16} (hbusy : busy ≠ 0)
    (hs : Store h st v) (hfa : Fits (st a)) (hfb : Fits (st b)) (hvb : v b ≠ 0) (hqa : q ≠ a)
    (hqb : q ≠ b) (hra : r ≠ a) (hrb : r ≠ b) (hqr : q ≠ r) :
    ∃ st' h', mdivAt fuel busy st a b q r h = some (st', h') ∧ Store h' st'
      (Function.update (Function.update v q ((v a).tdiv (v b))) r (remainder (v a) (v b))) := by
  obtain ⟨q', r', h', hrun, hq, hr, hparts⟩ := mdiv_gives hfuel hbusy (hs.num a) (hs.num b) hfa hfb
    hvb (hs.held.apart hqa hqb hra hrb hqr)
  refine ⟨_, h', ?_, hs.replaced_two hqr hq hr hparts⟩
  unfold mdivAt
  rw [hrun]
  rfl

/-- `sdiv`, also with the quotient in place of the dividend. -/
theorem sdivAt_puts {busy : Int16} (hbusy : busy ≠ 0) {n : Int16} (hn : n ≠ 0) (hmin : n ≠ -32768)
    (hs : Store h st v) (hfa : Fits (st a)) (q : Q) :
    ∃ st' x h', sdivAt busy st a n q h = some (st', x, h') ∧
      Store h' st' (Function.update v q ((v a).tdiv n.toInt)) ∧
      x.toInt = remainder (v a) n.toInt := by
  obtain ⟨y, x, h', hrun, hy, hx, hframe, hnew⟩ :=
    sdiv_gives hbusy hn hmin (hs.num a) (by unfold Fits at hfa; omega) (hs.num q).owned
  refine ⟨_, x, h', ?_, hs.replaced hy hframe fun _ => hnew, hx⟩
  unfold sdivAt
  rw [hrun]
  rfl

/-- A call of `mdiv` comes back with a quotient and a remainder of `a` and `b`, and the other
numbers as they were. -/
def DivRight (v : Q → Int) (a b q r : Q) (out : Option ((Q → Mint) × Heap)) : Prop :=
  ∃ st' h' w z, out = some (st', h') ∧
    Store h' st' (Function.update (Function.update v q w) r z) ∧ v a = w * v b + z ∧ |z| < |v b|

/-- The same of `sdiv`. -/
def SdivRight (v : Q → Int) (a : Q) (n : Int16) (q : Q)
    (out : Option ((Q → Mint) × Int16 × Heap)) : Prop :=
  ∃ st' x h' w, out = some (st', x, h') ∧ Store h' st' (Function.update v q w) ∧
    v a = w * n.toInt + x.toInt ∧ |x.toInt| < |n.toInt|

theorem mdivAt_iff {fuel : Nat} (hfuel : 3 ≤ fuel) {busy : Int16} (hbusy : busy ≠ 0)
    (hs : Store h st v) (hfa : Fits (st a)) (hfb : Fits (st b)) (hvb : v b ≠ 0) (hqa : q ≠ a)
    (hqb : q ≠ b) (hra : r ≠ a) (hrb : r ≠ b) (hqr : q ≠ r) :
    DivRight v a b q r (mdivAt fuel busy st a b q r h) ↔ 0 < v b ∨ v b ∣ v a := by
  obtain ⟨st', h', hrun, hs'⟩ := mdivAt_puts hfuel hbusy hs hfa hfb hvb hqa hqb hra hrb hqr
  rw [← identity_iff hvb, hrun]
  constructor
  · rintro ⟨st'', h'', w, z, heq, hs'', hid, -⟩
    cases heq
    have hw := (hs''.num q).unique (hs'.num q)
    have hz := (hs''.num r).unique (hs'.num r)
    rw [Function.update_of_ne hqr, Function.update_of_ne hqr, Function.update_self,
      Function.update_self] at hw
    rw [Function.update_self, Function.update_self] at hz
    rwa [hw, hz] at hid
  · exact fun hid => ⟨st', h', _, _, rfl, hs', hid, abs_remainder_lt _ hvb⟩

theorem sdivAt_iff {busy : Int16} (hbusy : busy ≠ 0) {n : Int16} (hn : n ≠ 0) (hs : Store h st v)
    (hfa : Fits (st a)) (q : Q) :
    SdivRight v a n q (sdivAt busy st a n q h) ↔
      0 < n.toInt ∨ (n.toInt ∣ v a ∧ (n = -32768 → v a = 0)) := by
  by_cases hmin : n = -32768
  · subst hmin
    have hneg : ¬0 < (-32768 : Int16).toInt := by decide
    constructor
    · rintro ⟨st', x, h', w, hrun, hs', hid, -⟩
      obtain ⟨⟨y, x', h''⟩, hsdiv, heq⟩ := Option.map_eq_some_iff.mp hrun
      cases heq
      have hy := hs'.num q
      rw [Function.update_self, Function.update_self] at hy
      have hva : v a = 0 := by
        by_contra hva
        exact sdiv_min (hs.num a) hva hfa (hs.num q).owned hsdiv hy hid
      exact Or.inr ⟨hva ▸ Int.dvd_zero _, fun _ => hva⟩
    · intro hcond
      have hva := (hcond.resolve_left hneg).2 rfl
      have ha := hs.num a
      rw [hva] at ha
      obtain ⟨y, h', hrun, hy, hframe, hnew⟩ := sdiv_zero hbusy (-32768) ha (hs.num q).owned
      refine ⟨_, 0, h', 0, ?_, hs.replaced hy hframe fun _ => hnew, ?_, by decide⟩
      · unfold sdivAt
        rw [hrun]
        rfl
      · rw [hva]
        rfl
  · have hn0 : n.toInt ≠ 0 := fun h => hn (eq_zero_of_toInt h)
    obtain ⟨st', x, h', hrun, hs', hx⟩ := sdivAt_puts hbusy hn hmin hs hfa q
    have hcond : (n = -32768 → v a = 0) ↔ True := iff_true_intro fun h => absurd h hmin
    rw [hcond, and_true, ← identity_iff hn0, hrun]
    constructor
    · rintro ⟨st'', x', h'', w, heq, hs'', hid, -⟩
      cases heq
      have hw := (hs''.num q).unique (hs'.num q)
      rw [Function.update_self, Function.update_self] at hw
      rwa [hw, hx] at hid
    · intro hid
      refine ⟨st', x, h', _, rfl, hs', by rw [hx]; exact hid, ?_⟩
      rw [hx]
      exact abs_remainder_lt _ hn0

/-- `mdiv` leaves a quotient and a remainder of its operands exactly when the divisor is positive or
nothing is left; so does `sdiv`, but by -32768 for zero only. -/
theorem mdiv_sdiv_iff {fuel : Nat} (hfuel : 3 ≤ fuel) {busy : Int16} (hbusy : busy ≠ 0) (h : Heap)
    (st : Q → Mint) (v : Q → Int) (hs : Store h st v) (a b q r : Q) (n : Int16) (hfa : Fits (st a))
    (hfb : Fits (st b)) (hvb : v b ≠ 0) (hn : n ≠ 0) (hqa : q ≠ a) (hqb : q ≠ b) (hra : r ≠ a)
    (hrb : r ≠ b) (hqr : q ≠ r) :
    (DivRight v a b q r (mdivAt fuel busy st a b q r h) ↔ 0 < v b ∨ v b ∣ v a) ∧
      (SdivRight v a n q (sdivAt busy st a n q h) ↔
        0 < n.toInt ∨ (n.toInt ∣ v a ∧ (n = -32768 → v a = 0))) :=
  ⟨mdivAt_iff hfuel hbusy hs hfa hfb hvb hqa hqb hra hrb hqr, sdivAt_iff hbusy hn hs hfa q⟩

end Store

/-- 5 and `t` 3, and two objects that are zero. -/
def quotients (t : Int16) : Fin 3 ⊕ Unit → Mint := Sum.elim (signed 1 t) fun _ => z₀

theorem quotients_store {t : Int16} (ht : t = 1 ∨ t = -1) :
    Store fiveThree (quotients t) (Sum.elim ![5, t.toInt * 3, 0] fun _ => 0) := by
  have hs := signed_store (s := 1) (Or.inl rfl) ht
  have h1 : (1 : Int16).toInt * 5 = 5 := rfl
  rw [h1] at hs
  exact hs.locals

/-- 5 divided by 3, by `mdiv` and by `sdiv`. -/
theorem mdiv_sdiv_iff_five :
    DivRight (Sum.elim ![5, 3, 0] fun _ => 0) (Sum.inl 0) (Sum.inl 1) (Sum.inl 2) (Sum.inr ())
      (mdivAt 3 1 (quotients 1) (Sum.inl 0) (Sum.inl 1) (Sum.inl 2) (Sum.inr ()) fiveThree) ∧
    SdivRight (Sum.elim ![5, 3, 0] fun _ : Unit => 0) (Sum.inl 0) 3 (Sum.inl 2)
      (sdivAt 1 (quotients 1) (Sum.inl 0) 3 (Sum.inl 2) fiveThree) := by
  have hf := signed_fits (s := 1) (t := 1) (Or.inl rfl) (Or.inl rfl)
  have h := mdiv_sdiv_iff (le_refl 3) (show (1 : Int16) ≠ 0 by decide) fiveThree (quotients 1) _
    (quotients_store (Or.inl rfl)) (Sum.inl 0) (Sum.inl 1) (Sum.inl 2) (Sum.inr ()) 3 hf.1 hf.2
    (by decide) (by decide) (by decide) (by decide) (by decide) (by decide) (by decide)
  exact ⟨h.1.mpr (Or.inl (by decide)), h.2.mpr (Or.inl (by decide))⟩

/-- 5 divided by -3 comes out as -1 and -2. -/
theorem mdiv_negative_wrong :
    Store fiveThree (quotients (-1)) (Sum.elim ![5, -3, 0] fun _ => 0) ∧
    ¬DivRight (Sum.elim ![5, -3, 0] fun _ => 0) (Sum.inl 0) (Sum.inl 1) (Sum.inl 2) (Sum.inr ())
      (mdivAt 3 1 (quotients (-1)) (Sum.inl 0) (Sum.inl 1) (Sum.inl 2) (Sum.inr ()) fiveThree) ∧
    ¬SdivRight (Sum.elim ![5, -3, 0] fun _ : Unit => 0) (Sum.inl 0) (-3) (Sum.inl 2)
      (sdivAt 1 (quotients (-1)) (Sum.inl 0) (-3) (Sum.inl 2) fiveThree) := by
  have hs : Store fiveThree (quotients (-1)) (Sum.elim ![5, -3, 0] fun _ => 0) :=
    quotients_store (Or.inr rfl)
  have hf := signed_fits (s := 1) (t := -1) (Or.inl rfl) (Or.inr rfl)
  have hfa : Fits (quotients (-1) (Sum.inl 0)) := hf.1
  have hfb : Fits (quotients (-1) (Sum.inl 1)) := hf.2
  refine ⟨hs, fun hcon => ?_, fun hcon => ?_⟩
  · have h := (mdivAt_iff (le_refl 3) (by decide) hs hfa hfb (by decide) (by decide) (by decide)
      (by decide) (by decide) (by decide)).mp hcon
    have hnot : ¬((0 : Int) < -3 ∨ (-3 : Int) ∣ 5) := by decide
    exact hnot h
  · have h := (sdivAt_iff (n := -3) (by decide) (by decide) hs hfa (Sum.inl 2)).mp hcon
    have hnot : ¬((0 : Int) < (-3 : Int16).toInt ∨ ((-3 : Int16).toInt ∣ 5 ∧
        ((-3 : Int16) = -32768 → (5 : Int) = 0))) := by decide
    exact hnot h

end Venix.Libmp
