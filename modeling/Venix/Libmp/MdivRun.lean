/-
  `m_div` against the integers.

  The divisor is scaled so that its leading limb is at least half the base; what `m_trq` gives is then
  the digit of the quotient or the next number, which `m_dsb` puts right. The run keeps: what is
  left of the dividend in the window below the digit is less than the divisor.
-/
import Venix.Libmp.MdivSteps

namespace Venix.Libmp

open Venix.Lib

/-! ## The digits -/

theorem value_last_two (l : List Int16) (a b : Int16) :
    value (l ++ [a, b]) = (b.toInt * 32768 + a.toInt) * 32768 ^ l.length + value l := by
  rw [value_append]
  have h : value [a, b] = a.toInt + 32768 * (b.toInt + 32768 * 0) := rfl
  rw [h]
  ring

theorem value_last_three (l : List Int16) (a b c : Int16) :
    value (l ++ [a, b, c]) =
      ((c.toInt * 32768 + b.toInt) * 32768 + a.toInt) * 32768 ^ l.length + value l := by
  rw [value_append]
  have h : value [a, b, c] = a.toInt + 32768 * (b.toInt + 32768 * (c.toInt + 32768 * 0)) := rfl
  rw [h]
  ring

theorem exists_last_three {l : List Int16} (h : 3 ≤ l.length) :
    ∃ lo a b c, l = lo ++ [a, b, c] ∧ lo.length + 3 = l.length := by
  have hdrop : (l.drop (l.length - 3)).length = 3 := by
    rw [List.length_drop]
    omega
  obtain ⟨a, b, c, habc⟩ := List.length_eq_three.mp hdrop
  refine ⟨l.take (l.length - 3), a, b, c, ?_, ?_⟩
  · rw [← habc, List.take_append_drop]
  · rw [List.length_take]
    omega

/-- The estimate from the leading limbs is the digit of the quotient or the next number. -/
theorem digit_spec {vlow wlow : List Int16} {v1 v2 u1 u2 u3 : Int16}
    (hlen : wlow.length = vlow.length) (hv : Limbs (vlow ++ [v2, v1]))
    (hw : Limbs (wlow ++ [u3, u2, u1])) (hhalf : 16384 ≤ v1.toInt)
    (hlt : value (wlow ++ [u3, u2, u1]) < 32768 * value (vlow ++ [v2, v1])) {fuel : Nat}
    (hfuel : 3 ≤ fuel) :
    ∃ e : Int16, m_trq fuel v1 v2 u1 u2 u3 = some e ∧ IsLimb e.toInt ∧
      (e.toInt - 1) * value (vlow ++ [v2, v1]) ≤ value (wlow ++ [u3, u2, u1]) ∧
      value (wlow ++ [u3, u2, u1]) < (e.toInt + 1) * value (vlow ++ [v2, v1]) := by
  obtain ⟨hvl, hvt⟩ := limbs_append.mp hv
  obtain ⟨hwl, hwt⟩ := limbs_append.mp hw
  have hv1 : IsLimb v1.toInt := hvt _ (by simp [ints])
  have hv2 : IsLimb v2.toInt := hvt _ (by simp [ints])
  have hu1 : IsLimb u1.toInt := hwt _ (by simp [ints])
  have hu2 : IsLimb u2.toInt := hwt _ (by simp [ints])
  have hu3 : IsLimb u3.toInt := hwt _ (by simp [ints])
  have hvl0 := hvl.nonneg
  have hvl1 := hvl.lt
  have hwl0 := hwl.nonneg
  have hwl1 := hwl.lt
  rw [value_last_two, value_last_three, hlen] at hlt
  rw [hlen] at hwl1
  have hp : (0 : Int) < 32768 ^ vlow.length := by positivity
  rw [value_last_two, value_last_three, hlen]
  generalize (32768 : Int) ^ vlow.length = p at *
  have hle : u1.toInt ≤ v1.toInt := by
    by_contra hcon
    unfold IsLimb at hv2 hu2 hu3
    have h1 : ((v1.toInt * 32768 + v2.toInt) * 32768 + 32768) * p ≤
        ((u1.toInt * 32768 + u2.toInt) * 32768 + u3.toInt) * p :=
      mul_le_mul_of_nonneg_right (by omega) hp.le
    have h2 : ((v1.toInt * 32768 + v2.toInt) * 32768 + 32768) * p =
        32768 * ((v1.toInt * 32768 + v2.toInt) * p + p) := by ring
    omega
  obtain ⟨e, hrun, he, htest, hmax⟩ := m_trq_spec hv1 hv2 hu1 hu2 hu3 hhalf hle hfuel
  refine ⟨e, hrun, he, ?_, ?_⟩
  · by_cases he0 : e.toInt = 0
    · rw [he0]
      have h1 : 0 ≤ (v1.toInt * 32768 + v2.toInt) * p :=
        mul_nonneg (by unfold IsLimb at hv1 hv2; omega) hp.le
      have h2 : 0 ≤ ((u1.toInt * 32768 + u2.toInt) * 32768 + u3.toInt) * p :=
        mul_nonneg (by unfold IsLimb at hu1 hu2 hu3; omega) hp.le
      omega
    · unfold IsLimb at he hv2
      exact estimate_pred_le hvl1.le hp.le hwl0 (by omega) (by omega) htest
  · by_contra hcon
    have hle' := not_lt.mp hcon
    have hV : 0 ≤ (v1.toInt * 32768 + v2.toInt) * p + value vlow :=
      add_nonneg (mul_nonneg (by unfold IsLimb at hv1 hv2; omega) hp.le) hvl0
    have hsmall : e.toInt + 1 ≤ 32767 := by
      by_contra hbig
      have h1 : 32768 * ((v1.toInt * 32768 + v2.toInt) * p + value vlow) ≤
          (e.toInt + 1) * ((v1.toInt * 32768 + v2.toInt) * p + value vlow) :=
        mul_le_mul_of_nonneg_right (by omega) hV
      omega
    have := hmax (e.toInt + 1) (by unfold IsLimb at he; omega) hsmall
      (quot_le_estimate hp.le hvl0 hwl1 (by unfold IsLimb at he; omega) hle')
    omega

/-- One turn of `m_div`: the window `x :: mid` gives a digit and what is left of it. -/
theorem m_divLoop_turn {fuel : Nat} (hfuel : 3 ≤ fuel) {vlow : List Int16} {v1 v2 : Int16}
    (hv : Limbs (vlow ++ [v2, v1])) (hhalf : 16384 ≤ v1.toInt) {v u qval : Nat} (hvu : v ≠ u)
    (huq : u ≠ qval) {lo mid : List Int16} {x : Int16} (hmid : mid.length = vlow.length + 2)
    (hx : IsLimb x.toInt) (hlmid : Limbs mid) (hlt : value mid < value (vlow ++ [v2, v1])) {h : Heap}
    {rest qrest : List (Option Int16)}
    (hu : h.blocks u = some (lo.map some ++ ((x :: mid).map some ++ rest)))
    (hvh : Holds h v (vlow ++ [v2, v1]))
    (hq : h.blocks qval = some (List.replicate lo.length none ++ none :: qrest)) :
    ∃ (q : Int16) (rs : List Int16) (t : Int16) (h' : Heap), IsLimb q.toInt ∧
      rs.length = mid.length ∧ Limbs rs ∧ value rs < value (vlow ++ [v2, v1]) ∧
      value (x :: mid) = q.toInt * value (vlow ++ [v2, v1]) + value rs ∧
      h'.blocks u = some (lo.map some ++ (rs.map some ++ some t :: rest)) ∧
      h'.blocks qval = some (List.replicate lo.length none ++ some q :: qrest) ∧
      h'.next = h.next ∧ (∀ p, p ≠ u → p ≠ qval → h'.blocks p = h.blocks p) ∧
      m_divLoop fuel v1 v2 (vlow.length + 2) v u qval (lo.length + 1) h =
        m_divLoop fuel v1 v2 (vlow.length + 2) v u qval lo.length h' := by
  obtain ⟨wlow, u3, u2, u1, hwin, hwlen⟩ := exists_last_three (l := x :: mid) (by simp; omega)
  rw [List.length_cons] at hwlen
  have hwl : wlow.length = vlow.length := by omega
  have hlwin : Limbs (wlow ++ [u3, u2, u1]) := by
    rw [← hwin]
    exact digits_cons.mpr ⟨hx, hlmid⟩
  have hwlt : value (wlow ++ [u3, u2, u1]) < 32768 * value (vlow ++ [v2, v1]) := by
    rw [← hwin]
    have h1 : value (x :: mid) = x.toInt + 32768 * value mid := rfl
    unfold IsLimb at hx
    rw [h1]
    omega
  obtain ⟨e, htrq, he, hlow, hhigh⟩ := digit_spec hwl hv hlwin hhalf hwlt hfuel
  -- the window for `m_dsb`: the limbs below `u1`
  have hsplit : value (wlow ++ [u3, u2]) + 32768 ^ (wlow ++ [u3, u2]).length * u1.toInt =
      value (x :: mid) := by
    rw [← value_concat, hwin]
    simp
  have hus : Limbs (wlow ++ [u3, u2]) := by
    have := limbs_append.mp (show Limbs ((wlow ++ [u3, u2]) ++ [u1]) by simpa using hlwin)
    exact this.1
  have hu1 : IsLimb u1.toInt := (limbs_append.mp hlwin).2 _ (by simp [ints])
  have hcells : h.blocks u =
      some (lo.map some ++ ((wlow ++ [u3, u2]).map some ++ some u1 :: rest)) := by
    rw [hu, hwin]
    simp
  have hvlen : (vlow ++ [v2, v1]).length = vlow.length + 2 := by simp
  obtain ⟨back, h₁, rs, t, hdsb, hrs, hlrs, hrlt, hval, hback, hset⟩ :=
    m_dsb_spec he hu1 hvu (vlow ++ [v2, v1]) (wlow ++ [u3, u2]) (by simp; omega) hv hus
      (show (lo.map some).length = lo.length by simp) (fun i hi => hvh.read hi) hcells
      (by rw [hsplit, hwin]; exact hlow) (by rw [hsplit, hwin]; exact hhigh)
  rw [hsplit] at hval
  rw [hvlen] at hdsb
  have hread : ∀ i y, (wlow ++ [u3, u2, u1])[i]? = some y → h.read u (lo.length + i) = some y := by
    intro i y hy
    have hi : i < (x :: mid).length := by
      rw [hwin]
      exact (List.getElem?_eq_some_iff.mp hy).1
    unfold Heap.read
    rw [hu, hwin]
    simp only [Option.bind_eq_bind, Option.bind_some]
    rw [List.getElem?_append_right (by simp), List.length_map, Nat.add_sub_cancel_left,
      List.getElem?_append_left (by rw [hwin] at hi; simpa using hi), List.getElem?_map, hy]
    rfl
  have hread1 : h.read u (lo.length + (vlow.length + 2)) = some u1 := by
    rw [← hwl]
    exact hread _ _ (by simp)
  have hread2 : h.read u (lo.length + (vlow.length + 2) - 1) = some u2 := by
    rw [← hwl]
    exact hread (wlow.length + 1) _ (by simp)
  have hread3 : h.read u (lo.length + (vlow.length + 2) - 2) = some u3 := by
    rw [← hwl]
    exact hread wlow.length _ (by simp)
  -- the digit is written
  have hq₁ : h₁.blocks qval = some (List.replicate lo.length none ++ none :: qrest) := by
    rw [hset.other huq.symm, hq]
  obtain ⟨h₂, hw, hset₂⟩ := write_spec hq₁ (if back then e - 1 else e)
  rw [List.length_replicate] at hw
  unfold IsLimb at he
  have hdigit : (if back = true then e - 1 else e).toInt =
      if back then e.toInt - 1 else e.toInt := by
    cases back with
    | true => exact sub_one_toInt (by omega)
    | false => rfl
  have hrange : IsLimb (if back = true then e - 1 else e).toInt := by
    rw [hdigit]
    cases back with
    | true =>
      have := hback rfl
      change 0 ≤ e.toInt - 1 ∧ e.toInt - 1 < 32768
      omega
    | false => exact he
  refine ⟨_, rs, t, h₂, hrange, ?_, hlrs, hrlt, by rw [hdigit]; exact hval, ?_, hset₂.self, ?_, ?_, ?_⟩
  · rw [hrs, List.length_append, List.length_cons, List.length_singleton]
    omega
  · rw [hset₂.other huq, hset.self]
  · rw [hset₂.next, hset.next]
  · intro p hpu hpq
    rw [hset₂.other hpq, hset.other hpu]
  · rw [m_divLoop]
    simp only [hread1, hread2, hread3, htrq, hdsb, hw, Option.bind_eq_bind, Option.bind_some]

/-- The digits of the quotient, and what is left. -/
theorem m_divLoop_spec {fuel : Nat} (hfuel : 3 ≤ fuel) {vlow : List Int16} {v1 v2 : Int16}
    (hv : Limbs (vlow ++ [v2, v1])) (hhalf : 16384 ≤ v1.toInt) {v u qval : Nat} (hvu : v ≠ u)
    (huq : u ≠ qval) (hvq : v ≠ qval) (lo mid : List Int16) (hmid : mid.length = vlow.length + 2)
    (hlo : Limbs lo) (hlmid : Limbs mid) (hlt : value mid < value (vlow ++ [v2, v1])) {h : Heap}
    {rest qrest : List (Option Int16)} (hu : h.blocks u = some (lo.map some ++ (mid.map some ++ rest)))
    (hvh : Holds h v (vlow ++ [v2, v1]))
    (hq : h.blocks qval = some (List.replicate lo.length none ++ qrest)) :
    ∃ qs rs rest' h', m_divLoop fuel v1 v2 (vlow.length + 2) v u qval lo.length h = some h' ∧
      qs.length = lo.length ∧ Limbs qs ∧ rs.length = vlow.length + 2 ∧ Limbs rs ∧
      value rs < value (vlow ++ [v2, v1]) ∧
      value (lo ++ mid) = value qs * value (vlow ++ [v2, v1]) + value rs ∧
      h'.blocks u = some (rs.map some ++ rest') ∧ h'.blocks qval = some (qs.map some ++ qrest) ∧
      h'.next = h.next ∧ ∀ p, p ≠ u → p ≠ qval → h'.blocks p = h.blocks p := by
  induction lo using List.reverseRecOn generalizing mid h rest qrest with
  | nil =>
    refine ⟨[], mid, rest, h, rfl, rfl, hlo, hmid, hlmid, hlt, ?_, hu, hq, rfl, fun _ _ _ => rfl⟩
    simp [value, ints, valL]
  | append_singleton lo x ih =>
    obtain ⟨hlo₀, hx⟩ := limbs_append.mp hlo
    have hu₀ : h.blocks u = some (lo.map some ++ ((x :: mid).map some ++ rest)) := by
      rw [hu]
      simp
    have hq₀ : h.blocks qval = some (List.replicate lo.length none ++ none :: qrest) := by
      rw [hq, List.length_append, List.length_singleton, List.replicate_succ', List.append_assoc]
      rfl
    obtain ⟨q, rs, t, h₁, hq1, hrs, hlrs, hrlt, hval, hu₁, hq₁, hnext, hother, hturn⟩ :=
      m_divLoop_turn hfuel hv hhalf hvu huq hmid (hx _ (by simp [ints])) hlmid hlt hu₀ hvh hq₀
    obtain ⟨qs, rs', rest', h', hrun, hqs, hlqs, hrs', hlrs', hrlt', hval', hu', hq', hnext', hother'⟩ :=
      ih rs (hrs.trans hmid) hlo₀ hlrs hrlt hu₁ (hvh.congr (hother v hvu hvq)) hq₁
    refine ⟨qs ++ [q], rs', rest', h', ?_, by simp [hqs], ?_, hrs', hlrs', hrlt', ?_, hu', ?_,
      hnext'.trans hnext, fun p hpu hpq => (hother' p hpu hpq).trans (hother p hpu hpq)⟩
    · rw [List.length_append, List.length_singleton, hturn]
      exact hrun
    · exact limbs_append.mpr ⟨hlqs, digits_cons.mpr ⟨hq1, by simp [Digits]⟩⟩
    · have h1 : value (lo ++ [x] ++ mid) = value lo + 32768 ^ lo.length * value (x :: mid) := by
        rw [List.append_assoc, value_append]
        rfl
      rw [value_append] at hval'
      rw [h1, value_concat, hqs]
      linear_combination hval' + 32768 ^ lo.length * hval
    · rw [hq']
      simp

/-! ## Scaling -/

/-- The factor that makes the leading limb of the divisor at least half the base. -/
theorem scale_spec {t d : Int} (ht0 : 0 < t) (ht1 : t < 32768) (hd : d = 32768 / (t + 1)) :
    0 < d ∧ d ≤ 16384 ∧ d * (t + 1) ≤ 32768 ∧ 16384 ≤ d * t := by
  have hdm := Int.mul_ediv_add_emod 32768 (t + 1)
  have hm0 := Int.emod_nonneg 32768 (show t + 1 ≠ 0 by omega)
  have hm1 := Int.emod_lt_of_pos 32768 (show 0 < t + 1 by omega)
  rw [← hd, mul_comm] at hdm
  have hexp : d * (t + 1) = d * t + d := by ring
  have hpos : 0 < d := by
    by_contra hcon
    have : d * (t + 1) ≤ 0 * (t + 1) := mul_le_mul_of_nonneg_right (by omega) (by omega)
    omega
  have hle : d ≤ d * t := by
    have : d * 1 ≤ d * t := mul_le_mul_of_nonneg_left (by omega) hpos.le
    omega
  refine ⟨hpos, by omega, by omega, ?_⟩
  by_cases h1 : t = 1
  · subst h1
    omega
  · by_cases h2 : d ≤ 2
    · interval_cases d
      · omega
      · omega
    · have hprod : 0 ≤ (d - 3) * (t - 2) := mul_nonneg (by omega) (by omega)
      have hring : (d - 3) * (t - 2) = d * t - 2 * d - 3 * t + 6 := by ring
      omega

theorem rep_one {h : Heap} {m : Mint} {l : List Int16} (hm : Rep h m l) (hl : l ≠ []) :
    m.len ≠ 0 := by
  intro e
  have h1 := hm.len
  have h0 : (0 : Int16).toInt = 0 := rfl
  have h2 := List.length_pos_iff.mpr hl
  rw [e, h0] at h1
  omega

/-- `mult` by one limb, into a new object: the block has a limb more than the number. -/
theorem scaled_spec {a x : Mint} {la : List Int16} {d : Int16} {h : Heap} (ha : Rep h a la)
    (hla : la ≠ []) (hlen : la.length ≤ 32764) (hx : Rep h x [d]) :
    ∃ m rs h', mult a x ⟨0, 0⟩ h = some (m, h') ∧ m.len ≠ 0 ∧ m.val = h.next ∧
      rs.length = la.length + 1 ∧ Limbs rs ∧ value rs = value la * d.toInt ∧
      Holds h' h.next rs ∧ Grows h h' := by
  have hpos := List.length_pos_iff.mpr hla
  obtain ⟨len, rs, h', hlen', hrs, hlimbs, hval, hholds, hg, heq⟩ := longer_eq ha hx (by simp; omega)
  rw [List.length_singleton] at hlen' hrs
  have h0 : (0 : Int16).toInt = 0 := rfl
  have ha0 : ¬a.len < 0 := by
    rw [Int16.lt_iff_toInt_lt, ha.len, h0]
    omega
  have hx0 : ¬x.len < 0 := by
    rw [Int16.lt_iff_toInt_lt, hx.len, h0]
    omega
  obtain ⟨l, top, rfl⟩ : ∃ l top, rs = l ++ [top] := by
    have hne : rs ≠ [] := List.length_pos_iff.mp (by omega)
    exact ⟨rs.dropLast, rs.getLast hne, (List.dropLast_append_getLast hne).symm⟩
  rw [List.getLast?_concat, Option.map_some] at heq
  have hpred : (len - 1).toInt = la.length := by
    rw [sub_one_toInt (by omega), hlen']
    push_cast
    omega
  have hne : (if top ≠ 0 then len else len - 1) ≠ 0 := by
    intro e
    have := congrArg Int16.toInt e
    rw [h0] at this
    split at this <;> omega
  have hvd : value [d] = d.toInt := by simp [value, ints, valL]
  refine ⟨⟨if top ≠ 0 then len else len - 1, h.next⟩, l ++ [top], h', ?_, hne, rfl, hrs, hlimbs,
    by rw [hval, hvd], hholds, hg⟩
  have hxfree : xfree ⟨0, 0⟩ h' = some h' := if_pos rfl
  rw [mult_eq]
  unfold magnitude
  rw [if_neg ha0, if_neg hx0, heq]
  unfold multEnd
  rw [Option.bind_some]
  dsimp only
  rw [hxfree, Option.bind_some, decide_eq_false ha0, decide_eq_false hx0]
  exact if_neg hne

/-! ## The remainder -/

theorem mcanLoop_spec (l : List Int16) (hl : Limbs l) {a : Mint} {h : Heap} (ha : Holds h a.val l) :
    ∃ l' tail, l = l' ++ tail ∧ Canon l' ∧ value l' = value l ∧
      mcanLoop a l.length h = some l'.length := by
  induction l using List.reverseRecOn with
  | nil => exact ⟨[], [], rfl, by simp [Canon], rfl, rfl⟩
  | append_singleton l x ih =>
    obtain ⟨hl₀, hx⟩ := limbs_append.mp hl
    have hread : h.read a.val l.length = some x := by
      have := ha.read (i := l.length) (by simp)
      simpa using this
    have hloop : mcanLoop a (l ++ [x]).length h =
        if x = 0 then mcanLoop a l.length h else some (l.length + 1) := by
      rw [List.length_append, List.length_singleton, mcanLoop, hread]
      rfl
    by_cases hzero : x = 0
    · have ha₀ : Holds h a.val l := by
        obtain ⟨rest, hrest⟩ := ha
        exact ⟨some x :: rest, by rw [hrest]; simp⟩
      obtain ⟨l', tail, hsplit, hc, hval, hrun⟩ := ih hl₀ ha₀
      refine ⟨l', tail ++ [x], by rw [hsplit, List.append_assoc], hc, ?_, ?_⟩
      · rw [value_concat, hzero, hval]
        change _ = value l + _ * 0
        rw [mul_zero, add_zero]
      · rw [hloop, if_pos hzero]
        exact hrun
    · refine ⟨l ++ [x], [], (List.append_nil _).symm, ?_, rfl, ?_⟩
      · intro y hy
        rw [List.getLast?_concat] at hy
        cases hy
        exact lt_of_le_of_ne (hx x.toInt (by simp [ints])).1 fun e => hzero (Int16.toInt_inj.mp e.symm)
      · rw [hloop, if_neg hzero, List.length_append, List.length_singleton]

/-- `mcan` of a number without a sign; a zero loses its block. -/
theorem mcan_spec {l : List Int16} (hl : Limbs l) (hne : l ≠ []) {a : Mint} {h : Heap}
    (ha : Holds h a.val l) (hlen : a.len.toInt = l.length) :
    ∃ x h' l', mcan a h = some (x, h') ∧ x.val = a.val ∧ Rep h' x l' ∧ Canon l' ∧
      value l' = value l ∧ l'.length ≤ l.length ∧
      ((l' ≠ [] ∧ x.len ≠ 0 ∧ h' = h) ∨ (l' = [] ∧ x.len = 0 ∧ h.free a.val = some h')) := by
  have hpos := List.length_pos_iff.mpr hne
  have h0 : (0 : Int16).toInt = 0 := rfl
  have hturns : turns a.len = l.length := turns_eq hlen
  have hlt := a.len.toInt_lt
  have hnz : ¬a.len = 0 := by
    intro e
    rw [e, h0] at hlen
    omega
  have hnn : ¬a.len < 0 := by
    rw [Int16.lt_iff_toInt_lt, h0, hlen]
    omega
  have hgt : 0 < a.len := by
    rw [Int16.lt_iff_toInt_lt, h0, hlen]
    omega
  obtain ⟨l', tail, hsplit, hc, hval, hrun⟩ := mcanLoop_spec l hl ha
  have hl' : Limbs l' := by
    rw [hsplit] at hl
    exact (limbs_append.mp hl).1
  have hle : l'.length ≤ l.length := by
    rw [hsplit, List.length_append]
    omega
  have hh : Holds h a.val l' := by
    obtain ⟨rest, hrest⟩ := ha
    exact ⟨tail.map some ++ rest, by rw [hrest, hsplit]; simp⟩
  unfold mcan
  simp only [if_neg hnz, if_neg hnn, hturns, hrun, Option.bind_eq_bind, Option.bind_some,
    Option.pure_def]
  by_cases hfull : l'.length = l.length
  · rw [if_pos hfull]
    have hne' : l' ≠ [] := List.length_pos_iff.mp (by omega)
    exact ⟨a, h, l', rfl, rfl, ⟨by rw [hlen, hfull], fun _ => hh, hl'⟩, hc, hval, hle,
      Or.inl ⟨hne', hnz, rfl⟩⟩
  · rw [if_neg hfull]
    by_cases hnil : l' = []
    · subst hnil
      obtain ⟨cells, hcells⟩ := ha
      obtain ⟨h', hfree, -⟩ := free_spec hcells
      have hxfree : xfree a h = some h' := by
        unfold xfree
        rw [if_neg hnz, hfree]
      rw [if_pos List.length_nil, hxfree, Option.bind_some]
      exact ⟨_, h', [], rfl, rfl, ⟨rfl, fun hne => absurd rfl hne, hl'⟩, hc, hval, hle,
        Or.inr ⟨rfl, rfl, hfree⟩⟩
    · have hpos' := List.length_pos_iff.mpr hnil
      rw [if_neg (by omega), if_pos hgt]
      have hcast : (Int16.ofNat l'.length).toInt = l'.length :=
        Int16.toInt_ofNat_of_lt (by omega)
      refine ⟨_, h, l', rfl, rfl, ⟨hcast, fun _ => hh, hl'⟩, hc, hval, hle,
        Or.inl ⟨hnil, fun e => ?_, rfl⟩⟩
      have := congrArg Int16.toInt e
      dsimp only at this
      rw [hcast, h0] at this
      omega

/-! ## Division by several limbs -/

theorem rep_last {lb : List Int16} (hc : Canon lb) (hl : Limbs lb) (hne : lb ≠ []) :
    ∃ blow top, lb = blow ++ [top] ∧ 0 < top.toInt ∧ top.toInt < 32768 ∧ Limbs blow := by
  refine ⟨lb.dropLast, lb.getLast hne, (List.dropLast_append_getLast hne).symm, ?_, ?_, ?_⟩
  · exact hc _ (List.getLast?_eq_some_getLast hne)
  · exact (hl _ (List.mem_map_of_mem (List.getLast_mem hne))).2
  · rw [← List.dropLast_append_getLast hne] at hl
    exact (limbs_append.mp hl).1

/-- The scaled divisor has as many limbs as the divisor, and its leading limb is large. -/
theorem scaled_divisor {blow vs : List Int16} {top : Int16} {d : Int} (hblow : Limbs blow)
    (ht0 : 0 < top.toInt) (ht1 : top.toInt < 32768) (hd : d = 32768 / (top.toInt + 1))
    (hn : 1 ≤ blow.length) (hvs : Limbs vs) (hlen : vs.length = blow.length + 2)
    (hval : value vs = value (blow ++ [top]) * d) :
    ∃ vlow v2 v1, vs = vlow ++ [v2, v1] ++ [0] ∧ vlow.length + 1 = blow.length ∧
      16384 ≤ v1.toInt ∧ value (vlow ++ [v2, v1]) = value (blow ++ [top]) * d := by
  obtain ⟨hd0, -, hd2, hhalf⟩ := scale_spec ht0 ht1 hd
  obtain ⟨vlow, v2, v1, v0, rfl, hvl⟩ := exists_last_three (l := vs) (by omega)
  have hassoc : vlow ++ [v2, v1, v0] = vlow ++ [v2, v1] ++ [v0] := by simp
  rw [hassoc] at hvs hval
  obtain ⟨hv, hv0⟩ := limbs_append.mp hvs
  have hv0' := hv0 v0.toInt (by simp [ints])
  have hlow := hblow.lt
  have hblow0 := hblow.nonneg
  have hp : (0 : Int) < 32768 ^ blow.length := by positivity
  have hpow : (32768 : Int) ^ (vlow ++ [v2, v1]).length = 32768 * 32768 ^ blow.length := by
    rw [← pow_succ']
    congr 1
    simp
    omega
  have hbound : value (blow ++ [top]) * d < 32768 * 32768 ^ blow.length := by
    rw [value_concat]
    calc (value blow + 32768 ^ blow.length * top.toInt) * d
        < (32768 ^ blow.length * (top.toInt + 1)) * d :=
          mul_lt_mul_of_pos_right (by rw [mul_add]; omega) hd0
      _ = (d * (top.toInt + 1)) * 32768 ^ blow.length := by ring
      _ ≤ 32768 * 32768 ^ blow.length := mul_le_mul_of_nonneg_right hd2 hp.le
  rw [value_concat, hpow] at hval
  have hv00 : v0.toInt = 0 := by
    by_contra hcon
    have h1 : 32768 * 32768 ^ blow.length * 1 ≤ 32768 * 32768 ^ blow.length * v0.toInt :=
      mul_le_mul_of_nonneg_left (by omega) (by omega)
    have h2 := hv.nonneg
    omega
  rw [hv00, mul_zero, add_zero] at hval
  refine ⟨vlow, v2, v1, by rw [hassoc, eq_zero_of_toInt hv00], by omega, ?_, hval⟩
  -- the leading limb
  have hcut : value (vlow ++ [v2, v1]) =
      value (vlow ++ [v2]) + 32768 ^ blow.length * v1.toInt := by
    have h1 : vlow ++ [v2, v1] = vlow ++ [v2] ++ [v1] := by simp
    have h2 : (vlow ++ [v2]).length = blow.length := by simp; omega
    rw [h1, value_concat, h2]
  have hlow2 : value (vlow ++ [v2]) < 32768 ^ blow.length := by
    have h1 : Limbs (vlow ++ [v2]) :=
      (limbs_append.mp (show Limbs (vlow ++ [v2] ++ [v1]) by simpa using hv)).1
    have h2 := h1.lt
    have h3 : (vlow ++ [v2]).length = blow.length := by simp; omega
    rwa [h3] at h2
  have hge : 32768 ^ blow.length * (d * top.toInt) ≤ value (blow ++ [top]) * d := by
    rw [value_concat]
    have : 0 ≤ value blow * d := mul_nonneg hblow0 hd0.le
    have : (value blow + 32768 ^ blow.length * top.toInt) * d =
        value blow * d + 32768 ^ blow.length * (d * top.toInt) := by ring
    omega
  by_contra hcon
  have h1 : 32768 ^ blow.length * (v1.toInt + 1) ≤ 32768 ^ blow.length * (d * top.toInt) :=
    mul_le_mul_of_nonneg_left (by omega) hp.le
  rw [mul_add, mul_one] at h1
  omega

/-- The first window of the scaled dividend is less than the scaled divisor. -/
theorem scaled_dividend {la lb us : List Int16} {d : Int} (hla : Limbs la) (hlb : Limbs lb)
    (hcb : Canon lb) (hnb : lb ≠ []) (hd : 0 < d) (hle : lb.length ≤ la.length)
    (hus : Limbs us) (hlen : us.length = la.length + 1) (hval : value us = value la * d) :
    value (us.drop (la.length - lb.length + 1)) < value lb * d := by
  have hpos := List.length_pos_iff.mpr hnb
  have hsplit := List.take_append_drop (la.length - lb.length + 1) us
  obtain ⟨hlo, -⟩ := limbs_append.mp (by rw [hsplit]; exact hus)
  have hlo0 := hlo.nonneg
  have htake : (us.take (la.length - lb.length + 1)).length = la.length - lb.length + 1 := by
    rw [List.length_take]
    omega
  have hsum : value (us.take (la.length - lb.length + 1)) + 32768 ^ (la.length - lb.length + 1) *
      value (us.drop (la.length - lb.length + 1)) = value la * d := by
    rw [← hval, ← hsplit, value_append, htake, hsplit]
  have hp : (0 : Int) < 32768 ^ (la.length - lb.length + 1) := by positivity
  have h1 : value la * d < 32768 ^ la.length * d := mul_lt_mul_of_pos_right hla.lt hd
  have h2 : 32768 ^ (lb.length - 1) * d ≤ value lb * d :=
    mul_le_mul_of_nonneg_right (hcb.pow_le hlb hnb) hd.le
  have h3 : (32768 : Int) ^ la.length = 32768 ^ (la.length - lb.length + 1) * 32768 ^ (lb.length - 1) := by
    rw [← pow_add]
    congr 1
    omega
  by_contra hcon
  have h4 : 32768 ^ (la.length - lb.length + 1) * (32768 ^ (lb.length - 1) * d) ≤
      32768 ^ (la.length - lb.length + 1) * value (us.drop (la.length - lb.length + 1)) :=
    mul_le_mul_of_nonneg_left (h2.trans (not_lt.mp hcon)) hp.le
  rw [← mul_assoc, ← h3] at h4
  omega

/-- The quotient has at most one limb too many. -/
theorem several_big {la lb qs : List Int16} {r : Int} (hca : Canon la) (hla : Limbs la)
    (hna : la ≠ []) (hlb : Limbs lb) (hle : lb.length ≤ la.length)
    (hlen : qs.length = la.length - lb.length + 1) (hr : r < value lb)
    (hval : value la = value qs * value lb + r) (h2 : 2 ≤ qs.length) :
    32768 ^ (qs.length - 2) ≤ value qs := by
  have hlow := hca.pow_le hla hna
  have hb := hlb.lt
  have hb0 := hlb.nonneg
  have hpow : (32768 : Int) ^ (la.length - 1) = 32768 ^ (qs.length - 2) * 32768 ^ lb.length := by
    rw [← pow_add]
    congr 1
    omega
  rw [hpow, hval] at hlow
  by_contra hcon
  have h1 : (value qs + 1) * value lb ≤ 32768 ^ (qs.length - 2) * value lb :=
    mul_le_mul_of_nonneg_right (by omega) hb0
  have h3 : (32768 : Int) ^ (qs.length - 2) * value lb ≤ 32768 ^ (qs.length - 2) * 32768 ^ lb.length :=
    mul_le_mul_of_nonneg_left hb.le (by positivity)
  have h4 : (value qs + 1) * value lb = value qs * value lb + value lb := by ring
  omega

/-- A block that is not the one that is freed. -/
theorem free_other {h h' : Heap} {p : Nat} (hf : h.free p = some h') :
    h'.next = h.next ∧ ∀ q, q ≠ p → h'.blocks q = h.blocks q := by
  cases hp : h.blocks p with
  | none =>
    unfold Heap.free at hf
    rw [hp] at hf
    cases hf
  | some cells =>
    obtain ⟨h₁, h1, h2, h3⟩ := free_spec hp
    rw [h1] at hf
    cases hf
    exact ⟨h2, h3⟩

/-- Freeing a block or not. -/
theorem freeIf_spec {h : Heap} {p : Nat} {cells : List (Option Int16)} (hp : h.blocks p = some cells)
    (c : Prop) [Decidable c] :
    ∃ h', (if c then h.free p else some h) = some h' ∧ h'.next = h.next ∧
      (∀ q, q ≠ p → h'.blocks q = h.blocks q) ∧ (¬c → h' = h) := by
  by_cases hc : c
  · obtain ⟨h', h1, h2, h3⟩ := free_spec hp
    exact ⟨h', by rw [if_pos hc, h1], h2, h3, fun hn => absurd hc hn⟩
  · exact ⟨h, if_neg hc, rfl, fun _ _ => rfl, fun _ => rfl⟩

/-- The end of `m_div`, for a remainder `rs` of the scaled numbers and digits `qs`. -/
theorem m_divEnd_spec {busy : Int16} (hbusy : busy ≠ 0) {d blen qq : Int16} {u v : Mint}
    {qval : Nat} {h₀ h : Heap} {rs qs : List Int16} {rest vcells qrest : List (Option Int16)} {r : Int}
    (hg : Grows h₀ h) (hd : 0 < d.toInt) (hrs : Limbs rs) (hne : rs ≠ []) (hlen : rs.length ≤ 32764)
    (hblen : blen.toInt = rs.length) (hqs : Limbs qs) (hqne : qs ≠ []) (hqq : qq.toInt = qs.length)
    (hbig : 2 ≤ qs.length → 32768 ^ (qs.length - 2) ≤ value qs) (hval : value rs = r * d.toInt)
    (hu : h.blocks u.val = some (rs.map some ++ rest)) (hulen : u.len ≠ 0) (hvlen : v.len ≠ 0)
    (hv : h.blocks v.val = some vcells) (hq : h.blocks qval = some (qs.map some ++ qrest))
    (huv : u.val ≠ v.val) (huq : u.val ≠ qval) (hvq : v.val ≠ qval) (hu0 : h₀.next ≤ u.val)
    (hv0 : h₀.next ≤ v.val) (hq0 : h₀.next ≤ qval) :
    ∃ q' r' h' lq lw, m_divEnd busy d blen qq u v qval h = some (q', r', h') ∧ Rep h' q' lq ∧
      Canon lq ∧ value lq = value qs ∧ Rep h' r' lw ∧ Canon lw ∧ value lw = r ∧ Grows h₀ h' ∧
      q'.val = qval ∧ r'.val = h.next := by
  have h0 : (0 : Int16).toInt = 0 := rfl
  have hlive : ∀ {p : Nat} {cells : List (Option Int16)}, h.blocks p = some cells → p < h.next := by
    intro p cells hp
    by_contra hcon
    rw [h.fresh p (not_lt.mp hcon)] at hp
    cases hp
  obtain ⟨x, h₁, l', hmcan, hxval, hx, hcx, hvx, hlx, hcase⟩ :=
    mcan_spec (a := ⟨blen, u.val⟩) hrs hne ⟨rest, hu⟩ hblen
  -- `mcan` touches only the block of `u`
  have hnext₁ : h₁.next = h.next ∧ ∀ p, p ≠ u.val → h₁.blocks p = h.blocks p := by
    rcases hcase with ⟨-, -, rfl⟩ | ⟨-, -, hfree⟩
    · exact ⟨rfl, fun _ _ => rfl⟩
    · exact free_other hfree
  obtain ⟨w, rem, h₂, lw, hsdiv, hw, hcw, hvw, hr0, hr1, hg₂, hwval, hlw⟩ :=
    sdiv_spec hbusy hd hx (by omega) (q := ⟨0, 0⟩) rfl
  -- the division by `d` leaves nothing
  have hexact : value lw = r := by
    rw [hvx, hval] at hvw
    have heq : (r - value lw) * d.toInt = rem.toInt := by linarith
    have hzero : r - value lw = 0 := by
      by_contra hcon
      rcases lt_or_gt_of_ne hcon with hneg | hpos
      · have : (r - value lw) * d.toInt ≤ (-1) * d.toInt :=
          mul_le_mul_of_nonneg_right (by omega) hd.le
        omega
      · have : 1 * d.toInt ≤ (r - value lw) * d.toInt :=
          mul_le_mul_of_nonneg_right (by omega) hd.le
        omega
    omega
  have hq₂ : h₂.blocks qval = some (qs.map some ++ qrest) := by
    rw [hg₂.old _ (by rw [hnext₁.1]; exact hlive hq), hnext₁.2 _ huq.symm, hq]
  have hv₂ : h₂.blocks v.val = some vcells := by
    rw [hg₂.old _ (by rw [hnext₁.1]; exact hlive hv), hnext₁.2 _ huv.symm, hv]
  have hqpos : 0 < qq := by
    rw [Int16.lt_iff_toInt_lt, h0, hqq]
    have := List.length_pos_iff.mpr hqne
    omega
  obtain ⟨l, top, rfl, htop0, hkeep, hdrop⟩ := quot_canon hqs hqne
  have htop : h₂.read qval (turns qq - 1) = some top := by
    have hh : Holds h₂ qval (l ++ [top]) := ⟨qrest, hq₂⟩
    have := hh.read (i := l.length) (by simp)
    rw [turns_eq hqq, List.length_append, List.length_singleton, Nat.add_sub_cancel]
    simpa using this
  -- the length of the quotient and its limbs
  obtain ⟨lq, hlqlen, hlq, hclq, hvlq, hprefix⟩ : ∃ lq : List Int16,
      (if 0 < qq ∧ top = 0 then qq - 1 else qq).toInt = lq.length ∧ Limbs lq ∧ Canon lq ∧
        value lq = value (l ++ [top]) ∧ ∃ more, (l ++ [top]).map some ++ qrest = lq.map some ++ more := by
    have hlen' := qq.toInt_lt
    rw [List.length_append, List.length_singleton] at hqq
    by_cases hzero : top = 0
    · obtain ⟨h1, h3, h2⟩ := hdrop hzero
      refine ⟨l, ?_, h1, h2 hbig, h3, some top :: qrest, by simp⟩
      rw [if_pos ⟨hqpos, hzero⟩, sub_one_toInt (by omega), hqq]
      push_cast
      omega
    · refine ⟨l ++ [top], ?_, hqs, hkeep hzero, rfl, qrest, rfl⟩
      rw [if_neg (fun hand => hzero hand.2), hqq, List.length_append, List.length_singleton]
  generalize hql : (if 0 < qq ∧ top = 0 then qq - 1 else qq) = qlen at hlqlen
  obtain ⟨h₃, hfree₃, hnext₃, hother₃, hsame₃⟩ := freeIf_spec hq₂ (qlen = 0)
  -- the block of `u` is still there when `x` has limbs
  obtain ⟨h₄, hfree₄, hnext₄, hother₄⟩ : ∃ h₄,
      (if x.len ≠ 0 then xfree u h₃ else some h₃) = some h₄ ∧ h₄.next = h₃.next ∧
        ∀ p, p ≠ u.val → h₄.blocks p = h₃.blocks p := by
    rcases hcase with ⟨-, hxlen, heq⟩ | ⟨-, hxlen, -⟩
    · have hu₃ : h₃.blocks u.val = some (rs.map some ++ rest) := by
        rw [hother₃ _ huq, hg₂.old _ (by rw [hnext₁.1]; exact hlive hu), heq, hu]
      obtain ⟨h₄, h1, h2, h3⟩ := free_spec hu₃
      refine ⟨h₄, ?_, h2, h3⟩
      unfold xfree
      rw [if_pos hxlen, if_neg hulen, h1]
    · exact ⟨h₃, if_neg (not_not.mpr hxlen), rfl, fun _ _ => rfl⟩
  have hv₄ : h₄.blocks v.val = some vcells := by
    rw [hother₄ _ huv.symm, hother₃ _ hvq, hv₂]
  obtain ⟨h₅, hfree₅, hnext₅, hother₅⟩ := free_spec hv₄
  have hxfree₅ : xfree v h₄ = some h₅ := by
    unfold xfree
    rw [if_neg hvlen, hfree₅]
  have hkept : ∀ p, p ≠ u.val → p ≠ v.val → p ≠ qval → h₅.blocks p = h₂.blocks p :=
    fun p h1 h2 h3 => by rw [hother₅ _ h2, hother₄ _ h1, hother₃ _ h3]
  refine ⟨⟨qlen, qval⟩, ⟨w.len, w.val⟩, h₅, lq, lw, ?_, ⟨hlqlen, fun hne' => ?_, hlq⟩, hclq, hvlq,
    ⟨hw.len, fun hne' => ?_, hw.limbs⟩, hcw hcx, hexact, ⟨?_, fun p hp => ?_⟩, rfl,
    hwval.trans hnext₁.1⟩
  · unfold m_divEnd
    simp only [hmcan, hsdiv, if_pos hqpos, htop, hql, hfree₃, hfree₄, hxfree₅, Option.bind_eq_bind,
      Option.bind_some, Option.pure_def]
  · have hnz : ¬qlen = 0 := by
      intro e
      rw [e, h0] at hlqlen
      have := List.length_pos_iff.mpr hne'
      omega
    obtain ⟨more, hmore⟩ := hprefix
    refine ⟨more, ?_⟩
    rw [hother₅ _ hvq.symm, hother₄ _ huq.symm, hsame₃ hnz, hq₂, hmore]
  · refine (hw.cells hne').congr (hkept _ ?_ ?_ ?_)
    · rw [hwval, hnext₁.1]
      exact (hlive hu).ne'
    · rw [hwval, hnext₁.1]
      exact (hlive hv).ne'
    · rw [hwval, hnext₁.1]
      exact (hlive hq).ne'
  · rw [hnext₅, hnext₄, hnext₃]
    exact (hg.next.trans (le_of_eq hnext₁.1.symm)).trans hg₂.next
  · have hgn := hg.next
    rw [hkept p (by omega) (by omega) (by omega), hg₂.old p (by rw [hnext₁.1]; omega),
      hnext₁.2 p (by omega), hg.old p hp]

theorem alloc_spec (h : Heap) (d : Int16) :
    ∃ h', h.alloc [some d] = (h.next, h') ∧ Grows h h' ∧ h'.next = h.next + 1 ∧
      Holds h' h.next [d] := by
  refine ⟨_, rfl, ⟨Nat.le_succ _, fun p hp => ?_⟩, rfl, [], ?_⟩
  · exact Function.update_of_ne hp.ne _ _
  · exact Function.update_self _ _ _

theorem Rep.len_ge {h : Heap} {a b : Mint} {la lb : List Int16} (ha : Rep h a la) (hb : Rep h b lb)
    (hle : lb.length ≤ la.length) (hlen : la.length ≤ 32764) :
    (a.len - b.len + 1).toInt = ((la.length - lb.length + 1 : Nat) : Int) := by
  have h1 : (1 : Int16).toInt = 1 := rfl
  have hsub : (a.len - b.len).toInt = (la.length : Int) - lb.length := by
    rw [Int16.toInt_sub, ha.len, hb.len, Int.bmod_eq_of_le] <;> omega
  rw [add_toInt (by rw [hsub, h1]; omega) (by rw [hsub, h1]; omega), hsub, h1]
  omega

/-- Division by a number of two limbs or more. -/
theorem m_div3_spec {fuel : Nat} (hfuel : 3 ≤ fuel) {busy : Int16} (hbusy : busy ≠ 0) {a b : Mint}
    {la lb : List Int16} {h : Heap} (ha : Rep h a la) (hb : Rep h b lb) (hca : Canon la)
    (hcb : Canon lb) (hn : 2 ≤ lb.length) (hle : lb.length ≤ la.length) (hlen : la.length ≤ 32764) :
    ∃ q' r' h' lq lr, m_div3 fuel busy a b h = some (q', r', h') ∧ Rep h' q' lq ∧ Canon lq ∧
      Rep h' r' lr ∧ Canon lr ∧ value la = value lq * value lb + value lr ∧
      value lr < value lb ∧ Grows h h' ∧ h.next ≤ q'.val ∧ q'.val < r'.val := by
  have hna : la ≠ [] := List.length_pos_iff.mp (by omega)
  have hnb : lb ≠ [] := List.length_pos_iff.mp (by omega)
  obtain ⟨blow, top, rfl, ht0, ht1, hblow⟩ := rep_last hcb hb.limbs hnb
  have hblen : (blow ++ [top]).length = blow.length + 1 := by simp
  -- the factor
  have hdeq : Int.tdiv 32768 (top.toInt + 1) = 32768 / (top.toInt + 1) :=
    Int.tdiv_eq_ediv_of_nonneg (by decide)
  obtain ⟨hd0, hd1, hd2, hhalf⟩ := scale_spec ht0 ht1 rfl
  have hdint : (Int16.ofInt (Int.tdiv 32768 (top.toInt + 1))).toInt = 32768 / (top.toInt + 1) := by
    rw [hdeq, ofInt_toInt (by omega) (by omega)]
  generalize hd : Int16.ofInt (Int.tdiv 32768 (top.toInt + 1)) = d at hdint
  have hturnsb : turns b.len = blow.length + 1 := by rw [hb.turns, hblen]
  have htop : h.read b.val (turns b.len - 1) = some top := by
    have := hb.read (i := blow.length) (by simp)
    rw [hturnsb, Nat.add_sub_cancel]
    simpa using this
  obtain ⟨h₁, halloc, hg₁, hnext₁, hdval⟩ := alloc_spec h d
  have hx : Rep h₁ ⟨1, h.next⟩ [d] := ⟨rfl, fun _ => hdval, digits_cons.mpr
    ⟨⟨by rw [hdint]; exact hd0.le, by rw [hdint]; omega⟩, by simp [Digits]⟩⟩
  -- the scaled numbers
  obtain ⟨u, us, h₂, hmultu, hulen, huval, hus, hlus, hvus, huh, hg₂⟩ :=
    scaled_spec (ha.grows hg₁) hna hlen hx
  obtain ⟨v, vs, h₃, hmultv, hvlen, hvval, hvs, hlvs, hvvs, hvh, hg₃⟩ :=
    scaled_spec ((hb.grows hg₁).grows hg₂) hnb (by omega) (hx.grows hg₂)
  obtain ⟨vlow, v2, v1, rfl, hvlow, hv1, hvnorm⟩ :=
    scaled_divisor hblow ht0 ht1 hdint (by rw [hblen] at hn; omega) hlvs (by rw [hvs, hblen]) hvvs
  have hdivlimbs : Limbs (vlow ++ [v2, v1]) := (limbs_append.mp hlvs).1
  have hread1 : h₃.read v.val (turns b.len - 1) = some v1 := by
    have := hvh.read (i := vlow.length + 1) (by simp)
    rw [hvval, hturnsb, Nat.add_sub_cancel, ← hvlow, this]
    simp
  have hread2 : h₃.read v.val (turns b.len - 2) = some v2 := by
    have := hvh.read (i := vlow.length) (by simp)
    rw [hvval, hturnsb, ← hvlow, show vlow.length + 1 + 1 - 2 = vlow.length by omega, this]
    simp
  clear hdeq hd1 hd2 hhalf
  -- the block of the quotient
  have hqlen := ha.len_ge hb hle hlen
  obtain ⟨h₄, halloc₄, hg₄, hnext₄, hcells₄⟩ := xalloc_spec hqlen (h := h₃) (by omega)
  have hdiff : la.length - (blow ++ [top]).length + 1 ≤ us.length := by
    clear * - hus
    omega
  have htake : (us.take (la.length - (blow ++ [top]).length + 1)).length =
      la.length - (blow ++ [top]).length + 1 := by
    rw [List.length_take]
    exact Nat.min_eq_left hdiff
  have hdrop : (us.drop (la.length - (blow ++ [top]).length + 1)).length = vlow.length + 2 := by
    rw [List.length_drop, hus]
    clear * - hvlow hblen hle hn
    omega
  have hlsplit : Limbs (us.take (la.length - (blow ++ [top]).length + 1)) ∧
      Limbs (us.drop (la.length - (blow ++ [top]).length + 1)) :=
    limbs_append.mp (by rw [List.take_append_drop]; exact hlus)
  have hwin := scaled_dividend ha.limbs hb.limbs hcb hnb (by rw [hdint]; exact hd0) hle hlus hus hvus
  obtain ⟨ucells, hucells⟩ := huh
  have hu₄ : h₄.blocks u.val = some ((us.take (la.length - (blow ++ [top]).length + 1)).map some ++
      ((us.drop (la.length - (blow ++ [top]).length + 1)).map some ++ ucells)) := by
    have hlive : h₁.next < h₂.next := Holds.lt ⟨ucells, hucells⟩
    have hlive' := hg₃.next
    rw [huval, hg₄.old _ (by omega), hg₃.old _ hlive, hucells, ← List.append_assoc,
      ← List.map_append, List.take_append_drop]
  have hv₄ : Holds h₄ v.val (vlow ++ [v2, v1]) := by
    obtain ⟨vcells, hvcells⟩ := hvh
    refine ⟨[some 0] ++ vcells, ?_⟩
    have hlive : h₂.next < h₃.next := Holds.lt ⟨vcells, hvcells⟩
    rw [hvval, hg₄.old _ hlive, hvcells]
    simp
  have hlu : u.val < h₂.next := by rw [huval]; exact Holds.lt ⟨ucells, hucells⟩
  have hlv : v.val < h₃.next := by rw [hvval]; exact hvh.lt
  have hvu : v.val ≠ u.val := by omega
  have huq : u.val ≠ h₃.next := by have := hg₃.next; omega
  have hvq : v.val ≠ h₃.next := by omega
  rw [List.replicate_add, ← htake] at hcells₄
  obtain ⟨qs, rs, rest', h₅, hloop, hqs, hlqs, hrs, hlrs, hrlt, hval, hu₅, hq₅, hnext₅, hother₅⟩ :=
    m_divLoop_spec hfuel hdivlimbs hv1 hvu huq hvq _ _ hdrop hlsplit.1 hlsplit.2
      (by rw [hvnorm]; exact hwin) hu₄ hv₄ hcells₄
  rw [List.take_append_drop, hvus, hvnorm] at hval
  rw [hvnorm] at hrlt
  -- the remainder of the numbers themselves
  have hscaled : value rs = (value la - value qs * value (blow ++ [top])) * d.toInt := by linarith
  have hdpos : 0 < d.toInt := by rw [hdint]; exact hd0
  have hr0 : 0 ≤ value la - value qs * value (blow ++ [top]) := by
    refine nonneg_of_mul_nonneg_left ?_ hdpos
    rw [← hscaled]
    exact hlrs.nonneg
  have hr1 : value la - value qs * value (blow ++ [top]) < value (blow ++ [top]) := by
    refine lt_of_mul_lt_mul_right ?_ hdpos.le
    rw [← hscaled]
    exact hrlt
  have hqslen : qs.length = la.length - (blow ++ [top]).length + 1 := hqs.trans htake
  have hg : Grows h h₅ := by
    have hg' := ((hg₁.trans hg₂).trans hg₃).trans hg₄
    refine ⟨by rw [hnext₅]; exact hg'.next, fun p hp => ?_⟩
    have hn1 := hg₁.next
    have hn3 := ((hg₁.trans hg₂).trans hg₃).next
    rw [hother₅ p (by omega) (by omega), hg'.old p hp]
  obtain ⟨vcells, hvcells⟩ := hv₄
  have hn1 := hg₁.next
  have hn2 := (hg₁.trans hg₂).next
  have hn3 := ((hg₁.trans hg₂).trans hg₃).next
  have hbrs : b.len.toInt = rs.length := by
    rw [hb.len, hblen]
    clear * - hrs hvlow hdrop
    omega
  obtain ⟨q', r', h₆, lq, lr, hend, hq', hcq', hvq', hr', hcr', hvr', hgrow, hqval, hrval⟩ :=
    m_divEnd_spec hbusy hg hdpos hlrs (List.length_pos_iff.mp (by clear * - hrs; omega)) (by omega)
      hbrs hlqs
      (List.length_pos_iff.mp (by omega))
      (show (a.len - b.len + 1).toInt = qs.length by rw [hqlen, hqslen])
      (several_big hca ha.limbs hna hb.limbs hle hqslen hr1 (by ring))
      hscaled hu₅ hulen hvlen (by rw [hother₅ _ hvu hvq]; exact hvcells) hq₅ hvu.symm huq hvq
      (by omega) (by omega) hn3
  refine ⟨q', r', h₆, lq, lr, ?_, hq', hcq', hr', hcr', by rw [hvq', hvr']; ring,
    by rw [hvr']; exact hr1, hgrow, by rw [hqval]; exact hn3, by rw [hqval, hrval, hnext₅]; omega⟩
  have hguard : ¬top.toInt + 1 = 0 := by omega
  have hturns : turns (a.len - b.len + 1) =
      (us.take (la.length - (blow ++ [top]).length + 1)).length := by
    rw [turns_eq hqlen, htake]
  have hloop' : m_divLoop fuel v1 v2 (turns b.len) v.val u.val h₃.next
      (turns (a.len - b.len + 1)) h₄ = some h₅ := by
    rw [hturns, hturnsb, ← hvlow]
    exact hloop
  unfold m_div3
  simp only [htop, if_neg hguard, hd, halloc, hmultu, hmultv, hread1, hread2, halloc₄, hloop', hend,
    Option.bind_eq_bind, Option.bind_some]

/-! ## The other cases -/

/-- What a division leaves: a quotient and a remainder in canonical form, and the old blocks. -/
def Divides (h : Heap) (la lb : List Int16) (out : Option (Mint × Mint × Heap)) : Prop :=
  ∃ q r h' lq lr, out = some (q, r, h') ∧ Rep h' q lq ∧ Canon lq ∧ Rep h' r lr ∧ Canon lr ∧
    value la = value lq * value lb + value lr ∧ value lr < value lb ∧ Grows h h'

/-- The blocks of the quotient and of the remainder are new ones, and not the same. -/
def NewBlocks (h : Heap) (out : Option (Mint × Mint × Heap)) : Prop :=
  ∀ q r h', out = some (q, r, h') → (q.len ≠ 0 → h.next ≤ q.val ∧ q.val ≠ r.val) ∧ h.next ≤ r.val

theorem Rep.congr {h h' : Heap} {m : Mint} {l : List Int16} (hm : Rep h m l)
    (heq : h'.blocks m.val = h.blocks m.val) : Rep h' m l :=
  ⟨hm.len, fun hl => (hm.cells hl).congr heq, hm.limbs⟩

/-- A divisor of one limb; the dividend may have limbs too many. -/
theorem m_div1_rep {busy : Int16} (hbusy : busy ≠ 0) {a b q : Mint} {la : List Int16} {n : Int16}
    {h : Heap} (ha : Rep h a la) (hb : Rep h b [n]) (hn : 0 < n.toInt) (hlen : la.length ≤ 32765)
    (hq : q.len = 0) :
    ∃ q' r' h' lq lr, m_div1 busy a b q h = some (q', r', h') ∧ Rep h' q' lq ∧
      (Canon la → Canon lq) ∧ Rep h' r' lr ∧ Canon lr ∧
      value la = value lq * value [n] + value lr ∧ value lr < value [n] ∧ Grows h h' ∧
      h.next ≤ q'.val ∧ q'.val ≠ r'.val ∧ h.next ≤ r'.val := by
  obtain ⟨h₁, hal, hg₁, hnext₁, hcells₁⟩ := xalloc_spec (show (1 : Int16).toInt = 1 from rfl) (h := h) (by decide)
  have hread : h₁.read b.val 0 = some n := (hb.grows hg₁).read (i := 0) (by simp)
  obtain ⟨y, rem, h₂, lq, hsdiv, hy, hcq, hval, hr0, hr1, hg₂, hyval, -⟩ :=
    sdiv_spec hbusy hn (ha.grows hg₁) hlen hq
  have hcells₂ : h₂.blocks h.next = some ([] ++ none :: [none, none]) := by
    rw [hg₂.old _ (by omega), hcells₁]
    rfl
  obtain ⟨h₃, hw, hset⟩ := write_spec hcells₂ rem
  rw [List.length_nil] at hw
  have hhold : Holds h₃ h.next [rem] := ⟨[none, none], hset.self⟩
  have hreadr : h₃.read h.next 0 = some rem := hhold.read (i := 0) (by simp)
  have hg₃ : Grows h h₃ := hset.grows (hg₁.trans hg₂) (le_refl _)
  have hne : y.val ≠ h.next := by omega
  have hone : value [n] = n.toInt := by simp [value, ints, valL]
  have hrun : m_div1 busy a b q h = if rem = 0 then
      (h₃.free h.next).bind fun h' => some (y, ⟨0, h.next⟩, h') else some (y, ⟨1, h.next⟩, h₃) := by
    unfold m_div1
    simp only [hal, hread, hsdiv, hw, hreadr, Option.bind_eq_bind, Option.bind_some,
      Option.pure_def]
  rw [hrun]
  by_cases hzero : rem = 0
  · obtain ⟨h₄, hfree, hnext₄, hother₄⟩ := free_spec hset.self
    rw [if_pos hzero, hfree, Option.bind_some]
    have hr : rem.toInt = 0 := by rw [hzero]; rfl
    refine ⟨y, ⟨0, h.next⟩, h₄, lq, [], rfl, hy.congr ?_, hcq,
      ⟨rfl, fun hne' => absurd rfl hne', by simp [Limbs, ints, Digits]⟩, by simp [Canon], ?_, ?_, ?_,
      by omega, hne, le_refl _⟩
    · rw [hother₄ _ hne, hset.other hne]
    · rw [hval, hone, hr]
      rfl
    · rw [hone]
      exact hn
    · exact ⟨by rw [hnext₄]; exact hg₃.next, fun p hp => by
        rw [hother₄ p (by omega), hg₃.old p hp]⟩
  · rw [if_neg hzero]
    have hrem : value [rem] = rem.toInt := by simp [value, ints, valL]
    refine ⟨y, ⟨1, h.next⟩, h₃, lq, [rem], rfl, hy.congr (hset.other hne), hcq,
      ⟨rfl, fun _ => hhold, ?_⟩, ?_, by rw [hval, hone, hrem], by rw [hone, hrem]; exact hr1, hg₃,
      by omega, hne, le_refl _⟩
    · have := n.toInt_lt
      exact digits_cons.mpr ⟨⟨hr0, by omega⟩, by simp [Digits]⟩
    · intro x hx
      cases hx
      exact lt_of_le_of_ne hr0 fun e => hzero (Int16.toInt_inj.mp e.symm)

theorem m_div1_spec {busy : Int16} (hbusy : busy ≠ 0) {a b q : Mint} {la : List Int16} {n : Int16}
    {h : Heap} (ha : Rep h a la) (hb : Rep h b [n]) (hca : Canon la) (hn : 0 < n.toInt)
    (hlen : la.length ≤ 32764) (hq : q.len = 0) :
    Divides h la [n] (m_div1 busy a b q h) ∧ NewBlocks h (m_div1 busy a b q h) := by
  obtain ⟨q', r', h', lq, lr, hrun, h1, h2, h3, h4, h5, h6, hg, hq', hne, hr'⟩ :=
    m_div1_rep hbusy ha hb hn (by omega) hq
  refine ⟨⟨q', r', h', lq, lr, hrun, h1, h2 hca, h3, h4, h5, h6, hg⟩, fun _ _ _ heq => ?_⟩
  rw [hrun] at heq
  cases heq
  exact ⟨fun _ => ⟨hq', hne⟩, hr'⟩

theorem copyLimbs_spec {a r : Nat} (hne : a ≠ r) (l pre : List Int16) {h : Heap}
    {rest : List (Option Int16)} (ha : ∀ i (hi : i < l.length), h.read a (pre.length + i) = some l[i])
    (hr : h.blocks r = some (pre.map some ++ (List.replicate l.length none ++ rest))) :
    ∃ h', copyLimbs a r l.length pre.length h = some h' ∧
      Sets h h' r ((pre ++ l).map some ++ rest) := by
  induction l generalizing pre h with
  | nil =>
    refine ⟨h, rfl, rfl, ?_⟩
    rw [List.append_nil]
    rw [List.length_nil, List.replicate_zero, List.nil_append] at hr
    rw [← hr, Function.update_eq_self]
  | cons v l ih =>
    have hread : h.read a pre.length = some v := ha 0 (Nat.succ_pos _)
    have hcells : h.blocks r = some (pre.map some ++ none :: (List.replicate l.length none ++ rest)) :=
      hr
    obtain ⟨h₁, hw, hset⟩ := write_spec hcells v
    rw [List.length_map] at hw
    obtain ⟨h', hrun, hset'⟩ := ih (pre ++ [v]) (h := h₁)
      (fun i hi => by
        have := ha (i + 1) (Nat.succ_lt_succ hi)
        unfold Heap.read at this ⊢
        rw [hset.other hne, List.length_append, List.length_singleton, Nat.add_assoc, Nat.add_comm 1 i]
        exact this)
      (by rw [hset.self]; simp)
    rw [List.length_append, List.length_singleton] at hrun
    refine ⟨h', ?_, ?_⟩
    · rw [List.length_cons, copyLimbs, hread]
      simp only [Option.bind_eq_bind, Option.bind_some, hw]
      exact hrun
    · have := hset.trans hset'
      simpa using this

theorem m_div2_spec {a q : Mint} {la lb : List Int16} {h : Heap} (ha : Rep h a la) (hca : Canon la)
    (hlt : value la < value lb) (hlen : la.length ≤ 32764) :
    Divides h la lb (m_div2 a q h) ∧ NewBlocks h (m_div2 a q h) := by
  obtain ⟨h₁, hal, hg₁, -, hcells₁⟩ := xalloc_spec ha.len (h := h) (by omega)
  rw [List.replicate_add] at hcells₁
  have hcopy : ∃ h', copyLimbs a.val h.next la.length 0 h₁ = some h' ∧
      Sets h₁ h' h.next (la.map some ++ List.replicate 2 none) := by
    by_cases hnil : la = []
    · subst hnil
      exact ⟨h₁, rfl, rfl, by
        rw [List.map_nil]
        rw [List.length_nil, List.replicate_zero] at hcells₁
        rw [← hcells₁, Function.update_eq_self]⟩
    · exact copyLimbs_spec (ha.cells hnil).lt.ne la [] (fun i hi => by
        rw [List.length_nil, Nat.zero_add]
        exact (ha.grows hg₁).read hi) hcells₁
  obtain ⟨h', hrun, hset⟩ := hcopy
  have hout : m_div2 a q h = some (⟨0, q.val⟩, ⟨a.len, h.next⟩, h') := by
    unfold m_div2
    simp only [hal, ha.turns, hrun, Option.bind_eq_bind, Option.bind_some, Option.pure_def]
  rw [hout]
  refine ⟨⟨⟨0, q.val⟩, ⟨a.len, h.next⟩, h', [], la, rfl,
    ⟨rfl, fun hne => absurd rfl hne, by simp [Limbs, ints, Digits]⟩, by simp [Canon],
    ⟨ha.len, fun _ => ⟨_, hset.self⟩, ha.limbs⟩, hca, ?_, hlt, hset.grows hg₁ (le_refl _)⟩,
    fun _ _ _ heq => ?_⟩
  · have h0 : value [] = 0 := rfl
    rw [h0, zero_mul, zero_add]
  · cases heq
    exact ⟨fun hne => absurd rfl hne, le_refl _⟩

/-- `m_div` of numbers without signs. -/
theorem m_div_divides {fuel : Nat} (hfuel : 3 ≤ fuel) {busy : Int16} (hbusy : busy ≠ 0) {a b q : Mint}
    {la lb : List Int16} {h : Heap} (ha : Rep h a la) (hb : Rep h b lb) (hca : Canon la)
    (hcb : Canon lb) (hne : lb ≠ []) (hlen : la.length ≤ 32764) (hlenb : lb.length ≤ 32764)
    (hq : q.len = 0) :
    Divides h la lb (m_div fuel busy a b q h) ∧ NewBlocks h (m_div fuel busy a b q h) := by
  have h0 : (0 : Int16).toInt = 0 := rfl
  have h1 : (1 : Int16).toInt = 1 := rfl
  have hpos := List.length_pos_iff.mpr hne
  have hnz : ¬b.len = 0 := rep_one hb hne
  unfold m_div
  rw [if_neg hnz]
  by_cases hone : b.len = 1
  · rw [if_pos hone]
    have hlb : lb.length = 1 := by
      have := hb.len
      rw [hone, h1] at this
      omega
    obtain ⟨n, rfl⟩ := List.length_eq_one_iff.mp hlb
    exact m_div1_spec hbusy ha hb hca (hcb n rfl) hlen hq
  · rw [if_neg hone]
    have hlb : 2 ≤ lb.length := by
      by_contra hcon
      exact hone (Int16.toInt_inj.mp (by rw [hb.len, h1]; omega))
    by_cases hshort : a.len < b.len
    · rw [if_pos hshort]
      rw [Int16.lt_iff_toInt_lt, ha.len, hb.len] at hshort
      refine m_div2_spec ha hca ?_ hlen
      calc value la < 32768 ^ la.length := ha.limbs.lt
        _ ≤ 32768 ^ (lb.length - 1) := pow_le_pow_right₀ (by decide) (by omega)
        _ ≤ value lb := hcb.pow_le hb.limbs hne
    · rw [if_neg hshort]
      rw [Int16.lt_iff_toInt_lt, ha.len, hb.len] at hshort
      obtain ⟨q', r', h', lq, lr, hrun, h1, h2, h3, h4, hval, hlt, hg, hq', hr'⟩ :=
        m_div3_spec hfuel hbusy ha hb hca hcb hlb (by omega) hlen
      refine ⟨⟨q', r', h', lq, lr, hrun, h1, h2, h3, h4, hval, hlt, hg⟩, fun _ _ _ heq => ?_⟩
      rw [hrun] at heq
      cases heq
      exact ⟨fun _ => ⟨hq', hr'.ne⟩, by omega⟩

/-! ## Numbers -/

/-- `m_div` of canonical numbers, as `mdiv` calls it: the quotient and the remainder are those of the
integers, in canonical form. Every `long` is in range and every limb read is one that was written,
since the program comes back. -/
theorem m_div_quotient {fuel : Nat} (hfuel : 3 ≤ fuel) {busy : Int16} (hbusy : busy ≠ 0)
    {a b q : Mint} {va vb : Int} {h : Heap} (ha : IsNum h a va) (hb : IsNum h b vb) (hfa : Fits a)
    (hfb : Fits b) (hva : 0 ≤ va) (hvb : 0 < vb) (hq : q.len = 0) :
    ∃ q' r' vq vr h', m_div fuel busy a b q h = some (q', r', h') ∧ IsNum h' q' vq ∧
      IsNum h' r' vr ∧ va = vq * vb + vr ∧ 0 ≤ vr ∧ vr < vb ∧ 0 ≤ vq ∧ Grows h h' := by
  obtain ⟨la, hla, hca, rfl⟩ := ha.rep hva
  obtain ⟨lb, hlb, hcb, rfl⟩ := hb.rep hvb.le
  have hne : lb ≠ [] := by
    rintro rfl
    exact absurd hvb (by decide)
  obtain ⟨q', r', h', lq, lr, hrun, hlq, hcq, hlr, hcr, hval, hlt, hg⟩ :=
    (m_div_divides hfuel hbusy hla hlb hca hcb hne (hla.length_le hfa) (hlb.length_le hfb) hq).1
  exact ⟨q', r', value lq, value lr, h', hrun, hlq.isNum hcq, hlr.isNum hcr, hval, hlr.limbs.nonneg,
    hlt, hlq.limbs.nonneg, hg⟩

/-- 5 divided by 3. -/
theorem m_div_quotient_five : ∃ q' r' vq vr h',
    m_div 3 1 ⟨1, 0⟩ ⟨1, 1⟩ z₀ fiveThree = some (q', r', h') ∧ IsNum h' q' vq ∧ IsNum h' r' vr ∧
      5 = vq * 3 + vr ∧ 0 ≤ vr ∧ vr < 3 ∧ 0 ≤ vq ∧ Grows fiveThree h' := by
  have hs : Store fiveThree (signed 1 1) ![5, 3, 0] := signed_store (Or.inl rfl) (Or.inl rfl)
  have hf := signed_fits (s := 1) (t := 1) (Or.inl rfl) (Or.inl rfl)
  exact m_div_quotient (le_refl 3) (by decide) (hs.num 0) (hs.num 1) hf.1 hf.2 (by decide)
    (by decide) rfl

/-- The blocks of `mdiv`: those of `q` and `r` may be freed, and are not those of `a` and `b`. -/
structure Apart (h : Heap) (a b q r : Mint) : Prop where
  ownedq : Owned h q
  ownedr : Owned h r
  qr : q.len ≠ 0 → r.len ≠ 0 → r.val ≠ q.val
  aq : a.len ≠ 0 → q.len ≠ 0 → a.val ≠ q.val
  ar : a.len ≠ 0 → r.len ≠ 0 → a.val ≠ r.val
  bq : b.len ≠ 0 → q.len ≠ 0 → b.val ≠ q.val
  br : b.len ≠ 0 → r.len ≠ 0 → b.val ≠ r.val

/-- `mdiv` of numbers without signs, into objects that are neither of them. -/
theorem mdiv_quotient {fuel : Nat} (hfuel : 3 ≤ fuel) {busy : Int16} (hbusy : busy ≠ 0)
    {a b q r : Mint} {va vb : Int} {h : Heap} (ha : IsNum h a va) (hb : IsNum h b vb) (hfa : Fits a)
    (hfb : Fits b) (hva : 0 ≤ va) (hvb : 0 < vb) (hap : Apart h a b q r) :
    ∃ q' r' vq vr h', mdiv fuel busy a b q r h = some (q', r', h') ∧ IsNum h' q' vq ∧
      IsNum h' r' vr ∧ va = vq * vb + vr ∧ 0 ≤ vr ∧ vr < vb := by
  have h0 : (0 : Int16).toInt = 0 := rfl
  obtain ⟨h₁, hx₁, hf₁, -⟩ := xfree_spec (Grows.refl h) hap.ownedq
  have howned₁ : Owned h₁ r := fun hr => by
    obtain ⟨cells, hcells⟩ := hap.ownedr hr
    exact ⟨cells, by rw [hf₁.old _ (hap.ownedr.lt hr) fun hq => hap.qr hq hr, hcells]⟩
  obtain ⟨h₂, hx₂, hf₂, -⟩ := xfree_spec (Grows.refl h₁) howned₁
  -- the blocks of `a` and `b` are still there
  have hkept : ∀ {m : Mint} {v : Int}, IsNum h m v → (m.len ≠ 0 → q.len ≠ 0 → m.val ≠ q.val) →
      (m.len ≠ 0 → r.len ≠ 0 → m.val ≠ r.val) → IsNum h₂ m v := fun hm hq hr =>
    hm.grows fun hne => by
      have hlt := hm.owned.lt hne
      rw [hf₂.old _ (lt_of_lt_of_le hlt hf₁.next) (hr hne), hf₁.old _ hlt (hq hne)]
  obtain ⟨q', r', vq, vr, h', hrun, hq', hr', hval, hr0, hr1, -, -⟩ :=
    m_div_quotient hfuel hbusy (hkept ha hap.aq hap.ar) (hkept hb hap.bq hap.br) hfa hfb hva hvb
      (q := ⟨0, q.val⟩) rfl
  refine ⟨q', r', vq, vr, h', ?_, hq', hr', hval, hr0, hr1⟩
  have ha0 : ¬a.len < 0 := by
    have := ha.len_nonneg.mpr hva
    rw [Int16.le_iff_toInt_le] at this
    rw [Int16.lt_iff_toInt_lt]
    omega
  have hb0 : ¬b.len < 0 := by
    have := hb.len_nonneg.mpr hvb.le
    rw [Int16.le_iff_toInt_le] at this
    rw [Int16.lt_iff_toInt_lt]
    omega
  have hone : ¬(1 : Int16) = -1 := by decide
  unfold mdiv
  simp only [if_neg ha0, if_neg hb0, hx₁, hx₂, hrun, if_neg hone, Option.bind_eq_bind,
    Option.bind_some, Option.pure_def]

/-- The divisor is added back for the lowest digit here. -/
example : ((m_div 3 1 ⟨4, 0⟩ ⟨3, 1⟩ z₀ {
      blocks := fun p => if p = 0 then some [some 0, some 0, some 16384, some 16383]
        else if p = 1 then some [some 1, some 0, some 16384] else none
      next := 2
      fresh := fun p hp => by rw [if_neg (by omega), if_neg (by omega)] }).map
    fun out => (out.1.len, out.2.2.read out.1.val 0, out.2.2.read out.1.val 1)) =
      some (1, some 32766, some 0) := by
  decide

end Venix.Libmp
