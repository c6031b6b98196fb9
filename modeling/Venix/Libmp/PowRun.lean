/-
  `pow` and `rpow` (`libmp`).

  After each bit of the exponent, `d` is the power of the bits read so far. This goes wrong where a
  power that is 0 is multiplied by a number of more than one limb: the product has limbs, all of
  them 0, and a divisor with more limbs leaves them there.
-/
import Venix.Lib.Powering
import Venix.Libmp.Pow

namespace Venix.Libmp

open Venix.Lib

/-! ## A product -/

theorem Rep.owned {h : Heap} {m : Mint} {l : List Int16} (hm : Rep h m l) : Owned h m := by
  intro hne
  have hl : l ≠ [] := by
    rintro rfl
    exact hne (eq_zero_of_toInt hm.len)
  obtain ⟨rest, hrest⟩ := hm.cells hl
  exact ⟨_, hrest⟩

theorem Rep.not_neg {h : Heap} {m : Mint} {l : List Int16} (hm : Rep h m l) : ¬m.len < 0 := by
  have h0 : (0 : Int16).toInt = 0 := rfl
  rw [Int16.lt_iff_toInt_lt, hm.len]
  omega

theorem Rep.magnitude {h : Heap} {m : Mint} {l : List Int16} (hm : Rep h m l) :
    Libmp.magnitude m = m := if_neg hm.not_neg

theorem multBusy_gives {busy : Int16} (hbusy : busy ≠ 0) {a b c : Mint} {va vb : Int} {h : Heap}
    (ha : IsNum h a va) (hb : IsNum h b vb) (hc : Owned h c)
    (hok : MultOk a b va vb ∨ (a.len = 0 ∧ b.len = 0)) :
    GivesZ h c (multBusy busy a b c h) (va * vb) := by
  by_cases hzero : a.len = 0 ∧ b.len = 0
  · have hva := ha.eq_zero hzero.1
    obtain ⟨h₁, hal, hg₁, -, hcells₁⟩ := xalloc_spec (show (0 : Int16).toInt = (0 : Nat) from rfl) (h := h)
      (by decide)
    obtain ⟨h₂, hx, hframe, hother⟩ := xfree_spec hg₁ hc
    obtain ⟨h₃, hfree, hnext, hsame⟩ := free_spec ((hother _ (le_refl _)).trans hcells₁)
    refine ⟨⟨0, c.val⟩, h₃, ?_, ?_, ⟨hnext ▸ hframe.next, fun p hp hne => ?_⟩, fun hne => absurd rfl hne⟩
    · unfold multBusy
      rw [if_pos hzero, hal]
      simp only [if_pos hbusy, hx, Option.bind_eq_bind, Option.bind_some, if_true, hfree]
      rfl
    · rw [hva, zero_mul]
      exact isNum_empty h₃ _
    · rw [hsame p hp.ne, hframe.old p hp hne]
  · unfold multBusy
    rw [if_neg hzero]
    exact mult_gives ha hb hc (hok.resolve_right hzero)

/-- A product of two limbs or more, which need not be canonical. -/
theorem mult_rep {a b c : Mint} {la lb : List Int16} {h : Heap} (ha : Rep h a la) (hb : Rep h b lb)
    (hc : Owned h c) (hmore : 2 ≤ la.length + lb.length) (hsum : la.length + lb.length ≤ 32765) :
    ∃ m l h', mult a b c h = some (m, h') ∧ Rep h' m l ∧ value l = value la * value lb ∧
      l.length ≤ la.length + lb.length ∧ Frame h h' c ∧ h.next ≤ m.val := by
  obtain ⟨len, rs, h₁, hlen, hrs, hlimbs, hval, hholds, hg, heq⟩ := longer_eq ha hb hsum
  obtain ⟨h₂, hx, hframe, hother⟩ := xfree_spec hg hc
  have h0 : (0 : Int16).toInt = 0 := rfl
  have hrun : ∀ z : Mint, longer a b h = some (z, h₁) → z.len ≠ 0 →
      mult a b c h = some (z, h₂) := by
    intro z hz hne
    rw [mult_eq, ha.magnitude, hb.magnitude, hz, multEnd, Option.bind_some, hx, Option.bind_some,
      decide_eq_false ha.not_neg, decide_eq_false hb.not_neg]
    exact if_neg hne
  obtain ⟨l, x, rfl, -, -, hdrop⟩ := quot_canon hlimbs (List.length_pos_iff.mp (by omega))
  rw [List.getLast?_concat, Option.map_some] at heq
  rw [List.length_append, List.length_singleton] at hrs
  by_cases hzero : x = 0
  · obtain ⟨hl, hv, -⟩ := hdrop hzero
    rw [if_neg (not_not.mpr hzero)] at heq
    have hpred : (len - 1).toInt = l.length := by
      rw [sub_one_toInt (by omega), hlen]
      omega
    refine ⟨_, l, h₂, hrun _ heq fun e => ?_, ⟨hpred, fun _ => ?_, hl⟩, hv.trans hval, by omega, hframe,
      le_refl _⟩
    · dsimp only at e
      rw [e, h0] at hpred
      omega
    · obtain ⟨rest, hrest⟩ := hholds
      exact ⟨some x :: rest, by rw [hother _ (le_refl _), hrest]; simp⟩
  · rw [if_pos hzero] at heq
    refine ⟨_, l ++ [x], h₂, hrun _ heq fun e => ?_, ⟨?_, fun _ => ?_, hlimbs⟩, hval, ?_, hframe,
      le_refl _⟩
    · dsimp only at e
      rw [e, h0] at hlen
      omega
    · rw [hlen, List.length_append, List.length_singleton, hrs]
    · exact hholds.congr (hother _ (le_refl _))
    · rw [List.length_append, List.length_singleton, hrs]

/-- A product of more limbs goes wrong. -/
def longest : Int := 32768 ^ 32764

/-- The product of a power by `a`, or by itself: it has few limbs, and is canonical where the modulus
has more limbs than one. -/
theorem product_spec {busy : Int16} (hbusy : busy ≠ 0) {a d x : Mint} {va r : Int} {h : Heap}
    (ha : IsNum h a va) (hd : IsNum h d r) (hx : Owned h x) (hva : 0 ≤ va) (hr : 0 ≤ r)
    (hlena : a.len.toInt.natAbs ≤ 32764) (hsmall : va = 0 → r < 32768) {clen : Nat}
    (hshort : clen = 1 → r < 32768)
    (hfine : clen = 1 ∨ va * r < longest ∧ (r = 0 → a.len.toInt.natAbs ≤ 1)) :
    ∃ m l h', multBusy busy a d x h = some (m, h') ∧ Rep h' m l ∧ value l = va * r ∧
      Frame h h' x ∧ (m.len ≠ 0 → h.next ≤ m.val) ∧
      (clen = 1 ∧ l.length ≤ 32765 ∨ Canon l ∧ l.length ≤ 32764) := by
  have h0 : (0 : Int16).toInt = 0 := rfl
  have hone : r < 32768 → d.len.toInt.natAbs ≤ 1 := fun hlt =>
    hd.natAbs_le (n := 1) (by rwa [abs_of_nonneg hr, pow_one])
  have hlenz : ∀ m : Mint, m.len.toInt.natAbs = 0 → m.len = 0 := fun m hm =>
    eq_zero_of_toInt (by omega)
  by_cases hok : MultOk a d va r ∨ (a.len = 0 ∧ d.len = 0)
  · obtain ⟨m, h', hrun, hnum, hframe, hnew⟩ := multBusy_gives hbusy ha hd hx hok
    obtain ⟨l, hl, hcanon, hval⟩ := hnum.rep (mul_nonneg hva hr)
    have hlen := hl.len
    refine ⟨m, l, h', hrun, hl, hval.symm, hframe, hnew, ?_⟩
    rcases hfine with hc | ⟨hlt, -⟩
    · have hd1 := hone (hshort hc)
      have hprod : |va * r| < 32768 ^ (a.len.toInt.natAbs + d.len.toInt.natAbs) := by
        rw [abs_mul, pow_add]
        exact mul_lt_mul'' ha.lt_pow hd.lt_pow (abs_nonneg _) (abs_nonneg _)
      have := hnum.natAbs_le hprod
      exact .inl ⟨hc, by omega⟩
    · have := hnum.natAbs_le (n := 32764) (by rwa [abs_of_nonneg (mul_nonneg hva hr)])
      exact .inr ⟨hcanon, by omega⟩
  · rw [not_or] at hok
    -- only the power can be zero, and then `a` has more limbs than one
    have hva0 : va ≠ 0 := by
      rintro rfl
      have hd1 := hone (hsmall rfl)
      have halen := ha.len_zero
      rcases Nat.le_one_iff_eq_zero_or_eq_one.mp hd1 with hz | ho
      · exact hok.2 ⟨halen, hlenz d hz⟩
      · exact hok.1 ⟨by rw [halen, h0]; omega, .inr (by rw [halen, h0, ho]; rfl)⟩
    have hr0 : r = 0 := by
      by_contra hr0
      refine hok.1 ⟨?_, .inl ⟨hva0, hr0⟩⟩
      rcases hfine with hc | ⟨hlt, -⟩
      · have := hone (hshort hc)
        omega
      · obtain ⟨h1, hpow1⟩ := ha.pow_le hva0
        obtain ⟨h2, hpow2⟩ := hd.pow_le hr0
        have hpow : (32768 : Int) ^ (a.len.toInt.natAbs - 1 + (d.len.toInt.natAbs - 1)) ≤ va * r := by
          rw [pow_add, ← abs_of_nonneg (mul_nonneg hva hr), abs_mul]
          exact mul_le_mul hpow1 hpow2 (by positivity) (abs_nonneg _)
        have := (pow_lt_pow_iff_right₀ (by decide)).mp (hpow.trans_lt hlt)
        omega
    subst hr0
    have hdlen := hd.len_zero
    have hmore : 2 ≤ a.len.toInt.natAbs := by
      by_contra hcon
      have hle : a.len.toInt.natAbs ≤ 1 := by omega
      rcases Nat.le_one_iff_eq_zero_or_eq_one.mp hle with hz | ho
      · exact hok.2 ⟨hlenz a hz, hdlen⟩
      · exact hok.1 ⟨by rw [hdlen, h0]; omega, .inr (by rw [hdlen, h0, ho]; rfl)⟩
    have hc : clen = 1 := hfine.resolve_right fun hfine => absurd (hfine.2 rfl) (by omega)
    obtain ⟨la, hla, -, hvala⟩ := ha.rep hva
    have hlalen := hla.len
    have hrep : Rep h d [] :=
      ⟨by rw [hdlen]; rfl, fun hne => absurd rfl hne, by simp [Limbs, ints, Digits]⟩
    obtain ⟨m, l, h', hrun, hl, hval, hlen, hframe, hnew⟩ := mult_rep hla hrep hx
      (by rw [List.length_nil]; omega) (by rw [List.length_nil]; omega)
    rw [List.length_nil] at hlen
    refine ⟨m, l, h', ?_, hl, hval.trans ?_, hframe, fun _ => hnew, .inl ⟨hc, by omega⟩⟩
    · unfold multBusy
      rw [if_neg hok.2, hrun]
    · rw [← hvala]
      rfl

/-! ## A remainder -/

/-- The rest of a dividend that is canonical, or is divided by one limb. -/
theorem m_div_rest {fuel : Nat} (hfuel : 3 ≤ fuel) {busy : Int16} (hbusy : busy ≠ 0) {a b q : Mint}
    {la lb : List Int16} {h : Heap} (ha : Rep h a la) (hb : Rep h b lb) (hcb : Canon lb)
    (hne : lb ≠ []) (hq : q.len = 0)
    (hcase : lb.length = 1 ∧ la.length ≤ 32765 ∨ Canon la ∧ la.length ≤ 32764) :
    ∃ q' r' h' lq lr, m_div fuel busy a b q h = some (q', r', h') ∧ Rep h' q' lq ∧ Rep h' r' lr ∧
      Canon lr ∧ value la = value lq * value lb + value lr ∧ value lr < value lb ∧ Grows h h' ∧
      (q'.len ≠ 0 → h.next ≤ q'.val ∧ q'.val ≠ r'.val) ∧ h.next ≤ r'.val := by
  rcases hcase with ⟨hone, hlen⟩ | ⟨hca, hlen⟩
  · obtain ⟨n, rfl⟩ := List.length_eq_one_iff.mp hone
    have hblen : b.len = 1 := Int16.toInt_inj.mp hb.len
    obtain ⟨q', r', h', lq, lr, hrun, h1, -, h3, h4, h5, h6, hg, hq', hne', hr'⟩ :=
      m_div1_rep hbusy ha hb (hcb n rfl) hlen hq
    refine ⟨q', r', h', lq, lr, ?_, h1, h3, h4, h5, h6, hg, fun _ => ⟨hq', hne'⟩, hr'⟩
    unfold m_div
    rw [if_neg (by rw [hblen]; decide), if_pos hblen, hrun]
  · have hparts : Divides h la lb (m_div fuel busy a b q h) ∧ NewBlocks h (m_div fuel busy a b q h) := by
      by_cases hbig : lb.length ≤ 32764
      · exact m_div_divides hfuel hbusy ha hb hca hcb hne hlen hbig hq
      · have h1 : (1 : Int16).toInt = 1 := rfl
        have hblen := hb.len
        have hlt : value la < value lb :=
          calc value la < 32768 ^ la.length := ha.limbs.lt
            _ ≤ 32768 ^ (lb.length - 1) := pow_le_pow_right₀ (by decide) (by omega)
            _ ≤ value lb := hcb.pow_le hb.limbs hne
        unfold m_div
        rw [if_neg (rep_one hb hne), if_neg fun e => by rw [e, h1] at hblen; omega,
          if_pos (by rw [Int16.lt_iff_toInt_lt, ha.len, hb.len]; omega)]
        exact m_div2_spec ha hca hlt hlen
    obtain ⟨⟨q', r', h', lq, lr, hrun, h1, -, h3, h4, h5, h6, hg⟩, hnew⟩ := hparts
    exact ⟨q', r', h', lq, lr, hrun, h1, h3, h4, h5, h6, hg, hnew q' r' h' hrun⟩

theorem mdiv_rest {fuel : Nat} (hfuel : 3 ≤ fuel) {busy : Int16} (hbusy : busy ≠ 0) {a b q r : Mint}
    {la lb : List Int16} {h : Heap} (ha : Rep h a la) (hb : Rep h b lb) (hcb : Canon lb)
    (hne : lb ≠ []) (hap : Apart h a b q r)
    (hcase : lb.length = 1 ∧ la.length ≤ 32765 ∨ Canon la ∧ la.length ≤ 32764) :
    ∃ q' r' h', mdiv fuel busy a b q r h = some (q', r', h') ∧ Owned h' q' ∧
      IsNum h' r' (value la % value lb) ∧ Parts h h' q r q' r' := by
  obtain ⟨h₁, hx₁, hf₁, -⟩ := xfree_spec (Grows.refl h) hap.ownedq
  have howned₁ : Owned h₁ r := hap.ownedr.kept fun hr =>
    hf₁.old _ (hap.ownedr.lt hr) fun hq => hap.qr hq hr
  obtain ⟨h₂, hx₂, hf₂, -⟩ := xfree_spec (Grows.refl h₁) howned₁
  have hnext := hf₁.next.trans hf₂.next
  have hold : ∀ p < h.next, (q.len ≠ 0 → p ≠ q.val) → (r.len ≠ 0 → p ≠ r.val) →
      h₂.blocks p = h.blocks p := fun p hp hq hr => by
    rw [hf₂.old _ (lt_of_lt_of_le hp hf₁.next) hr, hf₁.old _ hp hq]
  have hkept : ∀ {m : Mint} {l : List Int16}, Rep h m l →
      (m.len ≠ 0 → h₂.blocks m.val = h.blocks m.val) → Rep h₂ m l := fun hm heq =>
    ⟨hm.len, fun hl => (hm.cells hl).congr (heq fun h0 => hl (by
      have := hm.len
      rw [h0] at this
      have h1 : (0 : Int16).toInt = 0 := rfl
      exact List.length_eq_zero_iff.mp (by omega))), hm.limbs⟩
  have ha₂ := hkept ha fun hne => hold _ (ha.owned.lt hne) (hap.aq hne) (hap.ar hne)
  have hb₂ := hkept hb fun hne => hold _ (hb.owned.lt hne) (hap.bq hne) (hap.br hne)
  obtain ⟨q', r', h', lq, lr, hrun, h1, h3, h4, hval, hlt, hg, hqnew, hrnew⟩ :=
    m_div_rest hfuel hbusy ha₂ hb₂ hcb hne (q := ⟨0, q.val⟩) rfl hcase
  have hpos : 0 < value lb := hcb.value_pos hb.limbs hne
  have hmod : value la % value lb = value lr := by
    rw [hval, Int.add_comm, Int.add_mul_emod_self_right]
    exact Int.emod_eq_of_lt h3.limbs.nonneg hlt
  refine ⟨q', r', h', ?_, h1.owned, hmod ▸ h3.isNum h4, hnext.trans hg.next, fun p hp hq hr => ?_,
    fun hl => ⟨hnext.trans (hqnew hl).1, (hqnew hl).2⟩, hnext.trans hrnew⟩
  · rw [mdiv_eq, hx₁, Option.bind_some, hx₂, Option.bind_some, ha.magnitude, hb.magnitude, hrun,
      Option.bind_some, decide_eq_false ha.not_neg, decide_eq_false hb.not_neg]
    rfl
  · rw [hg.old p (lt_of_lt_of_le hp hnext), hold p hp hq hr]

/-! ## One step -/

section Objects

variable {Q : Type} [DecidableEq Q]

/-- The power `r` is in `d`, and the other objects are as they were in the heap `h₀`; what the
variables and `d` have was not in it. -/
structure Powering (h₀ h : Heap) (st : Q → Mint) (vars : Q ⊕ PowVar → Mint) (d : Q) (r : Int) :
    Prop where
  held : Held h vars
  same : ∀ q ≠ d, vars (.inl q) = st q
  frame : Frame h₀ h (st d)
  new : ∀ o, (∀ q ≠ d, o ≠ .inl q) → (vars o).len ≠ 0 → h₀.next ≤ (vars o).val
  num : IsNum h (vars (.inl d)) r

variable {h₀ h : Heap} {st : Q → Mint} {vars : Q ⊕ PowVar → Mint} {a c d : Q} {va r : Int}
  {lc : List Int16} {fuel : Nat} {busy : Int16}

omit [DecidableEq Q] in
theorem local_ne (o : PowVar) : ∀ q ≠ d, (Sum.inr o : Q ⊕ PowVar) ≠ .inl q :=
  fun _ _ => Sum.inr_ne_inl

omit [DecidableEq Q] in
theorem result_ne : ∀ q ≠ d, (Sum.inl d : Q ⊕ PowVar) ≠ .inl q :=
  fun _ hq => Sum.inl_injective.ne hq.symm

/-- A product modulo `c`. -/
theorem multMod_spec (hfuel : 3 ≤ fuel) (hbusy : busy ≠ 0) (hp : Powering h₀ h st vars d r)
    (hcd : c ≠ d) (ha : IsNum h (vars (.inl a)) va) (hva : 0 ≤ va) (hr : 0 ≤ r)
    (hc : Rep h (vars (.inl c)) lc) (hcc : Canon lc) (hc0 : lc ≠ [])
    (hlena : (vars (.inl a)).len.toInt.natAbs ≤ 32764) (hsmall : va = 0 → r < 32768)
    (hlt : r < value lc)
    (hfine : lc.length = 1 ∨
      va * r < longest ∧ (r = 0 → (vars (.inl a)).len.toInt.natAbs ≤ 1)) :
    ∃ vars' h', multMod fuel busy a c d vars h = some (vars', h') ∧
      Powering h₀ h' st vars' d (va * r % value lc) := by
  have hshort : lc.length = 1 → r < 32768 := fun hone => by
    have := hc.limbs.lt
    rw [hone, pow_one] at this
    exact hlt.trans this
  obtain ⟨m, l, h₁, hmult, hl, hval, hframe, hnew, hcase⟩ :=
    product_spec hbusy ha hp.num (hp.held.owned (.inr .x)) hva hr hlena hsmall hshort hfine
  have hheld₁ := hp.held.replaced (c := .inr .x) hl.owned hframe hnew
  have hc₁ : Rep h₁ (Function.update vars (.inr .x) m (.inl c)) lc := by
    rw [Function.update_of_ne Sum.inl_ne_inr]
    exact ⟨hc.len, fun hne => (hc.cells hne).congr (hp.held.kept hframe Sum.inl_ne_inr fun h0 => hc0
      (List.length_eq_zero_iff.mp (by
        have := hc.len
        rw [h0] at this
        have h1 : (0 : Int16).toInt = 0 := rfl
        omega))), hc.limbs⟩
  have hx₁ : Rep h₁ (Function.update vars (.inr .x) m (.inr .x)) l := by
    rwa [Function.update_self]
  obtain ⟨q', r', h', hmdiv, hq, hnum, hparts⟩ := mdiv_rest hfuel hbusy hx₁ hc₁ hcc hc0
    (hheld₁.apart (q := .inr .y) (r := .inl d) (Sum.inr_injective.ne (by decide)) Sum.inr_ne_inl
      Sum.inl_ne_inr (Sum.inl_injective.ne hcd.symm) Sum.inr_ne_inl) hcase
  have hheld' := hheld₁.replaced_two Sum.inr_ne_inl hq hnum.owned hparts
  rw [hval] at hnum
  have hy : Function.update vars (.inr .x) m (.inr .y) = vars (.inr .y) :=
    Function.update_of_ne (Sum.inr_injective.ne (by decide)) _ _
  have hd : Function.update vars (.inr .x) m (.inl d) = vars (.inl d) :=
    Function.update_of_ne Sum.inl_ne_inr _ _
  refine ⟨_, h', ?_, hheld', fun q hq => ?_, ⟨?_, fun p hlt' hne => ?_⟩, fun o ho hne => ?_, ?_⟩
  · refine Option.bind_eq_some_iff.mpr ⟨(Function.update vars (.inr .x) m, h₁), ?_, ?_⟩
    · unfold multBusyAt
      rw [hmult]
      rfl
    · exact Option.map_eq_some_iff.mpr ⟨_, hmdiv, rfl⟩
  · rw [Function.update_of_ne (Sum.inl_injective.ne hq), Function.update_of_ne Sum.inl_ne_inr,
      Function.update_of_ne Sum.inl_ne_inr, hp.same q hq]
  · exact hp.frame.next.trans (hframe.next.trans hparts.next)
  · have hlt₁ : p < h.next := lt_of_lt_of_le hlt' hp.frame.next
    rw [hparts.old p (lt_of_lt_of_le hlt₁ hframe.next), hframe.old p hlt₁, hp.frame.old p hlt' hne]
    · exact fun hl => (lt_of_lt_of_le hlt' (hp.new _ (local_ne .x) hl)).ne
    · rw [hy]
      exact fun hl => (lt_of_lt_of_le hlt' (hp.new _ (local_ne .y) hl)).ne
    · rw [hd]
      exact fun hl => (lt_of_lt_of_le hlt' (hp.new _ result_ne hl)).ne
  · have hnext₁ := hp.frame.next.trans hframe.next
    rcases o with q | o
    · by_cases hq : q = d
      · subst hq
        rw [Function.update_self]
        exact hnext₁.trans hparts.rest
      · exact absurd rfl (ho q hq)
    · rw [Function.update_of_ne Sum.inr_ne_inl] at hne ⊢
      cases o with
      | x =>
        rw [Function.update_of_ne (Sum.inr_injective.ne (by decide)), Function.update_self] at hne ⊢
        exact hp.frame.next.trans (hnew hne)
      | y =>
        rw [Function.update_self] at hne ⊢
        exact hnext₁.trans (hparts.quotient hne).1
  · rw [Function.update_self]
    exact hnum

/-! ## The bits of a limb -/

theorem shift_test (n : Int16) : n <<< 1 &&& 0o100000 ≠ 0 ↔ n.toBitVec.getLsbD 14 = true := by
  have hand : (n <<< 1 &&& 0o100000).toBitVec =
      if n.toBitVec.getLsbD 14 then BitVec.twoPow 16 15 else 0#16 := by
    rw [Int16.toBitVec_and, Int16.toBitVec_shiftLeft]
    have hmask : (0o100000 : Int16).toBitVec = BitVec.twoPow 16 15 := rfl
    rw [hmask, BitVec.and_twoPow]
    congr 1
    rw [BitVec.getLsbD_shiftLeft']
    rfl
  rw [Ne, ← Int16.toBitVec_inj, hand]
  by_cases hbit : n.toBitVec.getLsbD 14 = true
  · rw [if_pos hbit]
    exact ⟨fun _ => hbit, fun _ => by decide⟩
  · rw [if_neg hbit]
    exact ⟨fun hne => absurd rfl hne, fun h => absurd h hbit⟩

theorem shift_bit (n : Int16) {i : Nat} (hi : i < 15) :
    (n <<< 1).toBitVec.getLsbD (i + 1) = n.toBitVec.getLsbD i := by
  rw [Int16.toBitVec_shiftLeft, BitVec.getLsbD_shiftLeft']
  have hamount : ((1 : Int16).toBitVec.smod 16).toNat = 1 := rfl
  rw [hamount, decide_eq_true (show i + 1 < 16 by omega), decide_eq_false (show ¬i + 1 < 1 by omega),
    Nat.add_sub_cancel]
  rfl

/-- When `pow` goes right: the modulus has one limb; or no product is too long, and `a` has not more
limbs than one where a power that is 0 is multiplied by it. -/
def Safe (va vc : Int) (e alen clen : Nat) : Prop :=
  clen = 1 ∨ ∀ k, leadPower va vc e (k + 1) * leadPower va vc e (k + 1) < longest ∧
    (e.testBit k = true → va * leadSquare va vc e k < longest ∧
      (leadSquare va vc e k = 0 → alen ≤ 1))

/-- The arguments of `pow` but for the exponent `e`. -/
structure PowArgs (h₀ : Heap) (st : Q → Mint) (a c d : Q) (va vc : Int) (e : Nat) : Prop where
  held : Held h₀ st
  base : IsNum h₀ (st a) va
  nonneg : 0 ≤ va
  modulus : IsNum h₀ (st c) vc
  one_lt : 1 < vc
  had : a ≠ d
  hcd : c ≠ d
  fits : (st a).len.toInt.natAbs ≤ 32764
  safe : Safe va vc e (st a).len.toInt.natAbs (st c).len.toInt.natAbs

variable {vc : Int} {e k : Nat}

omit [DecidableEq Q] in
/-- An object that `pow` does not change. -/
theorem Powering.keeps (hp : Powering h₀ h st vars d r) (hs : Held h₀ st) {q : Q} {w : Int}
    (hq : q ≠ d) (hn : IsNum h₀ (st q) w) : IsNum h (vars (.inl q)) w := by
  rw [hp.same q hq]
  exact hn.grows (hs.kept hp.frame hq)

theorem leadSquare_small (hva : va = 0) (hvc : 1 < vc) : leadSquare va vc e k < 32768 := by
  rw [leadSquare_eq, hva]
  rcases Nat.eq_zero_or_pos (2 * (e / 2 ^ (k + 1))) with hzero | hpos
  · rw [hzero, pow_zero, Int.emod_eq_of_lt (by decide) hvc]
    decide
  · rw [zero_pow hpos.ne', Int.zero_emod]
    decide

/-- A turn squares the power, and multiplies it by `a` where the bit is set. -/
theorem powBit_spec (hfuel : 3 ≤ fuel) (hbusy : busy ≠ 0) (hargs : PowArgs h₀ st a c d va vc e)
    (hp : Powering h₀ h st vars d (leadPower va vc e (k + 1))) :
    ∃ vars₁ h₁, multMod fuel busy d c d vars h = some (vars₁, h₁) ∧
      (e.testBit k = false → Powering h₀ h₁ st vars₁ d (leadPower va vc e k)) ∧
      (e.testBit k = true → ∃ vars₂ h₂, multMod fuel busy a c d vars₁ h₁ = some (vars₂, h₂) ∧
        Powering h₀ h₂ st vars₂ d (leadPower va vc e k)) := by
  have hc0 : 0 < vc := by
    have := hargs.one_lt
    omega
  have hr0 := leadPower_nonneg (a := va) (e := e) (k := k + 1) hc0
  have hs0 := leadSquare_nonneg (a := va) (e := e) (k := k) hc0
  obtain ⟨lc, hlc, hcc, hval⟩ := (hp.keeps hargs.held hargs.hcd hargs.modulus).rep hc0.le
  have hne : lc ≠ [] := by
    rintro rfl
    exact hc0.ne' hval
  have hclen : lc.length = (st c).len.toInt.natAbs := by
    have := hlc.len
    rw [hp.same c hargs.hcd] at this
    omega
  have hrlt : leadPower va vc e (k + 1) < value lc := hval ▸ leadPower_lt hc0
  have hsafe := hargs.safe
  unfold Safe at hsafe
  rw [← hclen] at hsafe
  -- the square
  have hlend : (vars (.inl d)).len.toInt.natAbs ≤ 32764 := by
    by_cases hone : lc.length = 1
    · have hlimb := hlc.limbs.lt
      rw [hone] at hlimb
      have := hp.num.natAbs_le (n := 1) (by
        rw [abs_of_nonneg hr0]
        exact hrlt.trans hlimb)
      omega
    · refine hp.num.natAbs_le ?_
      rw [abs_of_nonneg hr0]
      refine lt_of_le_of_lt ?_ ((hsafe.resolve_left hone) k).1
      exact (Int.le_self_sq _).trans (sq _).le
  obtain ⟨vars₁, h₁, hrun₁, hp₁⟩ := multMod_spec hfuel hbusy hp hargs.hcd hp.num hr0 hr0 hlc hcc hne
    hlend (fun h0 => h0 ▸ by decide) hrlt (hsafe.imp_right fun hall => ⟨(hall k).1, fun h0 => by
      have hnum := hp.num
      rw [h0] at hnum
      rw [hnum.len_zero]
      decide⟩)
  rw [← hval] at hp₁
  have hp₁ : Powering h₀ h₁ st vars₁ d (leadSquare va vc e k) := hp₁
  refine ⟨vars₁, h₁, hrun₁, fun hbit => ?_, fun hbit => ?_⟩
  · rw [leadPower_clear hbit]
    exact hp₁
  · obtain ⟨lc', hlc', hcc', hval'⟩ := (hp₁.keeps hargs.held hargs.hcd hargs.modulus).rep hc0.le
    have hne' : lc' ≠ [] := by
      rintro rfl
      exact hc0.ne' hval'
    have hclen' : lc'.length = lc.length := by
      have h1 := hlc'.len
      rw [hp₁.same c hargs.hcd] at h1
      clear * - hclen h1
      omega
    have hsame := hp₁.same a hargs.had
    obtain ⟨vars₂, h₂, hrun₂, hp₂⟩ := multMod_spec hfuel hbusy hp₁ hargs.hcd
      (hp₁.keeps hargs.held hargs.had hargs.base) hargs.nonneg hs0 hlc' hcc' hne'
      (hsame ▸ hargs.fits) (fun h0 => leadSquare_small h0 hargs.one_lt)
      (hval' ▸ leadSquare_lt hc0) (by
        rw [hclen', hsame]
        exact hsafe.imp_right fun hall => (hall k).2 hbit)
    rw [← hval', ← leadPower_set hbit] at hp₂
    exact ⟨vars₂, h₂, hrun₂, hp₂⟩

/-- `n` has the bits of the exponent from `lo` on, as far as they are left. -/
theorem powBits_spec (hfuel : 3 ≤ fuel) (hbusy : busy ≠ 0) (hargs : PowArgs h₀ st a c d va vc e)
    {lo m : Nat} {n : Int16} (hm : m ≤ 15)
    (hbits : ∀ i < m, n.toBitVec.getLsbD (15 - m + i) = e.testBit (lo + i))
    (hp : Powering h₀ h st vars d (leadPower va vc e (lo + m))) :
    ∃ vars' h', powBits fuel busy a c d m n vars h = some (vars', h') ∧
      Powering h₀ h' st vars' d (leadPower va vc e lo) := by
  induction m generalizing n vars h with
  | zero => exact ⟨vars, h, rfl, hp⟩
  | succ m ih =>
    obtain ⟨vars₁, h₁, hrun₁, hclear, hset⟩ := powBit_spec (k := lo + m) hfuel hbusy hargs hp
    have hnext : ∀ i < m, (n <<< 1).toBitVec.getLsbD (15 - m + i) = e.testBit (lo + i) := by
      intro i hi
      rw [← hbits i (by omega), show 15 - m + i = 15 - (m + 1) + i + 1 by omega,
        shift_bit n (by omega)]
    have htop : n.toBitVec.getLsbD 14 = e.testBit (lo + m) := by
      rw [← hbits m (Nat.lt_succ_self m)]
      congr 1
      omega
    by_cases hbit : e.testBit (lo + m) = true
    · obtain ⟨vars₂, h₂, hrun₂, hp₂⟩ := hset hbit
      obtain ⟨vars', h', hrun', hp'⟩ := ih (by omega) hnext hp₂
      refine ⟨vars', h', ?_, hp'⟩
      rw [powBits]
      refine Option.bind_eq_some_iff.mpr ⟨(vars₁, h₁), hrun₁, ?_⟩
      refine (if_pos ((shift_test n).mpr (htop.trans hbit))).trans ?_
      exact Option.bind_eq_some_iff.mpr ⟨(vars₂, h₂), hrun₂, hrun'⟩
    · obtain ⟨vars', h', hrun', hp'⟩ := ih (by omega) hnext (hclear (Bool.not_eq_true _ ▸ hbit))
      refine ⟨vars', h', ?_, hp'⟩
      rw [powBits]
      refine Option.bind_eq_some_iff.mpr ⟨(vars₁, h₁), hrun₁, ?_⟩
      exact (if_neg fun hne => hbit (htop ▸ (shift_test n).mp hne)).trans hrun'

/-! ## The exponent -/

theorem limb_bits {l : List Int16} (hl : Limbs l) {i t : Nat} (hi : i < l.length) (ht : t < 15) :
    l[i].toBitVec.getLsbD t = (value l).toNat.testBit (15 * i + t) := by
  induction l generalizing i with
  | nil => exact absurd hi (Nat.not_lt_zero _)
  | cons x l ih =>
    obtain ⟨hx, hl⟩ : IsLimb x.toInt ∧ Limbs l := digits_cons.mp hl
    have hnonneg := hl.nonneg
    have hval : (value (x :: l)).toNat = 2 ^ 15 * (value l).toNat + x.toInt.toNat := by
      have hcons : value (x :: l) = x.toInt + 32768 * value l := rfl
      rw [hcons]
      obtain ⟨u, hu⟩ := Int.eq_ofNat_of_zero_le hx.1
      obtain ⟨w, hw⟩ := Int.eq_ofNat_of_zero_le hnonneg
      clear * - hu hw
      rw [hu, hw, Int.toNat_natCast, Int.toNat_natCast]
      omega
    have hlt : x.toInt.toNat < 2 ^ 15 := by
      have := hx.2
      omega
    rw [hval, Nat.testBit_two_pow_mul_add _ hlt]
    cases i with
    | zero =>
      rw [Nat.mul_zero, Nat.zero_add, if_pos ht]
      have hnat : x.toBitVec.toNat = x.toInt.toNat := by
        have h1 : x.toInt = x.toBitVec.toInt := rfl
        have h2 := BitVec.toInt_eq_toNat_cond x.toBitVec
        have h3 := x.toBitVec.isLt
        have := hx.1
        rw [h1] at this ⊢
        split at h2 <;> omega
      rw [← hnat]
      rfl
    | succ i =>
      rw [if_neg (by omega), show 15 * (i + 1) + t - 15 = 15 * i + t by omega]
      exact ih hl (Nat.lt_of_succ_lt_succ hi)

variable {b : Q} {lb : List Int16}

theorem powLimbs_spec (hfuel : 3 ≤ fuel) (hbusy : busy ≠ 0)
    (hargs : PowArgs h₀ st a c d va vc (value lb).toNat) (hb : Rep h₀ (st b) lb) (hbd : b ≠ d)
    {m j : Nat} (hm : lb.length ≤ j + m) (hj : j ≤ lb.length)
    (hp : Powering h₀ h st vars d (leadPower va vc (value lb).toNat (15 * (lb.length - j)))) :
    ∃ vars' h', powLimbs fuel busy a b c d m j vars h = some (vars', h') ∧
      Powering h₀ h' st vars' d (leadPower va vc (value lb).toNat 0) := by
  have hsame := hp.same b hbd
  induction m generalizing j vars h with
  | zero =>
    have hzero : 15 * (lb.length - j) = 0 := by omega
    rw [hzero] at hp
    exact ⟨vars, h, rfl, hp⟩
  | succ m ih =>
    rw [powLimbs, hsame, hb.len]
    by_cases hlt : j < lb.length
    · rw [if_pos (by exact_mod_cast hlt)]
      have hread : h.read (st b).val (turns (st b).len - j - 1) = some lb[lb.length - j - 1] := by
        have hne : (st b).len ≠ 0 := by
          intro h0
          have h1 := hb.len
          rw [h0] at h1
          have h2 : (0 : Int16).toInt = 0 := rfl
          omega
        have hholds := (hb.cells (List.length_pos_iff.mp (by omega))).congr
          (hargs.held.kept hp.frame hbd hne)
        rw [hb.turns]
        exact hholds.read (by omega)
      have hbits : ∀ i < 15, lb[lb.length - j - 1].toBitVec.getLsbD (15 - 15 + i) =
          (value lb).toNat.testBit (15 * (lb.length - j - 1) + i) := by
        intro i hi
        rw [Nat.sub_self, Nat.zero_add]
        exact limb_bits hb.limbs (by omega) hi
      have hstart : 15 * (lb.length - j) = 15 * (lb.length - j - 1) + 15 := by omega
      rw [hstart] at hp
      obtain ⟨vars₁, h₁, hrun₁, hp₁⟩ :=
        powBits_spec hfuel hbusy hargs (le_refl 15) hbits hp
      obtain ⟨vars', h', hrun', hp'⟩ := ih (j := j + 1) (by omega) hlt
        (by rwa [Nat.sub_add_eq]) (hp₁.same b hbd)
      exact ⟨vars', h', Option.bind_eq_some_iff.mpr ⟨_, hread, Option.bind_eq_some_iff.mpr
        ⟨(vars₁, h₁), hrun₁, hrun'⟩⟩, hp'⟩
    · rw [if_neg (by exact_mod_cast hlt)]
      have hzero : 15 * (lb.length - j) = 0 := by omega
      rw [hzero] at hp
      exact ⟨vars, h, rfl, hp⟩

/-- A variable is freed at the end. -/
theorem Powering.freed (hp : Powering h₀ h st vars d r) (o : PowVar) :
    ∃ h', xfreeAt vars (.inr o) h =
        some (Function.update vars (.inr o) ⟨0, (vars (.inr o)).val⟩, h') ∧
      Powering h₀ h' st (Function.update vars (.inr o) ⟨0, (vars (.inr o)).val⟩) d r := by
  obtain ⟨h', hx, hframe, -⟩ := xfree_spec (Grows.refl h) (hp.held.owned (.inr o))
  refine ⟨h', ?_, hp.held.replaced (fun hne => absurd rfl hne) hframe fun hne => absurd rfl hne,
    fun q hq => ?_, ⟨hp.frame.next.trans hframe.next, fun p hlt hne => ?_⟩, fun o' ho' hne => ?_, ?_⟩
  · unfold xfreeAt
    rw [hx]
    rfl
  · rw [Function.update_of_ne Sum.inl_ne_inr, hp.same q hq]
  · rw [hframe.old p (lt_of_lt_of_le hlt hp.frame.next), hp.frame.old p hlt hne]
    exact fun hl => (lt_of_lt_of_le hlt (hp.new _ (local_ne o) hl)).ne
  · by_cases e : o' = .inr o
    · rw [e, Function.update_self] at hne
      exact absurd rfl hne
    · rw [Function.update_of_ne e] at hne ⊢
      exact hp.new o' ho' hne
  · rw [Function.update_of_ne Sum.inl_ne_inr]
    exact hp.num.grows (hp.held.kept hframe Sum.inl_ne_inr)

/-- The power 1, in new limbs. -/
theorem powStart_spec (hs : Held h st) (d : Q) :
    ∃ h₁ h', xfreeAt (Sum.elim st fun _ : PowVar => z₀) (.inl d) h =
        some (Function.update (Sum.elim st fun _ => z₀) (.inl d) ⟨0, (st d).val⟩, h₁) ∧
      (h₁.xalloc 1).2.write h₁.next 0 1 = some h' ∧
      Powering h h' st (Function.update (Function.update (Sum.elim st fun _ => z₀) (.inl d)
        ⟨0, (st d).val⟩) (.inl d) ⟨1, h₁.next⟩) d 1 := by
  obtain ⟨h₁, hx, hframe, -⟩ := xfree_spec (Grows.refl h) (hs.owned d)
  obtain ⟨h₂, hal, hg, -, hcells⟩ := xalloc_spec (show (1 : Int16).toInt = (1 : Nat) from rfl) (h := h₁)
    (by decide)
  have hcell : h₂.blocks h₁.next = some ([] ++ none :: [none, none]) := hcells
  obtain ⟨h', hw, hset⟩ := write_spec hcell 1
  have hheld₁ := hs.locals (L := PowVar).replaced (c := .inl d) (m := ⟨0, (st d).val⟩)
    (fun hne => absurd rfl hne) hframe fun hne => absurd rfl hne
  have hg' : Grows h₁ h' := hset.grows hg (le_refl _)
  have hnum : IsNum h' ⟨1, h₁.next⟩ 1 := oneLimb_isNum (s := 1) ⟨_, hset.self⟩ (by decide) (Or.inl rfl)
  refine ⟨h₁, h', ?_, ?_, ⟨hheld₁.replaced hnum.owned (hg'.frame _) fun _ => le_refl _,
    fun q hq => ?_, ⟨hframe.next.trans hg'.next, fun p hlt hne => ?_⟩, fun o ho hne => ?_, ?_⟩⟩
  · unfold xfreeAt
    rw [show (Sum.elim st (fun _ : PowVar => z₀) (.inl d)) = st d from rfl, hx]
    rfl
  · rw [hal]
    exact hw
  · rw [Function.update_idem, Function.update_of_ne (Sum.inl_injective.ne hq)]
    rfl
  · rw [hg'.old p (lt_of_lt_of_le hlt hframe.next), hframe.old p hlt hne]
  · rw [Function.update_idem] at hne ⊢
    by_cases e : o = .inl d
    · rw [e, Function.update_self]
      exact hframe.next
    · rw [Function.update_of_ne e] at hne
      rcases o with q | o
      · exact absurd rfl (ho q fun h => e (congrArg Sum.inl h))
      · exact absurd rfl hne
  · rw [Function.update_self]
    exact hnum

/-- `pow` where nothing goes wrong; the exponent need not be canonical. -/
theorem pow_gives (hfuel : 3 ≤ fuel) (hbusy : busy ≠ 0)
    (hargs : PowArgs h st a c d va vc (value lb).toNat) (hb : Rep h (st b) lb) (hbd : b ≠ d) :
    ∃ m h', pow fuel busy st a b c d h = some (Function.update st d m, h') ∧
      IsNum h' m (va ^ (value lb).toNat % vc) ∧ Frame h h' (st d) ∧
      (m.len ≠ 0 → h.next ≤ m.val) := by
  have hlen : lb.length ≤ 32767 := by
    have h1 := hb.len
    have h2 := (st b).len.toInt_lt
    omega
  have htop : (value lb).toNat < 2 ^ (15 * lb.length) := by
    have hlt := hb.limbs.lt
    have hnn := hb.limbs.nonneg
    rw [pow_mul]
    have hpow : ((2 ^ 15) ^ lb.length : Nat) = ((32768 : Int) ^ lb.length).toNat := by
      rw [← Int.toNat_natCast ((2 ^ 15) ^ lb.length)]
      congr 1
    rw [hpow]
    exact (Int.toNat_lt_toNat (lt_of_le_of_lt hnn hlt)).mpr hlt
  obtain ⟨h₁, h₂, hfree, hwrite, hp₂⟩ := powStart_spec hargs.held d
  have hone : leadPower va vc (value lb).toNat (15 * (lb.length - 0)) = 1 := by
    rw [Nat.sub_zero, leadPower_top htop, Int.emod_eq_of_lt (by decide) hargs.one_lt]
  obtain ⟨vars₃, h₃, hloop, hp₃⟩ := powLimbs_spec (m := 32767) (j := 0) hfuel hbusy hargs hb hbd
    (by omega) (Nat.zero_le _) (by rwa [hone])
  rw [leadPower_zero] at hp₃
  obtain ⟨h₄, hfree₄, hp₄⟩ := hp₃.freed .x
  obtain ⟨h₅, hfree₅, hp₅⟩ := hp₄.freed .y
  refine ⟨_, h₅, ?_, hp₅.num, hp₅.frame, hp₅.new _ result_ne⟩
  refine Option.bind_eq_some_iff.mpr ⟨_, hfree, Option.bind_eq_some_iff.mpr ⟨_, hwrite,
    Option.bind_eq_some_iff.mpr ⟨_, hloop, Option.bind_eq_some_iff.mpr ⟨_, hfree₄,
      Option.bind_eq_some_iff.mpr ⟨_, hfree₅, ?_⟩⟩⟩⟩⟩
  refine congrArg some (Prod.ext (funext fun q => ?_) rfl)
  dsimp only
  by_cases e : q = d
  · subst e
    rw [Function.update_self]
  · rw [Function.update_of_ne e]
    exact hp₅.same q e

end Objects

end Venix.Libmp
