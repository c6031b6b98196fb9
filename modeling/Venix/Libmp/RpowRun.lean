/-
  `rpow` (`libmp`), and what `pow` and `rpow` come to.

  The modulus of `rpow` is larger than any power it forms, as long as its length is in 16 bits and
  its block can be asked for.
-/
import Venix.Libmp.PowRun

namespace Venix.Libmp

open Venix.Lib

section Objects

variable {Q : Type} [DecidableEq Q] {h : Heap} {st : Q → Mint} {v : Q → Int} {a b : Q} {n : Int16}

/-! ## The size of a power -/

theorem power_le {va : Int} (hva : 0 ≤ va) {k alen m : Nat} (hlt : va < 32768 ^ alen) (hk : k ≤ m) :
    va ^ k ≤ 32768 ^ (m * alen) := by
  calc va ^ k ≤ (32768 ^ alen) ^ k := pow_le_pow_left₀ hva hlt.le k
    _ = 32768 ^ (k * alen) := by rw [← pow_mul, mul_comm]
    _ ≤ 32768 ^ (m * alen) := pow_le_pow_right₀ (by decide) (Nat.mul_le_mul_right _ hk)

/-- Where the modulus is larger than all powers, nothing is reduced. -/
theorem leadPower_small {va vc : Int} (hva : 0 ≤ va) {e : Nat} (hlt : ∀ k ≤ e, va ^ k < vc) (k : Nat) :
    leadPower va vc e k = va ^ (e / 2 ^ k) :=
  Int.emod_eq_of_lt (pow_nonneg hva _) (hlt _ (Nat.div_le_self _ _))

theorem safe_small {va vc : Int} (hva : 0 ≤ va) {e alen clen : Nat} (hlt : ∀ k ≤ e, va ^ k < vc)
    (hlong : ∀ k ≤ e, va ^ k < longest) (hzero : va = 0 → alen = 0) : Safe va vc e alen clen := by
  refine .inr fun k => ?_
  have hdiv := div_two_pow e k
  have hle : e / 2 ^ k ≤ e := Nat.div_le_self _ _
  have hsquare : leadSquare va vc e k = va ^ (2 * (e / 2 ^ (k + 1))) := by
    rw [leadSquare_eq]
    exact Int.emod_eq_of_lt (pow_nonneg hva _) (hlt _ (by omega))
  refine ⟨?_, fun hbit => ⟨?_, fun h0 => ?_⟩⟩
  · rw [leadPower_small hva hlt, ← pow_add, ← two_mul]
    exact hlong _ (by omega)
  · rw [if_pos hbit] at hdiv
    rw [hsquare, ← pow_succ']
    exact hlong _ (by omega)
  · rw [hsquare] at h0
    rw [hzero (eq_zero_of_pow_eq_zero h0)]
    exact Nat.zero_le 1

theorem fits_len {m : Mint} (hf : Fits m) : m.len.toInt.natAbs ≤ 32764 := by
  unfold Fits at hf
  omega

/-! ## The call -/

/-- The exponent and the modulus of the call, in new blocks. -/
theorem rpowStart_spec {alen e : Nat} (hn : n.toInt = e) {len : Int16}
    (hlen : len.toInt = ((e * alen + 3 + 1 : Nat) : Int)) (hsize : e * alen ≤ 32761) :
    ∃ h₂ h₃ h₄, (h.xalloc 1).2.write h.next 0 n = some h₂ ∧ h₂.next = h.next + 1 ∧
      zeroLimbs h₂.next (turns len) 0 (h₂.xalloc len).2 = some h₃ ∧
      h₃.write h₂.next (turns len - 1) 0o10000 = some h₄ ∧ Grows h h₄ ∧ h₂.next < h₄.next ∧
      Rep h₄ ⟨1, h.next⟩ [n] ∧
      IsNum h₄ ⟨len, h₂.next⟩ (32768 ^ (e * alen + 3) * (0o10000 : Int16).toInt) := by
  have h0 : (0 : Int16).toInt = 0 := rfl
  obtain ⟨h₁, halx, hg₁, hnext₁, hcells₁⟩ :=
    xalloc_spec (show (1 : Int16).toInt = (1 : Nat) from rfl) (h := h) (by decide)
  have hcell₁ : h₁.blocks h.next = some ([] ++ none :: [none, none]) := hcells₁
  obtain ⟨h₂, hwx, hsetx⟩ := write_spec hcell₁ n
  have hg₂ : Grows h h₂ := hsetx.grows hg₁ (le_refl _)
  have hnext₂ : h₂.next = h.next + 1 := by rw [hsetx.next, hnext₁]
  obtain ⟨h₃, h₄, hzeros, hwy, hg₄, hy⟩ :=
    zeros_spec hlen (h := h₂) (by omega) (show 0 < (0o10000 : Int16).toInt by decide)
  have hne : len ≠ 0 := fun hzero => by
    rw [hzero] at hlen
    omega
  refine ⟨h₂, h₃, h₄, ?_, hnext₂, hzeros, hwy, hg₂.trans hg₄, hy.owned.lt hne,
    ⟨rfl, fun _ => ⟨[none, none], ?_⟩, fun x hx => ?_⟩, hy⟩
  · rw [halx]
    exact hwx
  · rw [hg₄.old _ (hnext₂ ▸ Nat.lt_succ_self _)]
    exact hsetx.self
  · have hxn : x = n.toInt := by simpa [ints] using hx
    have := n.toInt_lt
    omega

/-- The objects and the variables of the call. -/
def rpowVars (st : Q → Mint) (x y : Mint) : Q ⊕ PowVar → Mint :=
  Sum.elim st fun o => o.casesOn x y

omit [DecidableEq Q] in
theorem rpowVars_held {h' : Heap} (hs : Store h st v) (hg : Grows h h') {x y : Mint}
    (hx : Owned h' x) (hy : Owned h' y) (hxval : x.val = h.next) (hyval : y.val = h.next + 1) :
    Held h' (rpowVars st x y) := by
  have hold : ∀ q, (st q).len ≠ 0 → (st q).val < h.next := fun q => (hs.num q).owned.lt
  refine ⟨fun o => ?_, fun o o' hne hl hl' => ?_⟩
  · rcases o with q | _ | _
    · exact ((hs.grows hg).num q).owned
    · exact hx
    · exact hy
  · -- the objects are below the two blocks
    have hval : ∀ o, (rpowVars st x y o).len ≠ 0 → (∃ q, o = .inl q ∧
        (rpowVars st x y o).val < h.next) ∨ (o = .inr .x ∧ (rpowVars st x y o).val = h.next) ∨
          (o = .inr .y ∧ (rpowVars st x y o).val = h.next + 1) := by
      intro o ho
      rcases o with q | _ | _
      · exact .inl ⟨q, rfl, hold q ho⟩
      · exact .inr (.inl ⟨rfl, hxval⟩)
      · exact .inr (.inr ⟨rfl, hyval⟩)
    rcases hval o hl with ⟨q, rfl, h1⟩ | ⟨rfl, h1⟩ | ⟨rfl, h1⟩ <;>
      rcases hval o' hl' with ⟨q', rfl, h2⟩ | ⟨rfl, h2⟩ | ⟨rfl, h2⟩
    · exact hs.own q q' (fun e => hne (congrArg Sum.inl e)) hl hl'
    all_goals first | exact absurd rfl hne | omega

theorem rpow_gives {fuel : Nat} (hfuel : 3 ≤ fuel) {busy : Int16} (hbusy : busy ≠ 0)
    (hs : Store h st v) (hfa : Fits (st a)) (hva : 0 ≤ v a) (hba : b ≠ a) (hn : 0 ≤ n.toInt)
    (hsize : n.toInt.toNat * (st a).len.toInt.natAbs ≤ 32761) :
    Puts v b (v a ^ n.toInt.toNat) (rpow fuel busy st a n b h) := by
  have h0 : (0 : Int16).toInt = 0 := rfl
  have h1 : (1 : Int16).toInt = 1 := rfl
  have h4 : (4 : Int16).toInt = 4 := rfl
  have halen : (st a).len.toInt = ((st a).len.toInt.natAbs : Nat) := by
    have := (hs.num a).len_nonneg.mpr hva
    rw [Int16.le_iff_toInt_le, h0] at this
    omega
  obtain ⟨alen, hal⟩ : ∃ alen, (st a).len.toInt.natAbs = alen := ⟨_, rfl⟩
  obtain ⟨e, he⟩ : ∃ e : Nat, n.toInt = e := ⟨n.toInt.toNat, by omega⟩
  rw [hal] at halen hsize
  rw [he, Int.toNat_natCast] at hsize ⊢
  obtain ⟨len, hlendef⟩ : ∃ len, n * (st a).len + 4 = len := ⟨_, rfl⟩
  have hlen : len.toInt = ((e * alen + 3 + 1 : Nat) : Int) := by
    have hmul : (n * (st a).len).toInt = (e * alen : Nat) := by
      rw [Int16.toInt_mul, he, halen, ← Nat.cast_mul, Int.bmod_eq_of_le (by omega) (by omega)]
    rw [← hlendef, Int16.toInt_add, hmul, h4, Int.bmod_eq_of_le (by omega) (by omega)]
    push_cast
    ring
  obtain ⟨h₂, h₃, h₄, hwx, hnext₂, hzeros, hwy, hg, hylt, hx, hy⟩ :=
    rpowStart_spec (h := h) he hlen hsize
  have hheld := rpowVars_held hs hg hx.owned hy.owned rfl hnext₂
  obtain ⟨h₅, hfree, hframe₅, -⟩ := xfree_spec (Grows.refl h₄) (hheld.owned (.inl b))
  obtain ⟨vars₅, hvars₅⟩ : ∃ vars₅, Function.update
      (rpowVars st ⟨1, h.next⟩ ⟨len, h₂.next⟩) (.inl b) ⟨0, (st b).val⟩ = vars₅ := ⟨_, rfl⟩
  have hheld₅ : Held h₅ vars₅ := hvars₅ ▸ hheld.replaced (fun hne => absurd rfl hne) hframe₅
    fun hne => absurd rfl hne
  have hsame : ∀ o, o ≠ .inl b → vars₅ o = rpowVars st ⟨1, h.next⟩ ⟨len, h₂.next⟩ o := fun o ho =>
    hvars₅ ▸ Function.update_of_ne ho _ _
  have hnum : ∀ o w, o ≠ .inl b → IsNum h₄ (rpowVars st ⟨1, h.next⟩ ⟨len, h₂.next⟩ o) w →
      IsNum h₅ (vars₅ o) w := fun o w ho hw => by
    rw [hsame o ho]
    exact hw.grows (hheld.kept hframe₅ ho)
  have hab : (Sum.inl a : Q ⊕ PowVar) ≠ .inl b := Sum.inl_injective.ne hba.symm
  have hpower : ∀ k ≤ e, v a ^ k ≤ 32768 ^ (e * alen) := fun k hk => by
    refine power_le hva ?_ hk
    have := (hs.num a).lt_pow
    rwa [abs_of_nonneg hva, hal] at this
  have hmod : (32768 : Int) ^ (e * alen) < 32768 ^ (e * alen + 3) * (0o10000 : Int16).toInt := by
    have ht : (0o10000 : Int16).toInt = 4096 := rfl
    have hpos : (0 : Int) < 32768 ^ (e * alen) := by positivity
    rw [ht, pow_add]
    omega
  have hvalue : value [n] = (e : Int) := by simp [value, ints, valL, he]
  have hargs : PowArgs h₅ vars₅ (.inl a) (.inr .y) (.inl b) (v a)
      (32768 ^ (e * alen + 3) * (0o10000 : Int16).toInt) (value [n]).toNat := by
    have hone : (1 : Int) ≤ 32768 ^ (e * alen) := one_le_pow₀ (by decide)
    refine ⟨hheld₅, hnum _ _ hab ((hs.grows hg).num a), hva, hnum _ _ Sum.inr_ne_inl hy,
      hone.trans_lt hmod, hab, Sum.inr_ne_inl, ?_, ?_⟩
    · rw [hsame _ hab]
      exact fits_len hfa
    · rw [hvalue, Int.toNat_natCast, hsame _ hab]
      refine safe_small hva (fun k hk => (hpower k hk).trans_lt hmod)
        (fun k hk => (hpower k hk).trans_lt ?_) fun hzero => ?_
      · exact pow_lt_pow_right₀ (by decide) (by omega)
      · have := hs.num a
        rw [hzero] at this
        rw [show rpowVars st ⟨1, h.next⟩ ⟨len, h₂.next⟩ (.inl a) = st a from rfl, this.len_zero]
        rfl
  have hltx : h.next < h₄.next := (hnext₂ ▸ Nat.lt_succ_self _ : h.next < h₂.next).trans hylt
  have hx₅ : Rep h₅ (vars₅ (.inr .x)) [n] := by
    rw [hsame _ Sum.inr_ne_inl]
    have hold₅ : h₅.blocks h.next = h₄.blocks h.next :=
      hheld.kept (q := .inr .x) hframe₅ Sum.inr_ne_inl (show (1 : Int16) ≠ 0 by decide)
    exact ⟨hx.len, fun hne => (hx.cells hne).congr hold₅, hx.limbs⟩
  obtain ⟨m, h₆, hpow, hnum₆, hframe₆, hnew₆⟩ := pow_gives hfuel hbusy hargs hx₅ Sum.inr_ne_inl
  rw [hvalue, Int.toNat_natCast, Int.emod_eq_of_lt (pow_nonneg hva e)
    ((hpower e (le_refl e)).trans_lt hmod)] at hnum₆
  have hg₆ : Grows h₅ h₆ := hframe₆.grows (by rw [← hvars₅, Function.update_self])
  -- the variables are freed
  have hown₆ : ∀ o : PowVar, Owned h₆ (rpowVars st ⟨1, h.next⟩ ⟨len, h₂.next⟩ (.inr o)) := fun o =>
    (hsame _ Sum.inr_ne_inl ▸ hheld₅.owned (.inr o)).kept fun hne =>
      hg₆.old _ ((hsame _ Sum.inr_ne_inl ▸ hheld₅.owned (.inr o)).lt hne)
  obtain ⟨h₇, hfreex, hframe₇, -⟩ := xfree_spec (Grows.refl h₆) (hown₆ .x)
  have hltx₆ : h.next < h₆.next := lt_of_lt_of_le hltx (hframe₅.next.trans hg₆.next)
  have hlty₆ : h₂.next < h₆.next := lt_of_lt_of_le hylt (hframe₅.next.trans hg₆.next)
  have hyx : h₂.next ≠ h.next := by omega
  have hown₇ : Owned h₇ ⟨len, h₂.next⟩ := (hown₆ .y).kept fun _ => hframe₇.old _ hlty₆ fun _ => hyx
  obtain ⟨h₈, hfreey, hframe₈, -⟩ := xfree_spec (Grows.refl h₇) hown₇
  have hkeep : ∀ p < h₆.next, p ≠ h.next → p ≠ h₂.next → h₈.blocks p = h₆.blocks p :=
    fun p hp hpx hpy => by
      rw [hframe₈.old p (lt_of_lt_of_le hp hframe₇.next) fun _ => hpy, hframe₇.old p hp fun _ => hpx]
  have hnext₅ : h₄.next ≤ h₅.next := hframe₅.next
  have hnum₈ : IsNum h₈ m (v a ^ e) := hnum₆.grows fun hne => by
    have := hnew₆ hne
    exact hkeep _ (hnum₆.owned.lt hne) (by omega) (by omega)
  have hframe₈' : Frame h h₈ (st b) := by
    refine ⟨hg.next.trans (hnext₅.trans (hg₆.next.trans (hframe₇.next.trans hframe₈.next))),
      fun p hp hne => ?_⟩
    have hp₄ : p < h₄.next := lt_of_lt_of_le hp hg.next
    rw [hkeep p (hp.trans hltx₆) hp.ne (by omega), hg₆.old p (lt_of_lt_of_le hp₄ hnext₅),
      hframe₅.old p hp₄ hne, hg.old p hp]
  refine ⟨Function.update st b m, h₈, ?_, hs.replaced hnum₈ hframe₈' fun hne => ?_⟩
  · have hpred : (len - 1).toInt = ((e * alen + 3 : Nat) : Int) := by
      rw [sub_one_toInt (by omega), hlen]
      push_cast
      ring
    have hpos : ¬len - 1 < 0 := by
      rw [Int16.lt_iff_toInt_lt, hpred, h0]
      omega
    have hturns : turns (len - 1) = turns len - 1 := by
      rw [turns_eq hpred, turns_eq hlen, Nat.add_sub_cancel]
    unfold rpow
    rw [hlendef]
    refine Option.bind_eq_some_iff.mpr ⟨h₂, hwx, Option.bind_eq_some_iff.mpr ⟨h₃, hzeros,
      Option.bind_eq_some_iff.mpr ⟨h₄, ?_, Option.bind_eq_some_iff.mpr ⟨(vars₅, h₅), ?_,
        Option.bind_eq_some_iff.mpr ⟨(Function.update vars₅ (.inl b) m, h₆), hpow,
          Option.bind_eq_some_iff.mpr ⟨(Function.update (Function.update vars₅ (.inl b) m) (.inr .x)
            ⟨0, h.next⟩, h₇), ?_, Option.bind_eq_some_iff.mpr ⟨(Function.update (Function.update
              (Function.update vars₅ (.inl b) m) (.inr .x) ⟨0, h.next⟩) (.inr .y) ⟨0, h₂.next⟩, h₈),
                ?_, ?_⟩⟩⟩⟩⟩⟩⟩
    · rw [if_neg hpos, hturns]
      exact hwy
    · exact Option.map_eq_some_iff.mpr ⟨h₅, hfree, congrArg (·, h₅) hvars₅⟩
    · have hx₆ : Function.update vars₅ (.inl b) m (.inr .x) = ⟨1, h.next⟩ := by
        rw [Function.update_of_ne Sum.inr_ne_inl, hsame _ Sum.inr_ne_inl]
        rfl
      unfold xfreeAt
      rw [hx₆]
      exact Option.map_eq_some_iff.mpr ⟨h₇, hfreex, rfl⟩
    · have hy₆ : Function.update (Function.update vars₅ (.inl b) m) (.inr .x) ⟨0, h.next⟩ (.inr .y) =
          ⟨len, h₂.next⟩ := by
        rw [Function.update_of_ne (Sum.inr_injective.ne (by decide)),
          Function.update_of_ne Sum.inr_ne_inl, hsame _ Sum.inr_ne_inl]
        rfl
      unfold xfreeAt
      rw [hy₆]
      exact Option.map_eq_some_iff.mpr ⟨h₈, hfreey, rfl⟩
    · refine congrArg some (Prod.ext (funext fun q => ?_) rfl)
      dsimp only
      rw [Function.update_of_ne Sum.inl_ne_inr, Function.update_of_ne Sum.inl_ne_inr]
      by_cases hq : q = b
      · subst hq
        rw [Function.update_self, Function.update_self]
      · rw [Function.update_of_ne (Sum.inl_injective.ne hq), Function.update_of_ne hq,
          hsame _ (Sum.inl_injective.ne hq)]
        rfl
  · have := hnew₆ hne
    omega

/-! ## When `rpow` goes wrong -/

/-- Limbs are not set to 0 behind their block. -/
theorem zeroLimbs_bound {p : Nat} (m : Nat) {i : Nat} {h h' : Heap} {cells : List (Option Int16)}
    (hcells : h.blocks p = some cells) (hrun : zeroLimbs p m i h = some h') :
    (m = 0 ∨ i + m ≤ cells.length) ∧
      ∃ cells', h'.blocks p = some cells' ∧ cells'.length = cells.length := by
  induction m generalizing i h cells with
  | zero =>
    cases hrun
    exact ⟨.inl rfl, cells, hcells, rfl⟩
  | succ m ih =>
    obtain ⟨h₁, hw, hrun⟩ := Option.bind_eq_some_iff.mp hrun
    obtain ⟨hi, cells₁, hcells₁, hlen₁⟩ := write_length hcells hw
    obtain ⟨hbound, cells', hcells', hlen'⟩ := ih hcells₁ hrun
    exact ⟨by omega, cells', hcells', hlen'.trans hlen₁⟩

/-- The block of the modulus has its `len` limbs: `len` is not negative, and the number of bytes
that `xalloc` asks for is in 16 bits. -/
theorem rpow_len {fuel : Nat} {busy : Int16} {r : (Q → Mint) × Heap}
    (hrun : rpow fuel busy st a n b h = some r) :
    1 ≤ (n * (st a).len + 4).toInt ∧ (n * (st a).len + 4).toInt ≤ 32765 := by
  have h0 : (0 : Int16).toInt = 0 := rfl
  have h1 : (1 : Int16).toInt = 1 := rfl
  unfold rpow at hrun
  obtain ⟨h₂, -, hrun⟩ := Option.bind_eq_some_iff.mp hrun
  obtain ⟨h₃, hzeros, hrun⟩ := Option.bind_eq_some_iff.mp hrun
  obtain ⟨h₄, hwrite, -⟩ := Option.bind_eq_some_iff.mp hrun
  obtain ⟨len, hlen⟩ : ∃ len, n * (st a).len + 4 = len := ⟨_, rfl⟩
  rw [hlen] at hzeros hwrite ⊢
  have hlow := len.le_toInt
  have hhigh := len.toInt_lt
  obtain ⟨hbound, cells, hcells, hsize⟩ :=
    zeroLimbs_bound _ (Function.update_self h₂.next _ h₂.blocks) hzeros
  rw [List.length_replicate] at hbound hsize
  have hturns : turns len = len.toInt.toNat := rfl
  by_cases hneg : len - 1 < 0
  · rw [if_pos hneg] at hwrite
    cases hwrite
  rw [if_neg hneg] at hwrite
  obtain ⟨hlast, -⟩ := write_length hcells hwrite
  rw [hsize] at hlast
  have hturns₁ : turns (len - 1) = (len - 1).toInt.toNat := rfl
  rw [Int16.lt_iff_toInt_lt, h0] at hneg
  rcases eq_or_ne len.toInt (-32768) with hmin | hmin
  · -- the length goes round to 32767, and the block has two limbs
    have hsub : (len - 1).toInt = 32767 := by
      rw [Int16.toInt_sub, hmin, h1]
      rfl
    rw [hturns₁, hsub, hmin] at hlast
    exact absurd hlast (by decide)
  · rw [sub_one_toInt (by omega)] at hneg hturns₁
    refine ⟨by omega, ?_⟩
    by_contra hlong
    rcases (show len.toInt = 32766 ∨ len.toInt = 32767 by omega) with he | he
    · rw [hturns, he] at hbound
      exact absurd hbound (by decide)
    · rw [hturns, he] at hbound
      exact absurd hbound (by decide)

/-- Where the length of the modulus is out of 16 bits, no number is long enough for the power. -/
theorem rpow_bound {fuel : Nat} {busy : Int16} (hs : Store h st v) (hva : 0 ≤ v a) (hn : 0 ≤ n.toInt)
    (hputs : Puts v b (v a ^ n.toInt.toNat) (rpow fuel busy st a n b h)) :
    n.toInt.toNat * (st a).len.toInt.natAbs ≤ 32761 := by
  have h0 : (0 : Int16).toInt = 0 := rfl
  have h4 : (4 : Int16).toInt = 4 := rfl
  obtain ⟨st', h', hrun, hstore⟩ := hputs
  obtain ⟨hlow, hhigh⟩ := rpow_len hrun
  have hpow := (hstore.num b).lt_pow
  have halen : (st a).len.toInt = ((st a).len.toInt.natAbs : Nat) := by
    have := (hs.num a).len_nonneg.mpr hva
    rw [Int16.le_iff_toInt_le, h0] at this
    omega
  have hblen : (st' b).len.toInt.natAbs ≤ 32767 := by
    have hnn := (hstore.num b).len_nonneg.mpr (by
      rw [Function.update_self]
      exact pow_nonneg hva _)
    rw [Int16.le_iff_toInt_le, h0] at hnn
    have := (st' b).len.toInt_lt
    omega
  rw [Function.update_self, abs_of_nonneg (pow_nonneg hva _)] at hpow
  obtain ⟨alen, hal⟩ : ∃ alen, (st a).len.toInt.natAbs = alen := ⟨_, rfl⟩
  obtain ⟨e, he⟩ : ∃ e : Nat, n.toInt = e := ⟨n.toInt.toNat, by omega⟩
  have hehigh := n.toInt_lt
  have hahigh := (st a).len.toInt_lt
  rw [he, Int.toNat_natCast] at hpow ⊢
  rw [hal] at halen ⊢
  by_contra hbig
  -- the length has gone round
  have hround : ∃ k : Int, (e * alen : Nat) + 4 = (n * (st a).len + 4).toInt + 65536 * k := by
    refine ⟨((e * alen : Nat) + 4 - (n * (st a).len + 4).toInt) / 65536, ?_⟩
    have hdvd : (65536 : Int) ∣ (e * alen : Nat) + 4 - (n * (st a).len + 4).toInt := by
      rw [Int16.toInt_add, Int16.toInt_mul, he, halen, h4, ← Nat.cast_mul, Int.bmod_add_bmod]
      exact Int.dvd_self_sub_bmod
    rw [Int.mul_ediv_cancel' hdvd]
    ring
  obtain ⟨k, hk⟩ := hround
  have hwide : 65533 ≤ e * alen := by omega
  have halen₂ : 2 ≤ alen := by
    by_contra hone
    have := Nat.mul_le_mul_left e (show alen ≤ 1 by omega)
    omega
  obtain ⟨l, rfl⟩ := Nat.exists_eq_add_of_le' halen₂
  have hmore : 32767 ≤ e * (l + 1) := by
    have h1 : e * (l + 2) = e * (l + 1) + e := by ring
    have h2 : e ≤ e * (l + 1) := Nat.le_mul_of_pos_right e (Nat.succ_pos l)
    omega
  have hva0 : v a ≠ 0 := fun hzero => by
    have hnum := hs.num a
    rw [hzero] at hnum
    rw [hnum.len_zero, h0] at halen
    omega
  have hbase : (32768 : Int) ^ (l + 1) ≤ v a := by
    have := ((hs.num a).pow_le hva0).2
    rwa [hal, abs_of_nonneg hva] at this
  have hless : (32768 : Int) ^ ((l + 1) * e) < 32768 ^ (st' b).len.toInt.natAbs := by
    rw [pow_mul]
    exact (pow_le_pow_left₀ (by positivity) hbase e).trans_lt hpow
  have := (pow_lt_pow_iff_right₀ (show (1 : Int) < 32768 by decide)).mp hless
  rw [mul_comm] at this
  omega

/-- `pow` and `rpow`: where no product of the loop is too long and no zero of more limbs than one
comes up, the power is reduced by the modulus; `rpow` gives the power if and only if the length of
its modulus and the block for it are in 16 bits. -/
theorem pow_rpow_iff {fuel : Nat} (hfuel : 3 ≤ fuel) {busy : Int16} (hbusy : busy ≠ 0) (h : Heap)
    (st : Q → Mint) (v : Q → Int) (hs : Store h st v) (a b c d : Q) (n : Int16)
    (hfa : Fits (st a)) (hva : 0 ≤ v a) (hvb : 0 ≤ v b) (hvc : 1 < v c) (hda : d ≠ a) (hdb : d ≠ b)
    (hdc : d ≠ c) (hn : 0 ≤ n.toInt) :
    (Safe (v a) (v c) (v b).toNat (st a).len.toInt.natAbs (st c).len.toInt.natAbs →
      Puts v d (v a ^ (v b).toNat % v c) (pow fuel busy st a b c d h)) ∧
    (Puts v d (v a ^ n.toInt.toNat) (rpow fuel busy st a n d h) ↔
      n.toInt.toNat * (st a).len.toInt.natAbs ≤ 32761) := by
  refine ⟨fun hsafe => ?_, rpow_bound hs hva hn, rpow_gives hfuel hbusy hs hfa hva hda hn⟩
  obtain ⟨lb, hlb, -, hvalue⟩ := (hs.num b).rep hvb
  have hargs : PowArgs h st a c d (v a) (v c) (value lb).toNat :=
    ⟨hs.held, hs.num a, hva, hs.num c, hvc, hda.symm, hdc.symm, fits_len hfa, hvalue ▸ hsafe⟩
  obtain ⟨m, h', hrun, hnum, hframe, hnew⟩ := pow_gives hfuel hbusy hargs hlb hdb.symm
  rw [← hvalue] at hnum
  exact ⟨_, h', hrun, hs.replaced hnum hframe hnew⟩

end Objects

/-- 5 to the fifth by 3, and 5 to the third. -/
theorem pow_rpow_iff_five :
    Puts (Sum.elim ![5, 3, 0] fun _ => 0) (Sum.inl 2) (5 ^ 5 % 3)
      (pow 3 1 (quotients 1) (Sum.inl 0) (Sum.inl 0) (Sum.inl 1) (Sum.inl 2) fiveThree) ∧
    Puts (Sum.elim ![5, 3, 0] fun _ => 0) (Sum.inl 2) (5 ^ 3)
      (rpow 3 1 (quotients 1) (Sum.inl 0) 3 (Sum.inl 2) fiveThree) := by
  have hf := signed_fits (s := 1) (t := 1) (Or.inl rfl) (Or.inl rfl)
  have h := pow_rpow_iff (le_refl 3) (show (1 : Int16) ≠ 0 by decide) fiveThree (quotients 1) _
    (quotients_store (Or.inl rfl)) (Sum.inl 0) (Sum.inl 0) (Sum.inl 1) (Sum.inl 2) 3 hf.1 (by decide)
    (by decide) (by decide) (by decide) (by decide) (by decide) (by decide)
  exact ⟨h.1 (.inl rfl), h.2.mpr (by decide)⟩

/-- The limbs of 32768, 3 and 32768 again. -/
def bigThree : Heap where
  blocks := fun p => if p = 1 then some [some 3] else if p < 3 then some [some 0, some 1] else none
  next := 3
  fresh := fun p hp => by rw [if_neg (by omega), if_neg (by omega)]

/-- 32768, 3, 32768 and 0. -/
def bigs : Fin 4 → Mint := ![⟨2, 0⟩, ⟨1, 1⟩, ⟨2, 2⟩, ⟨0, 0⟩]

theorem bigs_store : Store bigThree bigs ![32768, 3, 32768, 0] := by
  have hbig : ∀ p, p = 0 ∨ p = 2 → IsNum bigThree ⟨2, p⟩ 32768 := fun p hp => by
    have hcells : bigThree.blocks p = some [some 0, some 1] := by rcases hp with rfl | rfl <;> rfl
    exact topLimb_value (k := 1) (t := 1) rfl (by decide) ⟨[], hcells⟩
  refine ⟨fun q => ?_, by decide⟩
  fin_cases q
  · exact hbig 0 (.inl rfl)
  · exact oneLimb_isNum (s := 1) (x := 3) ⟨[], rfl⟩ (by decide) (.inl rfl)
  · exact hbig 2 (.inr rfl)
  · exact isNum_empty bigThree 0

/-- 32768 to the third by 32768 is left as a zero of one limb. -/
theorem pow_keeps_limb : Store bigThree bigs ![32768, 3, 32768, 0] ∧
    ¬Puts ![32768, 3, 32768, 0] 3 (32768 ^ 3 % 32768) (pow 3 1 bigs 0 1 2 3 bigThree) := by
  refine ⟨bigs_store, fun hputs => ?_⟩
  obtain ⟨st', h', hrun, hstore⟩ := hputs
  have hlen : (pow 3 1 bigs 0 1 2 3 bigThree).map (fun r => (r.1 3).len) = some 1 := by
    decide
  have hnum := hstore.num 3
  rw [Function.update_self, show (32768 ^ 3 % 32768 : Int) = 0 by norm_num] at hnum
  rw [hrun, Option.map_some, hnum.len_zero] at hlen
  exact absurd hlen (by decide)

end Venix.Libmp
