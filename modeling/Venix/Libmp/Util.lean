/-
  Copies and comparisons of numbers (`libmp`, `util.c`), and the operations on the objects of a
  program and the variables of a call.

  The fuel arguments of `madd`, `msub` and `mdiv` are one, as is the busy word of `s_div`.
-/
import Venix.Libmp.Signed

namespace Venix.Libmp

section Objects

variable {Q : Type} [DecidableEq Q]

def xfreeAt (st : Q → Mint) (c : Q) (h : Heap) : Option ((Q → Mint) × Heap) :=
  (xfree (st c) h).map fun h => (Function.update st c ⟨0, (st c).val⟩, h)

/-- `move`: `b->len` is set before the limbs are there. -/
def moveAt (st : Q → Mint) (a b : Q) (h : Heap) : Option ((Q → Mint) × Heap) := do
  let (st, h) ← xfreeAt st b h
  let st := Function.update st b ⟨(st a).len, (st b).val⟩
  let i := if (st a).len < 0 then -(st a).len else (st a).len
  if i = 0 then return (st, h)
  else
    let (val, h) := h.xalloc i
    let st := Function.update st b ⟨(st b).len, val⟩
    let h ← copyLimbs (st a).val val (turns i) 0 h
    return (st, h)

/-- `mcmp`. -/
def mcmp (fuel : Nat) (a b : Mint) (h : Heap) : Option (Int16 × Heap) :=
  if a.len ≠ b.len then some (a.len - b.len, h)
  else do
    let (c, h) ← msub fuel a b z₀ false false h
    let h ← xfree c h
    return (c.len, h)

/-! ## `xfree` and `move` -/

variable {h : Heap} {st : Q → Mint} {v : Q → Int}

theorem xfreeAt_puts (hs : Store h st v) (c : Q) : Puts v c 0 (xfreeAt st c h) := by
  obtain ⟨h', hx, hframe, -⟩ := xfree_spec (Grows.refl h) (hs.num c).owned
  refine ⟨Function.update st c ⟨0, (st c).val⟩, h', ?_,
    hs.replaced (isNum_empty h' _) hframe fun hne => absurd rfl hne⟩
  unfold xfreeAt
  rw [hx]
  rfl

/-- The limbs of a number are copied. -/
theorem copy_isNum {h : Heap} {m : Mint} {w : Int} (hm : IsNum h m w)
    (hf : m.len.toInt.natAbs ≤ 32765) :
    ∃ h', copyLimbs m.val h.next (turns (magnitude m).len) 0 (h.xalloc (magnitude m).len).2 = some h' ∧
      IsNum h' ⟨m.len, h.next⟩ w ∧ Grows h h' := by
  obtain ⟨l, hl, hc, hlen, hholds, hval⟩ := hm
  obtain ⟨l', hl', -, -, hlen'⟩ := IsNum.magnitude ⟨l, hl, hc, hlen, hholds, hval⟩
  obtain ⟨h₁, hal, hg, -, hcells⟩ := xalloc_spec hl'.len (h := h) (by omega)
  have heq : l'.length = l.length := by omega
  rw [heq, List.replicate_add] at hcells
  rw [hal, hl'.turns, heq]
  by_cases hnil : l = []
  · subst hnil
    refine ⟨h₁, rfl, ⟨[], hl, hc, hlen, fun hne => absurd rfl hne, hval⟩, hg⟩
  · have hlt := (hholds hnil).lt
    obtain ⟨h', hrun, hset⟩ := copyLimbs_spec hlt.ne l [] (fun i hi => by
      rw [List.length_nil, Nat.zero_add]
      exact ((hholds hnil).grows hg).read hi) hcells
    exact ⟨h', hrun, ⟨l, hl, hc, hlen, fun _ => ⟨_, hset.self⟩, hval⟩,
      hset.grows hg (le_refl _)⟩

/-- `move` from one object to another. -/
theorem moveAt_gives {a b : Q} (hs : Store h st v) (hf : Fits (st a)) (hab : a ≠ b) :
    ∃ m h', moveAt st a b h = some (Function.update st b m, h') ∧ IsNum h' m (v a) ∧
      Frame h h' (st b) ∧ (m.len ≠ 0 → h.next ≤ m.val) := by
  obtain ⟨h₁, hx, hframe, -⟩ := xfree_spec (Grows.refl h) (hs.num b).owned
  have ha₁ : IsNum h₁ (st a) (v a) := (hs.num a).grows fun hl =>
    hframe.old _ ((hs.num a).owned.lt hl) fun hb => hs.own a b hab hl hb
  have hsta : ∀ m, Function.update st b m a = st a := fun m => Function.update_of_ne hab _ _
  have hi : (if (st a).len < 0 then -(st a).len else (st a).len) = (magnitude (st a)).len := by
    unfold magnitude
    split <;> rfl
  have hrun : moveAt st a b h = if (magnitude (st a)).len = 0 then
      some (Function.update st b ⟨(st a).len, (st b).val⟩, h₁)
    else (copyLimbs (st a).val h₁.next (turns (magnitude (st a)).len) 0
      (h₁.xalloc (magnitude (st a)).len).2).bind fun h' =>
        some (Function.update st b ⟨(st a).len, h₁.next⟩, h') := by
    unfold moveAt xfreeAt
    rw [hx]
    simp only [Option.map_some, Option.bind_eq_bind, Option.bind_some, hsta, Function.update_idem,
      Function.update_self, hi]
    rfl
  rw [hrun]
  by_cases hzero : (magnitude (st a)).len = 0
  · rw [if_pos hzero]
    have hlen : (st a).len = 0 := by
      unfold magnitude at hzero
      split at hzero
      · have hneg : -(st a).len = 0 := hzero
        rw [← Int16.neg_neg (a := (st a).len), hneg, Int16.neg_zero]
      · exact hzero
    rw [ha₁.eq_zero hlen, hlen]
    exact ⟨_, h₁, rfl, isNum_empty h₁ _, hframe, fun hl => absurd rfl hl⟩
  · rw [if_neg hzero]
    unfold Fits at hf
    obtain ⟨h', hcopy, hnum, hg⟩ := copy_isNum ha₁ (by omega)
    rw [hcopy, Option.bind_some]
    refine ⟨_, h', rfl, hnum, ⟨hframe.next.trans hg.next, fun p hp hl => ?_⟩, fun _ => hframe.next⟩
    rw [hg.old p (lt_of_lt_of_le hp hframe.next), hframe.old p hp hl]

theorem moveAt_puts {a b : Q} (hs : Store h st v) (hf : Fits (st a)) (hab : a ≠ b) :
    Puts v b (v a) (moveAt st a b h) := by
  obtain ⟨m, h', hrun, hnum, hframe, hnew⟩ := moveAt_gives hs hf hab
  exact ⟨_, h', hrun, hs.replaced hnum hframe hnew⟩

omit [DecidableEq Q] in
theorem Store.grows {h' : Heap} (hs : Store h st v) (hg : Grows h h') : Store h' st v :=
  ⟨fun q => (hs.num q).grows fun hne => hg.old _ ((hs.num q).owned.lt hne), hs.own⟩

omit [DecidableEq Q] in
/-- What a call leaves to the program. -/
theorem Store.program {L : Type} {vars : Q ⊕ L → Mint} {w : Q ⊕ L → Int} (hs : Store h vars w) :
    Store h (fun q => vars (.inl q)) fun q => w (.inl q) :=
  ⟨fun q => hs.num (.inl q), fun _ _ hne => hs.own _ _ (Sum.inl_injective.ne hne)⟩

theorem Grows.frame {h' : Heap} (hg : Grows h h') (c : Mint) : Frame h h' c :=
  ⟨hg.next, fun p hp _ => hg.old p hp⟩

/-- The variables of a call, of which one has a number already. -/
theorem Store.start {L : Type} [DecidableEq L] {h' : Heap} (hs : Store h st v) (hg : Grows h h')
    (o : L) {m : Mint} {w : Int} (hm : IsNum h' m w) (hnew : h.next ≤ m.val) :
    Store h' (Function.update (Sum.elim st fun _ : L => z₀) (.inr o) m)
      (Function.update (Sum.elim v fun _ : L => 0) (.inr o) w) :=
  hs.locals.replaced hm (hg.frame _) fun _ => hnew

/-- `mult` of objects whose product fits. -/
theorem multAt_puts (hs : Store h st v) (a b c : Q) (hok : MultOk (st a) (st b) (v a) (v b)) :
    Puts v c (v a * v b) (multAt st a b c h) := by
  obtain ⟨m, h', hrun, hnum, hframe, hnew⟩ :=
    mult_gives (hs.num a) (hs.num b) (hs.num c).owned hok
  refine ⟨Function.update st c m, h', ?_, hs.replaced hnum hframe hnew⟩
  unfold multAt
  rw [hrun]
  rfl

/-! ## Sizes -/

theorem IsNum.lt_pow {h : Heap} {m : Mint} {w : Int} (hm : IsNum h m w) :
    |w| < 32768 ^ m.len.toInt.natAbs := by
  obtain ⟨l, hl, -, hv, hlen⟩ := hm.magnitude
  rw [← hv, ← hlen]
  exact hl.limbs.lt

theorem IsNum.pow_le {h : Heap} {m : Mint} {w : Int} (hm : IsNum h m w) (hw : w ≠ 0) :
    1 ≤ m.len.toInt.natAbs ∧ 32768 ^ (m.len.toInt.natAbs - 1) ≤ |w| := by
  obtain ⟨l, hl, hc, hv, hlen⟩ := hm.magnitude
  have hne : l ≠ [] := by
    rintro rfl
    exact hw (abs_eq_zero.mp hv.symm)
  rw [← hv, ← hlen]
  exact ⟨List.length_pos_iff.mpr hne, hc.pow_le hl.limbs hne⟩

theorem IsNum.natAbs_le {h : Heap} {m : Mint} {w : Int} (hm : IsNum h m w) {n : Nat}
    (hlt : |w| < 32768 ^ n) : m.len.toInt.natAbs ≤ n := by
  obtain ⟨l, hl, hc, hv, hlen⟩ := hm.magnitude
  rw [← hlen]
  by_contra hcon
  have hpow : (32768 : Int) ^ n ≤ 32768 ^ (l.length - 1) :=
    pow_le_pow_right₀ (by decide) (by omega)
  have hle := hc.pow_le hl.limbs (List.length_pos_iff.mp (by omega))
  omega

/-- A product that is not larger than a number that fits. -/
theorem product_len {h h' : Heap} {a x y : Mint} {va vx vy : Int} (ha : IsNum h a va) (hfa : Fits a)
    (hx : IsNum h' x vx) (hy : IsNum h' y vy) (hx0 : 0 < vx) (hy0 : 0 < vy) (hle : vx * vy ≤ va) :
    MultOk x y vx vy := by
  obtain ⟨h1, hpowx⟩ := hx.pow_le hx0.ne'
  obtain ⟨h2, hpowy⟩ := hy.pow_le hy0.ne'
  rw [abs_of_pos hx0] at hpowx
  rw [abs_of_pos hy0] at hpowy
  have hlt := ha.lt_pow
  rw [abs_of_pos ((mul_pos hx0 hy0).trans_le hle)] at hlt
  have hpow : (32768 : Int) ^ (x.len.toInt.natAbs - 1 + (y.len.toInt.natAbs - 1)) ≤ vx * vy := by
    rw [pow_add]
    exact mul_le_mul hpowx hpowy (by positivity) hx0.le
  have hexp : x.len.toInt.natAbs - 1 + (y.len.toInt.natAbs - 1) < a.len.toInt.natAbs :=
    (pow_lt_pow_iff_right₀ (by decide)).mp ((hpow.trans hle).trans_lt hlt)
  unfold Fits at hfa
  exact ⟨by omega, Or.inl ⟨hx0.ne', hy0.ne'⟩⟩

/-- A number that is not larger than one that fits. -/
theorem IsNum.fits {h h' : Heap} {m m' : Mint} {w w' : Int} (hm : IsNum h m w)
    (hm' : IsNum h' m' w') (hf : Fits m') (hle : |w| ≤ |w'|) : Fits m := by
  have := hm.natAbs_le (lt_of_le_of_lt hle hm'.lt_pow)
  unfold Fits at hf ⊢
  omega

/-- Every number of this size fits. -/
def Roomy (n : Int) : Prop := ∀ (h : Heap) (m : Mint) (w : Int), IsNum h m w → |w| ≤ n → Fits m

theorem Fits.roomy {h : Heap} {m : Mint} {w : Int} (hf : Fits m) (hm : IsNum h m w) : Roomy |w| :=
  fun _ _ _ hm' hle => hm'.fits hm hf hle

theorem roomy_of_lt {n : Int} {k : Nat} (hk : k ≤ 32764) (hlt : n < 32768 ^ k) : Roomy n := by
  intro h m w hm hle
  have := hm.natAbs_le (lt_of_le_of_lt hle hlt)
  unfold Fits
  omega

theorem Roomy.mono {m n : Int} (hn : Roomy n) (hle : m ≤ n) : Roomy m :=
  fun h x w hx hw => hn h x w hx (hw.trans hle)

omit [DecidableEq Q] in
theorem Store.fits {n : Int} (hs : Store h st v) (hn : Roomy n) (q : Q) (h0 : 0 ≤ v q)
    (hle : v q ≤ n) : Fits (st q) :=
  hn h (st q) (v q) (hs.num q) (by rwa [abs_of_nonneg h0])

omit [DecidableEq Q] in
/-- Two variables of a call. -/
theorem vars_ne {L : Type} {x y : L} (hne : x ≠ y) : (Sum.inr x : Q ⊕ L) ≠ Sum.inr y :=
  Sum.inr_injective.ne hne

/-! ## `mcmp` -/

/-- `mcmp` of numbers that are not negative has the sign of their difference. -/
theorem mcmp_spec {a b : Mint} {va vb : Int} (ha : IsNum h a va) (hb : IsNum h b vb) (hfa : Fits a)
    (hfb : Fits b) (hva : 0 ≤ va) (hvb : 0 ≤ vb) (fuel : Nat) :
    ∃ c h', mcmp (fuel + 5) a b h = some (c, h') ∧ Grows h h' ∧ (0 < c ↔ vb < va) := by
  have h0 : (0 : Int16).toInt = 0 := rfl
  obtain ⟨la, hla, hca, rfl⟩ := ha.rep hva
  obtain ⟨lb, hlb, hcb, rfl⟩ := hb.rep hvb
  unfold mcmp
  by_cases hlen : a.len ≠ b.len
  · rw [if_pos hlen]
    refine ⟨_, h, rfl, Grows.refl h, ?_⟩
    have hla' := hla.length_le hfa
    have hlb' := hlb.length_le hfb
    have hne : la.length ≠ lb.length := fun e => hlen (Int16.toInt_inj.mp (by rw [hla.len, hlb.len, e]))
    rw [Int16.lt_iff_toInt_lt, h0, Int16.toInt_sub, hla.len, hlb.len, Int.bmod_eq_of_le (by omega) (by omega)]
    -- the longer number is the larger one
    have hlonger : ∀ {l l' : List Int16}, Limbs l → Limbs l' → Canon l' → l.length < l'.length →
        value l < value l' := fun hl hl' hc' hlt =>
      calc _ < 32768 ^ _ := hl.lt
        _ ≤ 32768 ^ (_ - 1) := pow_le_pow_right₀ (by decide) (Nat.le_sub_one_of_lt hlt)
        _ ≤ _ := hc'.pow_le hl' (List.length_pos_iff.mp (by omega))
    rcases lt_or_gt_of_ne hne with hlt | hgt
    · have := hlonger hla.limbs hlb.limbs hcb hlt
      omega
    · have := hlonger hlb.limbs hla.limbs hca hgt
      omega
  · rw [if_neg hlen]
    obtain ⟨m, h₁, hrun, hnum, hframe, hnew⟩ :=
      msub_gives ha hb hfa hfb (owned_z₀ h) not_same not_same fuel
    have hg : Grows h h₁ := hframe.grows rfl
    rw [if_neg (by omega)] at hnum
    obtain ⟨h₂, hx, hframe₂, -⟩ := xfree_spec (Grows.refl h₁) hnum.owned
    refine ⟨m.len, h₂, ?_, ⟨hg.next.trans hframe₂.next, fun p hp => ?_⟩, ?_⟩
    · exact Option.bind_eq_some_iff.mpr ⟨_, hrun, Option.bind_eq_some_iff.mpr ⟨h₂, hx, rfl⟩⟩
    · rw [hframe₂.old p (lt_of_lt_of_le hp hg.next) fun _ => (lt_of_lt_of_le hp hnew).ne, hg.old p hp]
    · have := hnum.len_nonpos
      rw [Int16.le_iff_toInt_le, h0] at this
      rw [Int16.lt_iff_toInt_lt, h0]
      omega

end Objects

end Venix.Libmp
