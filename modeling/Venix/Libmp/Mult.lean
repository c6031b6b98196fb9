/-
  Multi-precision multiplication (`libmp`, `mult.c`), on the machine of `madd`.

  `sum` is a `long`, whose halves are `sum.yy.high` and `sum.yy.low`. A column of products is added
  to it; `carry` counts how often its top bit was taken off. `c->val[i-1]` at `i = 0` is outside the
  block.

  Proved: where neither number is zero and the size of the product is within 16 bits, it is left in
  `c`, in canonical form, whichever of the objects are the same. A product with zero is right only
  for zero and one limb: for more limbs the length is one less than theirs, and for two zeros a limb
  before the block is read. A larger product gets too small a block.
-/
import Venix.Libmp.Madd

namespace Venix.Libmp

open Venix.Lib

/-! ## The code -/

/-- `tradd`. -/
def tradd (carry : Int16) (sum x : BitVec 32) : Int16 × BitVec 32 :=
  let sum := sum + x
  if sum &&& 0x80000000#32 ≠ 0 then (carry + 1, sum &&& 0x7fffffff#32) else (carry, sum)

/-- `x=a->val[j]; x=x*b->val[i-j]`. -/
def limbProduct (u v : Int16) : BitVec 32 := u.toBitVec.signExtend 32 * v.toBitVec.signExtend 32

/-- `n` turns of an inner loop, from `j` on. -/
def column (a b : Mint) (i : Nat) : Nat → Nat → Int16 → BitVec 32 → Heap →
    Option (Int16 × BitVec 32)
  | 0, _, carry, sum, _ => some (carry, sum)
  | n + 1, j, carry, sum, h => do
    let u ← h.read a.val j
    let v ← h.read b.val (i - j)
    let r := tradd carry sum (limbProduct u v)
    column a b i n (j + 1) r.1 r.2 h

/-- `n` turns of an outer loop, from `i` on; the inner loop goes from `lo i` to `hi i`. -/
def columns (a b : Mint) (lo hi : Nat → Nat) (cval : Nat) : Nat → Nat → BitVec 32 → Heap →
    Option (BitVec 32 × Heap)
  | 0, _, sum, h => some (sum, h)
  | n + 1, i, sum, h => do
    let r ← column a b i (hi i - lo i) (lo i) 0 sum h
    let h ← h.write cval i (Int16.ofBitVec (r.2.setWidth 16 &&& 0o77777))
    let sum := r.2.sshiftRight 15
    columns a b lo hi cval n (i + 1) (r.1.toBitVec ++ sum.setWidth 16) h

def m_mult (a b : Mint) (h : Heap) : Option (Mint × Heap) := do
  let (cval, h) := h.xalloc (a.len + b.len)
  let na := turns a.len
  let nb := turns b.len
  let (sum, h) ← columns a b (fun _ => 0) (fun i => i + 1) cval nb 0 0 h
  let (sum, h) ← columns a b (fun i => i - nb + 1) (fun i => i + 1) cval (na - nb) nb sum h
  let i := max na nb
  let n := turns (a.len + b.len) - i
  let (_, h) ← columns a b (fun i => i - nb + 1) (fun _ => na) cval n i sum h
  match i + n with
  | 0 => none
  | k + 1 => do
    let top ← h.read cval k
    if top ≠ 0 then return (⟨a.len + b.len, cval⟩, h)
    else return (⟨a.len + b.len - 1, cval⟩, h)

def mult (a b c : Mint) (h : Heap) : Option (Mint × Heap) := do
  let sign : Int16 := 1
  let (x, sign) : Mint × Int16 := if a.len < 0 then (⟨-a.len, a.val⟩, -sign) else (a, sign)
  let (y, sign) : Mint × Int16 := if b.len < 0 then (⟨-b.len, b.val⟩, -sign) else (b, sign)
  let (z, h) ← if x.len < y.len then m_mult y x h else m_mult x y h
  let h ← xfree c h
  let len := if sign < 0 then -z.len else z.len
  if len = 0 then
    let h ← h.free z.val
    return (⟨len, c.val⟩, h)
  else return (⟨len, z.val⟩, h)

/-! ## A column -/

theorem limbProduct_toNat {u v : Int16} (hu : 0 ≤ u.toInt) (hv : 0 ≤ v.toInt) :
    ((limbProduct u v).toNat : Int) = u.toInt * v.toInt ∧ (limbProduct u v).toNat < 2 ^ 30 := by
  have hext : ∀ {w : Int16}, 0 ≤ w.toInt → (w.toBitVec.signExtend 32).toNat = w.toBitVec.toNat ∧
      w.toInt = (w.toBitVec.toNat : Int) ∧ w.toBitVec.toNat < 2 ^ 15 := by
    intro w hw
    have h1 := int16_toInt_eq_toNat hw
    have h2 := w.toInt_lt
    have hmsb : w.toBitVec.msb = false := by
      rw [BitVec.msb_eq_false_iff_two_mul_lt]
      omega
    rw [BitVec.signExtend_eq_setWidth_of_msb_false hmsb, BitVec.toNat_setWidth_of_le (by decide)]
    exact ⟨rfl, h1, by omega⟩
  obtain ⟨hu1, hu2, hu3⟩ := hext hu
  obtain ⟨hv1, hv2, hv3⟩ := hext hv
  have hle : u.toBitVec.toNat * v.toBitVec.toNat ≤ (2 ^ 15 - 1) * (2 ^ 15 - 1) :=
    Nat.mul_le_mul (by omega) (by omega)
  unfold limbProduct
  rw [BitVec.toNat_mul, hu1, hv1, Nat.mod_eq_of_lt (by omega), hu2, hv2]
  exact ⟨by push_cast; rfl, by omega⟩

theorem and_top (x : BitVec 32) : x &&& 0x80000000#32 ≠ 0 ↔ 2 ^ 31 ≤ x.toNat := by
  have h1 : x &&& 0x80000000#32 = if x.getLsbD 31 then BitVec.twoPow 32 31 else 0#32 := by
    rw [← BitVec.and_twoPow]
    rfl
  have h2 : x.getLsbD 31 = decide (2 ^ 31 ≤ x.toNat) := by
    have := BitVec.msb_eq_decide x
    rw [BitVec.msb_eq_getLsbD_last] at this
    exact this
  rw [h1, h2]
  by_cases h : 2 ^ 31 ≤ x.toNat
  · rw [decide_eq_true h]
    exact ⟨fun _ => h, fun _ => by decide⟩
  · rw [decide_eq_false h]
    exact ⟨fun hne => absurd rfl hne, fun hle => absurd hle h⟩

theorem and_rest (x : BitVec 32) : (x &&& 0x7fffffff#32).toNat = x.toNat % 2 ^ 31 := by
  rw [BitVec.toNat_and]
  exact Nat.and_two_pow_sub_one_eq_mod _ 31

/-- The carry and the sum keep what is added. -/
theorem tradd_spec {carry : Int16} {sum x : BitVec 32} (hs : sum.toNat < 2 ^ 31)
    (hx : x.toNat < 2 ^ 30) (hc : carry.toInt < 32767) :
    (tradd carry sum x).1.toInt * 2 ^ 31 + (tradd carry sum x).2.toNat =
      carry.toInt * 2 ^ 31 + sum.toNat + x.toNat ∧ (tradd carry sum x).2.toNat < 2 ^ 31 ∧
      carry.toInt ≤ (tradd carry sum x).1.toInt ∧
      (tradd carry sum x).1.toInt ≤ carry.toInt + 1 := by
  have hsum : (sum + x).toNat = sum.toNat + x.toNat := BitVec.toNat_add_of_lt (by omega)
  have hinc : (carry + 1).toInt = carry.toInt + 1 := by
    have h1 : (1 : Int16).toInt = 1 := rfl
    have := carry.le_toInt
    rw [Int16.toInt_add, h1, Int.bmod_eq_of_le] <;> omega
  unfold tradd
  dsimp only
  split
  · next htop =>
    rw [and_top, hsum] at htop
    dsimp only
    rw [and_rest, hsum, hinc]
    omega
  · next htop =>
    rw [and_top, hsum] at htop
    dsimp only
    rw [hsum]
    omega

theorem column_spec {a b : Mint} {i : Nat} {f : Nat → Int} {h : Heap} (n : Nat) :
    ∀ (j : Nat) (carry : Int16) (sum : BitVec 32),
    (∀ k, j ≤ k → k < j + n → ∃ u v, h.read a.val k = some u ∧ h.read b.val (i - k) = some v ∧
      0 ≤ u.toInt ∧ 0 ≤ v.toInt ∧ f k = u.toInt * v.toInt) →
    sum.toNat < 2 ^ 31 → 0 ≤ carry.toInt → carry.toInt + n ≤ 32767 →
    ∃ carry' sum', column a b i n j carry sum h = some (carry', sum') ∧
      carry'.toInt * 2 ^ 31 + sum'.toNat =
        carry.toInt * 2 ^ 31 + sum.toNat + ∑ k ∈ Finset.range n, f (j + k) ∧
      sum'.toNat < 2 ^ 31 ∧ 0 ≤ carry'.toInt ∧ carry'.toInt ≤ carry.toInt + n := by
  induction n with
  | zero =>
    intro j carry sum _ hs hc _
    exact ⟨carry, sum, rfl, by simp, hs, hc, by omega⟩
  | succ n ih =>
    intro j carry sum hread hs hc hbound
    push_cast at hbound
    obtain ⟨u, v, hu, hv, hu0, hv0, hf⟩ := hread j (Nat.le_refl j) (by omega)
    obtain ⟨hprod, hlt⟩ := limbProduct_toNat hu0 hv0
    obtain ⟨h1, h2, h3, h4⟩ := tradd_spec hs hlt (show carry.toInt < 32767 by omega)
    obtain ⟨carry', sum', hrun, h5, h6, h7, h8⟩ := ih (j + 1) (tradd carry sum (limbProduct u v)).1
      (tradd carry sum (limbProduct u v)).2 (fun k hk1 hk2 => hread k (by omega) (by omega)) h2 (by omega) (by omega)
    refine ⟨carry', sum', ?_, ?_, h6, h7, by push_cast; omega⟩
    · rw [column, hu, hv]
      exact hrun
    · rw [h5, h1, Finset.sum_range_succ', hprod, show f (j + 0) = _ from hf]
      have hshift : ∀ k, f (j + 1 + k) = f (j + (k + 1)) := fun k => by
        rw [Nat.add_assoc, Nat.add_comm 1 k]
      simp only [hshift]
      ring

/-! ## The columns -/

/-- The digit that is written, and the sum that goes on. -/
theorem turn_spec {carry : Int16} {sum : BitVec 32} (hs : sum.toNat < 2 ^ 31)
    (h0 : 0 ≤ carry.toInt) (hc : carry.toInt < 16384) :
    let r := Int16.ofBitVec (sum.setWidth 16 &&& 0o77777)
    let sum' : BitVec 32 := carry.toBitVec ++ (sum.sshiftRight 15).setWidth 16
    (0 ≤ r.toInt ∧ r.toInt < 32768) ∧ sum'.toNat < 2 ^ 31 ∧
      carry.toInt * 2 ^ 31 + sum.toNat = r.toInt + 32768 * sum'.toNat := by
  have hlow : (sum.setWidth 16 &&& 0o77777#16).toNat = sum.toNat % 32768 := by
    rw [BitVec.toNat_and, BitVec.toNat_setWidth]
    refine (Nat.and_two_pow_sub_one_eq_mod _ 15).trans ?_
    omega
  have hr : (Int16.ofBitVec (sum.setWidth 16 &&& 0o77777)).toInt = ((sum.toNat % 32768 : Nat) : Int) := by
    rw [← Int16.toInt_toBitVec, Int16.toBitVec_ofBitVec, BitVec.toInt_eq_toNat_of_lt]
    · exact congrArg Nat.cast hlow
    · have : (sum.setWidth 16 &&& 0o77777#16).toNat < 32768 := by omega
      change 2 * (sum.setWidth 16 &&& 0o77777#16).toNat < 2 ^ 16
      omega
  have hmsb : sum.msb = false := by
    rw [BitVec.msb_eq_false_iff_two_mul_lt]
    omega
  have hshift : ((sum.sshiftRight 15).setWidth 16).toNat = sum.toNat / 32768 := by
    rw [BitVec.sshiftRight_eq_of_msb_false hmsb, BitVec.toNat_setWidth, BitVec.toNat_ushiftRight,
      Nat.shiftRight_eq_div_pow]
    omega
  have hcarry := int16_toInt_eq_toNat h0
  have happ : (carry.toBitVec ++ (sum.sshiftRight 15).setWidth 16 : BitVec 32).toNat =
      carry.toBitVec.toNat * 65536 + sum.toNat / 32768 := by
    rw [BitVec.toNat_append, hshift, ← Nat.shiftLeft_add_eq_or_of_lt (by omega), Nat.shiftLeft_eq]
  dsimp only
  rw [hr, happ]
  clear * - hc hcarry
  omega

/-- The columns of one loop: the limbs written, with the sum that goes on, have the value of the
columns, with the sum at the start. -/
theorem columns_spec (a b : Mint) (lo hi : Nat → Nat) (cval : Nat) (T : Nat → Int) (h₀ : Heap)
    (n : Nat) : ∀ (pre : List Int16) (rest : List (Option Int16)) (sum : BitVec 32) (h : Heap),
    (∀ p, p ≠ cval → h.blocks p = h₀.blocks p) →
    h.blocks cval = some (pre.map some ++ rest) → n ≤ rest.length → sum.toNat < 2 ^ 31 →
    (∀ k, pre.length ≤ k → k < pre.length + n → ∀ (h' : Heap) (s : BitVec 32),
      (∀ p, p ≠ cval → h'.blocks p = h₀.blocks p) → s.toNat < 2 ^ 31 →
      ∃ carry s', column a b k (hi k - lo k) (lo k) 0 s h' = some (carry, s') ∧
        carry.toInt * 2 ^ 31 + s'.toNat = s.toNat + T k ∧ s'.toNat < 2 ^ 31 ∧
        0 ≤ carry.toInt ∧ carry.toInt < 16384) →
    ∃ rs sum' h', columns a b lo hi cval n pre.length sum h = some (sum', h') ∧
      rs.length = n ∧ Limbs rs ∧ sum'.toNat < 2 ^ 31 ∧
      value rs + 32768 ^ n * sum'.toNat =
        sum.toNat + ∑ k ∈ Finset.range n, T (pre.length + k) * 32768 ^ k ∧
      Sets h h' cval ((pre ++ rs).map some ++ rest.drop n) := by
  induction n with
  | zero =>
    intro pre rest sum h _ hcells _ hs _
    refine ⟨[], sum, h, rfl, rfl, by simp [Limbs, ints, Digits], hs, ?_, rfl, ?_⟩
    · simp [value, ints, valL]
    · rw [List.append_nil, List.drop_zero, ← hcells, Function.update_eq_self]
  | succ n ih =>
    intro pre rest sum h hsame hcells hlen hs hcol
    obtain ⟨c, rest, rfl⟩ : ∃ c r, rest = c :: r := by
      cases rest with
      | nil => simp at hlen
      | cons c r => exact ⟨c, r, rfl⟩
    obtain ⟨carry, s, hcolumn, hval, hs', h0, hc⟩ :=
      hcol pre.length (le_refl _) (by omega) h sum hsame hs
    obtain ⟨hdigit, hnext, hturn⟩ := turn_spec hs' h0 hc
    obtain ⟨h₁, hw, hset⟩ := write_spec hcells (Int16.ofBitVec (s.setWidth 16 &&& 0o77777))
    rw [List.length_map] at hw
    have hcells₁ : h₁.blocks cval =
        some ((pre ++ [Int16.ofBitVec (s.setWidth 16 &&& 0o77777)]).map some ++ rest) := by
      rw [hset.self]
      simp
    obtain ⟨rs, sum', h', h1, h2, h3, h4, h5, h6⟩ := ih _ rest _ h₁
      (fun p hp => (hset.other hp).trans (hsame p hp)) hcells₁ (by simpa using hlen) hnext
      (fun k hk1 hk2 => hcol k (by simp at hk1; omega) (by simp at hk2; omega))
    rw [List.length_append, List.length_singleton] at h1 h5
    refine ⟨_ :: rs, sum', h', ?_, by rw [List.length_cons, h2], digits_cons.mpr ⟨hdigit, h3⟩, h4,
      ?_, ?_⟩
    · rw [columns, hcolumn]
      simp only [Option.bind_eq_bind, Option.bind_some, hw]
      exact h1
    · have hvr : ∀ x : Int16, value (x :: rs) = x.toInt + 32768 * value rs := fun _ => rfl
      have hshift : ∀ k, T (pre.length + 1 + k) * 32768 ^ k * 32768 =
          T (pre.length + (k + 1)) * 32768 ^ (k + 1) := by
        intro k
        rw [Nat.add_assoc, Nat.add_comm 1 k, pow_succ, mul_assoc]
      have hsum : 32768 * ∑ k ∈ Finset.range n, T (pre.length + 1 + k) * 32768 ^ k =
          ∑ k ∈ Finset.range n, T (pre.length + (k + 1)) * 32768 ^ (k + 1) := by
        rw [mul_comm, Finset.sum_mul]
        exact Finset.sum_congr rfl fun k _ => hshift k
      rw [hvr, Finset.sum_range_succ', ← hsum, pow_succ, pow_zero, mul_one, Nat.add_zero]
      linear_combination 32768 * h5 - hturn + hval
    · have := hset.trans h6
      simpa using this

theorem Rep.getD {h : Heap} {m : Mint} {l : List Int16} (hm : Rep h m l) {i : Nat}
    (hi : i < l.length) : ∃ u, h.read m.val i = some u ∧ 0 ≤ u.toInt ∧ (ints l).getD i 0 = u.toInt := by
  refine ⟨l[i], hm.read hi, (hm.limbs.get hi).1, ?_⟩
  rw [List.getD_eq_getElem (ints l) 0 (by rw [ints_length]; exact hi)]
  simp [ints]

/-- A column is what the product of the two numbers has there. -/
theorem column_conv {a b : Mint} {la lb : List Int16} {h : Heap} (ha : Rep h a la)
    (hb : Rep h b lb) (hsmall : lb.length < 16384) {i lo hi : Nat} (hlo : lo = i + 1 - lb.length)
    (hhi : hi = min (i + 1) la.length) {sum : BitVec 32} (hs : sum.toNat < 2 ^ 31) :
    ∃ carry sum', column a b i (hi - lo) lo 0 sum h = some (carry, sum') ∧
      carry.toInt * 2 ^ 31 + sum'.toNat = sum.toNat + conv (ints la) (ints lb) i ∧
      sum'.toNat < 2 ^ 31 ∧ 0 ≤ carry.toInt ∧ carry.toInt < 16384 := by
  have h0 : (0 : Int16).toInt = 0 := rfl
  obtain ⟨carry, sum', hrun, hval, hs', hc0, hc⟩ := column_spec (a := a) (b := b) (i := i) (h := h)
    (f := fun k => (ints la).getD k 0 * (ints lb).getD (i - k) 0) (hi - lo) lo 0 sum
    (fun k hk1 hk2 => by
      obtain ⟨u, hu, hu0, hu'⟩ := ha.getD (i := k) (by omega)
      obtain ⟨v, hv, hv0, hv'⟩ := hb.getD (i := i - k) (by omega)
      exact ⟨u, v, hu, hv, hu0, hv0, by rw [hu', hv']⟩)
    hs (by rw [h0]) (by omega)
  refine ⟨carry, sum', hrun, ?_, hs', hc0, by omega⟩
  have hconv := conv_eq_sum (ints la) (ints lb) (show lo = i + 1 - (ints lb).length by simp [hlo])
    (show hi = min (i + 1) (ints la).length by simp [hhi])
  rw [hval, hconv, h0]
  ring

/-! ## `m_mult` -/

/-- The three loops of `m_mult`, one after the other. -/
theorem phases_spec {a b : Mint} {la lb : List Int16} {h h₁ : Heap} (ha : Rep h a la)
    (hb : Rep h b lb) (hle : lb.length ≤ la.length) (hsmall : lb.length < 16384) (hg : Grows h h₁)
    {cval : Nat} (hcval : h.next ≤ cval) {rest : List (Option Int16)}
    (hcells : h₁.blocks cval = some rest) (hlen : la.length + lb.length ≤ rest.length) :
    ∃ s₁ h₂ s₂ h₃ s₃ h₄ rs,
      columns a b (fun _ => 0) (fun i => i + 1) cval lb.length 0 0 h₁ = some (s₁, h₂) ∧
      columns a b (fun i => i - lb.length + 1) (fun i => i + 1) cval (la.length - lb.length)
        lb.length s₁ h₂ = some (s₂, h₃) ∧
      columns a b (fun i => i - lb.length + 1) (fun _ => la.length) cval lb.length la.length
        s₂ h₃ = some (s₃, h₄) ∧
      rs.length = la.length + lb.length ∧ Limbs rs ∧ value rs = value la * value lb ∧
      Sets h₁ h₄ cval (rs.map some ++ rest.drop (la.length + lb.length)) := by
  have hgrow : ∀ {m : Mint} {l : List Int16}, Rep h m l → ∀ h' : Heap,
      (∀ p, p ≠ cval → h'.blocks p = h₁.blocks p) → Rep h' m l := by
    intro m l hm h' hsame
    refine ⟨hm.len, fun hl => (hm.cells hl).congr ?_, hm.limbs⟩
    have hlt := (hm.cells hl).lt
    rw [hsame _ (by omega), hg.old _ hlt]
  have hphase := fun (lo hi : Nat → Nat) (n : Nat) (pre : List Int16) =>
    columns_spec a b lo hi cval (conv (ints la) (ints lb)) h₁ n pre
  obtain ⟨r₁, s₁, h₂, hrun1, hr1, hl1, hs1, hval1, hset1⟩ :=
    hphase (fun _ => 0) (fun i => i + 1) lb.length [] rest 0 h₁ (fun _ _ => rfl) hcells
      (by omega) (by decide) (fun k _ hk h' s hsame hs => column_conv (hgrow ha h' hsame)
        (hgrow hb h' hsame) hsmall (by simp at hk; omega) (by simp at hk; omega) hs)
  rw [List.nil_append] at hset1
  obtain ⟨r₂, s₂, h₃, hrun2, hr2, hl2, hs2, hval2, hset2⟩ :=
    hphase (fun i => i - lb.length + 1) (fun i => i + 1) (la.length - lb.length) r₁
      (rest.drop lb.length) s₁ h₂ (fun p hp => hset1.other hp) hset1.self
      (by rw [List.length_drop]; omega) hs1 (fun k hk1 hk h' s hsame hs =>
        column_conv (hgrow ha h' hsame) (hgrow hb h' hsame) hsmall (by omega) (by omega) hs)
  obtain ⟨r₃, s₃, h₄, hrun3, hr3, hl3, hs3, hval3, hset3⟩ :=
    hphase (fun i => i - lb.length + 1) (fun _ => la.length) lb.length (r₁ ++ r₂)
      ((rest.drop lb.length).drop (la.length - lb.length)) s₂ h₃
      (fun p hp => (hset2.other hp).trans (hset1.other hp)) hset2.self
      (by rw [List.length_drop, List.length_drop]; omega) hs2 (fun k hk1 hk h' s hsame hs => by
        rw [List.length_append] at hk1 hk
        exact column_conv (hgrow ha h' hsame) (hgrow hb h' hsame) hsmall (by omega) (by omega) hs)
  have hlen12 : (r₁ ++ r₂).length = la.length := by rw [List.length_append]; omega
  rw [hr1] at hrun2 hval2
  rw [hlen12] at hrun3 hval3
  have hlimbs : Limbs (r₁ ++ r₂ ++ r₃) := limbs_append.mpr ⟨limbs_append.mpr ⟨hl1, hl2⟩, hl3⟩
  have hlen123 : (r₁ ++ r₂ ++ r₃).length = la.length + lb.length := by
    rw [List.length_append]
    omega
  have hzero : ((0 : BitVec 32).toNat : Int) = 0 := rfl
  have hsplit : lb.length + (la.length - lb.length) = la.length := Nat.add_sub_cancel' hle
  have hpow : (32768 : Int) ^ la.length = 32768 ^ lb.length * 32768 ^ (la.length - lb.length) := by
    rw [← pow_add, hsplit]
  have hprod : value la * value lb =
      value (r₁ ++ r₂ ++ r₃) + 32768 ^ (la.length + lb.length) * s₃.toNat := by
    have hconv := valL_mul (b := 32768) (ints la) (ints lb)
      (n := lb.length + (la.length - lb.length) + lb.length) (by simp; omega)
    rw [Finset.sum_range_add, Finset.sum_range_add] at hconv
    have hsplit2 : ∑ k ∈ Finset.range (la.length - lb.length),
        conv (ints la) (ints lb) (lb.length + k) * 32768 ^ (lb.length + k) =
        32768 ^ lb.length * ∑ k ∈ Finset.range (la.length - lb.length),
          conv (ints la) (ints lb) (lb.length + k) * 32768 ^ k := by
      rw [Finset.mul_sum]
      exact Finset.sum_congr rfl fun k _ => by rw [pow_add]; ring
    have hsplit3 : ∑ k ∈ Finset.range lb.length,
        conv (ints la) (ints lb) (lb.length + (la.length - lb.length) + k) *
          32768 ^ (lb.length + (la.length - lb.length) + k) =
        32768 ^ la.length * ∑ k ∈ Finset.range lb.length,
          conv (ints la) (ints lb) (la.length + k) * 32768 ^ k := by
      rw [Finset.mul_sum]
      refine Finset.sum_congr rfl fun k _ => ?_
      rw [hsplit, pow_add]
      ring
    rw [hsplit2, hsplit3] at hconv
    simp only [List.length_nil, Nat.zero_add] at hval1
    rw [value_append, value_append, hr1, hlen12, pow_add]
    unfold value at hval1 hval2 hval3 ⊢
    rw [hconv, hpow]
    linear_combination -hval1 - 32768 ^ lb.length * hval2 -
      32768 ^ lb.length * 32768 ^ (la.length - lb.length) * hval3 - hzero
  have hs₃ : s₃.toNat = 0 := by
    have h1 := hlimbs.nonneg
    have h2 : value la * value lb < 32768 ^ (la.length + lb.length) := by
      rw [pow_add]
      exact mul_lt_mul'' ha.limbs.lt hb.limbs.lt ha.limbs.nonneg hb.limbs.nonneg
    by_contra hne
    have h3 : (32768 : Int) ^ (la.length + lb.length) * 1 ≤
        32768 ^ (la.length + lb.length) * s₃.toNat :=
      mul_le_mul_of_nonneg_left (by omega) (by positivity)
    omega
  rw [hs₃, Nat.cast_zero, mul_zero, add_zero] at hprod
  refine ⟨s₁, h₂, s₂, h₃, s₃, h₄, r₁ ++ r₂ ++ r₃, hrun1, hrun2, hrun3, hlen123, hlimbs, hprod.symm, ?_⟩
  have := (hset1.trans hset2).trans hset3
  rw [List.drop_drop, List.drop_drop] at this
  rwa [← Nat.add_assoc, hsplit] at this

theorem len_add {a b : Mint} {la lb : List Int16} {h : Heap} (ha : Rep h a la) (hb : Rep h b lb)
    (hsum : la.length + lb.length ≤ 32765) :
    (a.len + b.len).toInt = ((la.length + lb.length : Nat) : Int) ∧
      turns (a.len + b.len) = la.length + lb.length := by
  have hlen : (a.len + b.len).toInt = ((la.length + lb.length : Nat) : Int) := by
    rw [Int16.toInt_add, ha.len, hb.len, Int.bmod_eq_of_le] <;> omega
  refine ⟨hlen, ?_⟩
  unfold turns
  rw [hlen]
  rfl

/-- `m_mult` leaves the limbs of the product, and looks at the highest of them. -/
theorem m_mult_eq {a b : Mint} {la lb : List Int16} {h : Heap} (ha : Rep h a la) (hb : Rep h b lb)
    (hle : lb.length ≤ la.length) (hsum : la.length + lb.length ≤ 32765) :
    ∃ rs h', rs.length = la.length + lb.length ∧ Limbs rs ∧ value rs = value la * value lb ∧
      Holds h' h.next rs ∧ Grows h h' ∧
      m_mult a b h = rs.getLast?.map fun top =>
        (⟨if top ≠ 0 then a.len + b.len else a.len + b.len - 1, h.next⟩, h') := by
  obtain ⟨hlen, hturns⟩ := len_add ha hb hsum
  obtain ⟨h₁, hal, hg, -, hcells⟩ := xalloc_spec hlen (h := h) hsum
  obtain ⟨s₁, h₂, s₂, h₃, s₃, h', rs, hrun1, hrun2, hrun3, hrs, hlimbs, hval, hset⟩ :=
    phases_spec ha hb hle (by omega) hg (le_refl _) hcells (by rw [List.length_replicate]; omega)
  have hholds : Holds h' h.next rs := ⟨_, hset.self⟩
  refine ⟨rs, h', hrs, hlimbs, hval, hholds, hset.grows hg (le_refl _), ?_⟩
  have hmax : max la.length lb.length = la.length := max_eq_left hle
  have hn : la.length + lb.length - la.length = lb.length := Nat.add_sub_cancel_left _ _
  unfold m_mult
  rw [hal]
  simp only [ha.turns, hb.turns, hturns, hmax, hn, hrun1, hrun2, hrun3, Option.bind_eq_bind,
    Option.bind_some]
  rw [← hrs]
  induction rs using List.reverseRecOn with
  | nil => rfl
  | append_singleton l x _ =>
    have hread : h'.read h.next l.length = some x := by
      have := hholds.read (i := l.length) (by simp)
      simpa using this
    rw [List.length_append, List.length_singleton, List.getLast?_concat, Option.map_some]
    simp only [hread, Option.bind_some]
    split <;> rfl

/-- The highest limb of a product of numbers that are not zero is missing at most once. -/
theorem product_canon {la lb rs : List Int16} (ha : Limbs la) (hca : Canon la) (hb : Limbs lb)
    (hcb : Canon lb) (hna : la ≠ []) (hnb : lb ≠ []) (hrs : rs.length = la.length + lb.length)
    (hlimbs : Limbs rs) (hval : value rs = value la * value lb) :
    ∃ l x, rs = l ++ [x] ∧ 0 ≤ x.toInt ∧ (x.toInt = 0 → Limbs l ∧ Canon l ∧ value l = value rs) := by
  have hla := List.length_pos_iff.mpr hna
  have hlb := List.length_pos_iff.mpr hnb
  obtain ⟨l, x, rfl⟩ : ∃ l x, rs = l ++ [x] := by
    have hne : rs ≠ [] := List.length_pos_iff.mp (by omega)
    exact ⟨rs.dropLast, rs.getLast hne, (List.dropLast_append_getLast hne).symm⟩
  obtain ⟨hl, hx⟩ := limbs_append.mp hlimbs
  refine ⟨l, x, rfl, (hx x.toInt (by simp [ints])).1, fun hzero => ?_⟩
  have hvl : value (l ++ [x]) = value l := by
    rw [value_concat, hzero, mul_zero, add_zero]
  refine ⟨hl, canon_of_pow_le hl ?_, hvl.symm⟩
  rw [← hvl, hval]
  rw [List.length_append, List.length_singleton] at hrs
  have hpow : (32768 : Int) ^ (l.length - 1) = 32768 ^ (la.length - 1) * 32768 ^ (lb.length - 1) := by
    rw [← pow_add]
    congr 1
    omega
  rw [hpow]
  exact mul_le_mul (hca.pow_le ha hna) (hcb.pow_le hb hnb) (by positivity) ha.nonneg

/-! ## Products that do not fit -/

theorem write_length {h h' : Heap} {p i : Nat} {x : Int16} {cells : List (Option Int16)}
    (hp : h.blocks p = some cells) (hw : h.write p i x = some h') :
    i < cells.length ∧ ∃ cells', h'.blocks p = some cells' ∧ cells'.length = cells.length := by
  unfold Heap.write at hw
  split at hw
  · cases hw
  · next l hl =>
    rw [hp] at hl
    cases hl
    split at hw
    · next hi =>
      cases hw
      exact ⟨hi, _, Function.update_self _ _ _, List.length_set⟩
    · cases hw

theorem columns_bound {a b : Mint} {lo hi : Nat → Nat} {cval : Nat} (n : Nat) :
    ∀ (i : Nat) (sum : BitVec 32) (h : Heap) (cells : List (Option Int16))
      (r : BitVec 32 × Heap), h.blocks cval = some cells →
    columns a b lo hi cval n i sum h = some r →
    (n = 0 ∨ i + n ≤ cells.length) ∧
      ∃ cells', r.2.blocks cval = some cells' ∧ cells'.length = cells.length := by
  induction n with
  | zero =>
    intro i sum h cells r hcells hrun
    cases hrun
    exact ⟨Or.inl rfl, cells, hcells, rfl⟩
  | succ n ih =>
    intro i sum h cells r hcells hrun
    rw [columns] at hrun
    obtain ⟨s, -, hrun⟩ := Option.bind_eq_some_iff.mp hrun
    obtain ⟨h₁, hw, hrun⟩ := Option.bind_eq_some_iff.mp hrun
    obtain ⟨hi, cells₁, hcells₁, hlen₁⟩ := write_length hcells hw
    obtain ⟨hle, cells', hcells', hlen'⟩ := ih _ _ _ _ _ hcells₁ hrun
    exact ⟨Or.inr (by omega), cells', hcells', by omega⟩

/-- The size that is asked for is reduced to 16 bits, and the block too small. -/
theorem m_mult_none {a b : Mint} {la lb : List Int16} {h : Heap} (ha : Rep h a la)
    (hb : Rep h b lb) (hle : lb.length ≤ la.length) (hbig : la.length ≤ 32764)
    (hsum : 32766 ≤ la.length + lb.length) : m_mult a b h = none := by
  obtain ⟨cells, hcells, hlen⟩ : ∃ cells, (h.xalloc (a.len + b.len)).2.blocks h.next = some cells ∧
      cells.length + 32766 = la.length + lb.length := by
    refine ⟨_, Function.update_self _ _ _, ?_⟩
    rw [List.length_replicate, Int16.toInt_add, ha.len, hb.len, Int.bmod_def,
      Int.emod_eq_of_lt (a := (la.length : Int) + lb.length) (by omega) (by omega)]
    clear * - hle hbig hsum
    split <;> omega
  by_contra hne
  obtain ⟨r, hr⟩ := Option.ne_none_iff_exists'.mp hne
  unfold m_mult at hr
  obtain ⟨r₁, hrun1, hr⟩ := Option.bind_eq_some_iff.mp hr
  obtain ⟨r₂, hrun2, hr⟩ := Option.bind_eq_some_iff.mp hr
  obtain ⟨h1, cells₁, hcells₁, hlen₁⟩ := columns_bound _ _ _ _ _ _ hcells hrun1
  obtain ⟨h2, -⟩ := columns_bound _ _ _ _ _ _ hcells₁ hrun2
  rw [hb.turns] at h1
  rw [ha.turns, hb.turns] at h2
  clear * - hbig hlen h1
  omega

/-! ## All signs -/

/-- The end of `mult`. -/
def multEnd (c : Mint) (negative : Bool) (r : Option (Mint × Heap)) : Option (Mint × Heap) :=
  r.bind fun z => (xfree c z.2).bind fun h =>
    let len := if negative then -z.1.len else z.1.len
    if len = 0 then (h.free z.1.val).bind fun h => some (⟨len, c.val⟩, h)
    else some (⟨len, z.1.val⟩, h)

/-- The longer number is the first. -/
def longer (x y : Mint) (h : Heap) : Option (Mint × Heap) :=
  if x.len < y.len then m_mult y x h else m_mult x y h

/-- The number without its sign. -/
def magnitude (m : Mint) : Mint := if m.len < 0 then ⟨-m.len, m.val⟩ else m

theorem IsNum.magnitude {h : Heap} {m : Mint} {v : Int} (hm : IsNum h m v) :
    ∃ l, Rep h (magnitude m) l ∧ Canon l ∧ value l = |v| ∧ l.length = m.len.toInt.natAbs := by
  have h0 : (0 : Int16).toInt = 0 := rfl
  unfold Libmp.magnitude
  have hnn := hm.len_nonneg
  rw [Int16.le_iff_toInt_le, h0] at hnn
  by_cases hneg : m.len < 0
  · rw [if_pos hneg]
    rw [Int16.lt_iff_toInt_lt, h0] at hneg
    obtain ⟨l, hl, hc, hv⟩ := hm.neg.rep (by omega)
    have hlen : (-m.len).toInt = -m.len.toInt := by
      obtain ⟨l', -, -, hbig, -, hval⟩ := hm
      exact neg_toInt (by omega)
    have := hl.len
    dsimp only at this
    exact ⟨l, hl, hc, by rw [← hv, abs_of_neg (by omega)], by omega⟩
  · rw [if_neg hneg]
    rw [Int16.lt_iff_toInt_lt, h0] at hneg
    obtain ⟨l, hl, hc, hv⟩ := hm.rep (by omega)
    have := hl.len
    exact ⟨l, hl, hc, by rw [← hv, abs_of_nonneg (by omega)], by omega⟩

theorem mult_eq (a b c : Mint) (h : Heap) :
    mult a b c h = multEnd c (decide (a.len < 0) != decide (b.len < 0))
      (longer (magnitude a) (magnitude b) h) := by
  have h1 : ¬(1 : Int16) < 0 := by decide
  have h2 : (-1 : Int16) < 0 := by decide
  have h3 : (- -1 : Int16) = 1 := by decide
  unfold mult multEnd longer magnitude
  by_cases ha : a.len < 0
  · by_cases hb : b.len < 0
    · simp only [ha, hb, if_true, h3, h1, if_false, decide_true, bne_self_eq_false, Bool.false_eq_true,
        Option.bind_eq_bind, Option.pure_def]
      split <;> rfl
    · simp only [ha, hb, if_true, h2, if_false, decide_true, decide_false, Bool.bne_false,
        Option.bind_eq_bind, Option.pure_def]
      split <;> rfl
  · by_cases hb : b.len < 0
    · simp only [ha, hb, if_true, h2, if_false, decide_true, decide_false, Bool.bne_true, Bool.not_false,
        Option.bind_eq_bind, Option.pure_def]
      split <;> rfl
    · simp only [ha, hb, h1, if_false, decide_false, bne_self_eq_false, Bool.false_eq_true,
        Option.bind_eq_bind, Option.pure_def]
      split <;> rfl

/-- The product of two numbers without signs: its limbs, and the length that it gets. -/
theorem longer_eq {x y : Mint} {lx ly : List Int16} {h : Heap} (hx : Rep h x lx) (hy : Rep h y ly)
    (hsum : lx.length + ly.length ≤ 32765) :
    ∃ (len : Int16) (rs : List Int16) (h' : Heap), len.toInt = ((lx.length + ly.length : Nat) : Int) ∧
      rs.length = lx.length + ly.length ∧ Limbs rs ∧ value rs = value lx * value ly ∧
      Holds h' h.next rs ∧ Grows h h' ∧
      longer x y h = rs.getLast?.map fun top =>
        (⟨if top ≠ 0 then len else len - 1, h.next⟩, h') := by
  unfold longer
  by_cases hlt : x.len < y.len
  · rw [if_pos hlt]
    rw [Int16.lt_iff_toInt_lt, hx.len, hy.len] at hlt
    obtain ⟨rs, h', hrs, hl, hv, hh, hg, heq⟩ := m_mult_eq hy hx (by omega) (by omega)
    exact ⟨y.len + x.len, rs, h', by rw [(len_add hy hx (by omega)).1]; omega, by omega, hl,
      by rw [hv, mul_comm], hh, hg, heq⟩
  · rw [if_neg hlt]
    rw [Int16.lt_iff_toInt_lt, hx.len, hy.len] at hlt
    obtain ⟨rs, h', hrs, hl, hv, hh, hg, heq⟩ := m_mult_eq hx hy (by omega) hsum
    exact ⟨x.len + y.len, rs, h', (len_add hx hy hsum).1, hrs, hl, hv, hh, hg, heq⟩

theorem longer_none {x y : Mint} {lx ly : List Int16} {h : Heap} (hx : Rep h x lx) (hy : Rep h y ly)
    (hbx : lx.length ≤ 32764) (hby : ly.length ≤ 32764) (hsum : 32766 ≤ lx.length + ly.length) :
    longer x y h = none := by
  unfold longer
  by_cases hlt : x.len < y.len
  · rw [if_pos hlt]
    rw [Int16.lt_iff_toInt_lt, hx.len, hy.len] at hlt
    exact m_mult_none hy hx (by omega) hby (by omega)
  · rw [if_neg hlt]
    rw [Int16.lt_iff_toInt_lt, hx.len, hy.len] at hlt
    exact m_mult_none hx hy (by omega) hbx hsum

/-- A call comes back with `w`, and the old limbs of `c` are gone; for zero, `c` keeps its old
address. -/
def GivesZ (h : Heap) (c : Mint) (r : Option (Mint × Heap)) (w : Int) : Prop :=
  ∃ m h', r = some (m, h') ∧ IsNum h' m w ∧ Frame h h' c ∧ (m.len ≠ 0 → h.next ≤ m.val)

theorem multEnd_spec {h h₁ : Heap} {c z : Mint} {l : List Int16} (hg : Grows h h₁)
    (hc : Owned h c) (hz : z.val = h.next) (hl : Rep h₁ z l) (hcanon : Canon l)
    (hblock : ∃ cells, h₁.blocks h.next = some cells) (negative : Bool) :
    GivesZ h c (multEnd c negative (some (z, h₁))) (if negative then -value l else value l) := by
  obtain ⟨h₂, hx, hframe, hsame⟩ := xfree_spec hg hc
  have hnum : IsNum h₂ ⟨if negative then -z.len else z.len, z.val⟩
      (if negative then -value l else value l) := by
    have h1 : IsNum h₂ z (value l) :=
      (hl.isNum hcanon).grows fun _ => hsame _ (by omega)
    cases negative with
    | false => exact h1
    | true => exact h1.neg
  unfold multEnd
  rw [Option.bind_some, hx, Option.bind_some]
  dsimp only
  by_cases h0 : (if negative then -z.len else z.len) = 0
  · rw [if_pos h0]
    obtain ⟨cells, hcells⟩ := hblock
    obtain ⟨h₃, hf, hn, hother⟩ := free_spec ((hsame _ (le_refl _)).trans hcells)
    rw [hz, hf]
    refine ⟨_, h₃, rfl, ?_, ⟨by rw [hn]; exact hframe.next, fun p hp hne => ?_⟩,
      fun hne => absurd h0 hne⟩
    · obtain ⟨l', h1, h2, h3, -, h4⟩ := hnum
      dsimp only at h4
      have hnil : l' = [] := by
        rw [h0] at h4
        have h1 : (0 : Int16).toInt = 0 := rfl
        exact List.length_eq_zero_iff.mp (by omega)
      exact ⟨l', h1, h2, h3, fun hne => absurd hnil hne, h4⟩
    · rw [hother p (by omega), hframe.old p hp hne]
  · rw [if_neg h0]
    exact ⟨_, h₂, rfl, hnum, hframe, fun _ => by dsimp only; omega⟩

theorem multEnd_len {h h' : Heap} {c z m : Mint} {negative : Bool}
    (hrun : multEnd c negative (some (z, h)) = some (m, h')) :
    m.len = if negative then -z.len else z.len := by
  unfold multEnd at hrun
  rw [Option.bind_some] at hrun
  obtain ⟨h₁, -, hrun⟩ := Option.bind_eq_some_iff.mp hrun
  dsimp only at hrun
  by_cases h0 : (if negative then -z.len else z.len) = 0
  · rw [if_pos h0] at hrun
    obtain ⟨h₂, -, hrun⟩ := Option.bind_eq_some_iff.mp hrun
    cases hrun
    rfl
  · rw [if_neg h0] at hrun
    cases hrun
    rfl

/-- The sign of a product. -/
theorem mul_sign {va vb : Int} : (if (decide (va < 0) != decide (vb < 0)) then -(|va| * |vb|)
    else |va| * |vb|) = va * vb := by
  rw [← abs_mul]
  by_cases ha : va < 0
  · by_cases hb : vb < 0
    · simp only [ha, hb, decide_true, bne_self_eq_false, Bool.false_eq_true, if_false]
      exact abs_of_pos (mul_pos_of_neg_of_neg ha hb)
    · simp only [ha, hb, decide_true, decide_false, Bool.bne_false, if_true]
      rw [abs_of_nonpos (mul_nonpos_of_nonpos_of_nonneg ha.le (by omega)), neg_neg]
  · by_cases hb : vb < 0
    · simp only [ha, hb, decide_true, decide_false, Bool.bne_true, Bool.not_false, if_true]
      rw [abs_of_nonpos (mul_nonpos_of_nonneg_of_nonpos (by omega) hb.le), neg_neg]
    · simp only [ha, hb, decide_false, bne_self_eq_false, Bool.false_eq_true, if_false]
      exact abs_of_nonneg (mul_nonneg (by omega) (by omega))

theorem IsNum.len_neg {h : Heap} {m : Mint} {v : Int} (hm : IsNum h m v) :
    decide (m.len < 0) = decide (v < 0) := by
  have := hm.len_nonneg
  rw [Int16.le_iff_toInt_le] at this
  rw [decide_eq_decide, Int16.lt_iff_toInt_lt]
  omega

theorem IsNum.len_zero {h : Heap} {m : Mint} (hm : IsNum h m 0) : m.len = 0 := by
  have h1 := hm.len_nonneg.mpr (le_refl _)
  have h2 := hm.len_nonpos.mpr (le_refl _)
  rw [Int16.le_iff_toInt_le] at h1 h2
  exact Int16.toInt_inj.mp (by omega)

/-- When the product comes out right: it fits, and the length is not taken to be too long. -/
def MultOk (a b : Mint) (va vb : Int) : Prop :=
  a.len.toInt.natAbs + b.len.toInt.natAbs ≤ 32765 ∧
    ((va ≠ 0 ∧ vb ≠ 0) ∨ a.len.toInt.natAbs + b.len.toInt.natAbs = 1)

theorem len_pred {len : Int16} {n : Nat} (hlen : len.toInt = n) (hn : n < 32768) (hpos : 1 ≤ n) :
    (len - 1).toInt = ((n - 1 : Nat) : Int) := by
  have h1 : (1 : Int16).toInt = 1 := rfl
  rw [Int16.toInt_sub, h1, hlen, Int.bmod_eq_of_le]
  · omega
  · omega
  · omega

theorem mult_gives {a b c : Mint} {va vb : Int} {h : Heap} (ha : IsNum h a va) (hb : IsNum h b vb)
    (hc : Owned h c) (hok : MultOk a b va vb) : GivesZ h c (mult a b c h) (va * vb) := by
  obtain ⟨la, hla, hca, hva, hlena⟩ := ha.magnitude
  obtain ⟨lb, hlb, hcb, hvb, hlenb⟩ := hb.magnitude
  obtain ⟨hsum, hcase⟩ := hok
  rw [← hlena, ← hlenb] at hsum hcase
  obtain ⟨len, rs, h₁, hlen, hrs, hlimbs, hval, hholds, hg, heq⟩ := longer_eq hla hlb hsum
  have hblock : ∃ cells, h₁.blocks h.next = some cells := by
    obtain ⟨rest, hrest⟩ := hholds
    exact ⟨_, hrest⟩
  have h1 : (1 : Int16).toInt = 1 := rfl
  have hpred : 1 ≤ la.length + lb.length → (len - 1).toInt = ((la.length + lb.length - 1 : Nat) : Int) :=
    len_pred hlen (by omega)
  -- what is left of the limbs is canonical
  have hz : ∃ z l, longer (magnitude a) (magnitude b) h = some (z, h₁) ∧ z.val = h.next ∧
      Rep h₁ z l ∧ Canon l ∧ value l = |va| * |vb| := by
    rw [← hva, ← hvb, ← hval]
    rcases hcase with ⟨hna, hnb⟩ | hone
    · have hne : ∀ {v : Int} {l : List Int16}, v ≠ 0 → value l = |v| → l ≠ [] := by
        rintro v l hv hl rfl
        exact hv (abs_eq_zero.mp hl.symm)
      obtain ⟨l, x, rfl, hx0, hcut⟩ := product_canon hla.limbs hca hlb.limbs hcb (hne hna hva)
        (hne hnb hvb) hrs hlimbs hval
      have hl : Holds h₁ h.next l := by
        obtain ⟨rest, hrest⟩ := hholds
        exact ⟨some x :: rest, by rw [hrest]; simp⟩
      rw [List.getLast?_concat, Option.map_some] at heq
      rw [List.length_append, List.length_singleton] at hrs
      by_cases hx : x = 0
      · rw [if_neg (not_not.mpr hx)] at heq
        obtain ⟨h3, h4, h5⟩ := hcut (by rw [hx]; rfl)
        have := hpred (by omega)
        exact ⟨_, l, heq, rfl, ⟨by dsimp only; omega, fun _ => hl, h3⟩, h4, h5⟩
      · rw [if_pos hx] at heq
        have hl1 : len.toInt = ((l ++ [x]).length : Nat) := by
          rw [hlen, List.length_append, List.length_singleton, hrs]
        refine ⟨_, l ++ [x], heq, rfl, ⟨hl1, fun _ => hholds, hlimbs⟩, ?_, rfl⟩
        intro y hy
        rw [List.getLast?_concat] at hy
        cases hy
        exact lt_of_le_of_ne hx0 fun e => hx (Int16.toInt_inj.mp e.symm)
    · -- one of them is zero and the other has one limb
      rw [hone] at hrs
      obtain ⟨x, rfl⟩ := List.length_eq_one_iff.mp hrs
      have hx : x = 0 := by
        have h2 : value [x] = x.toInt := by simp [value, ints, valL]
        have h3 : value [] = 0 := rfl
        refine Int16.toInt_inj.mp ?_
        rw [← h2, hval]
        rcases Nat.eq_zero_or_pos la.length with h4 | h4
        · rw [List.length_eq_zero_iff.mp h4, h3, zero_mul]
          rfl
        · rw [List.length_eq_zero_iff.mp (show lb.length = 0 by omega), h3, mul_zero]
          rfl
      subst hx
      have := hpred (by omega)
      rw [List.getLast?_singleton, Option.map_some, if_neg (not_not.mpr rfl)] at heq
      exact ⟨_, [], heq, rfl, ⟨by dsimp only; rw [this, hone]; rfl, fun hne => absurd rfl hne,
        by simp [Limbs, ints, Digits]⟩, by simp [Canon], rfl⟩
  obtain ⟨z, l, hz, hzval, hrep, hcanon, hv⟩ := hz
  have := multEnd_spec hg hc hzval hrep hcanon hblock
    (decide (a.len < 0) != decide (b.len < 0))
  rwa [hv, ha.len_neg, hb.len_neg, mul_sign, ← ha.len_neg, ← hb.len_neg, ← hz, ← mult_eq] at this

/-- In the other cases a limb outside the block is used, or the length is not that of zero. -/
theorem mult_wrong {a b c m : Mint} {va vb : Int} {h h' : Heap} (ha : IsNum h a va)
    (hb : IsNum h b vb) (hfa : Fits a) (hfb : Fits b) (hm : IsNum h' m (va * vb))
    (hrun : mult a b c h = some (m, h')) : MultOk a b va vb := by
  obtain ⟨la, hla, hca, hva, hlena⟩ := ha.magnitude
  obtain ⟨lb, hlb, hcb, hvb, hlenb⟩ := hb.magnitude
  unfold MultOk
  unfold Fits at hfa hfb
  rw [mult_eq] at hrun
  by_contra hcon
  rw [← hlena, ← hlenb] at hcon
  rw [← hlena] at hfa
  rw [← hlenb] at hfb
  by_cases hsum : la.length + lb.length ≤ 32765
  · obtain ⟨len, rs, h₁, hlen, hrs, hlimbs, hval, -, -, heq⟩ := longer_eq hla hlb hsum
    have hzero : va = 0 ∨ vb = 0 := by
      by_contra hne
      rw [not_or] at hne
      exact hcon ⟨hsum, Or.inl hne⟩
    have hne1 : la.length + lb.length ≠ 1 := fun h1 => hcon ⟨hsum, Or.inr h1⟩
    have hprod : va * vb = 0 := mul_eq_zero.mpr hzero
    have hvalz : value rs = 0 := by
      rw [hval, hva, hvb, ← abs_mul, hprod, abs_zero]
    rw [heq] at hrun
    induction rs using List.reverseRecOn with
    | nil => cases hrun
    | append_singleton l x _ =>
      obtain ⟨hl, hx⟩ := limbs_append.mp hlimbs
      have hx0 : x = 0 := by
        have h1 := (hx x.toInt (by simp [ints])).1
        rw [value_concat] at hvalz
        have h2 := hl.nonneg
        have h3 : (32768 : Int) ^ l.length * x.toInt ≤ 0 := by omega
        have h4 := nonpos_of_mul_nonpos_right h3 (by positivity)
        exact Int16.toInt_inj.mp (le_antisymm h4 h1)
      rw [List.length_append, List.length_singleton] at hrs
      rw [List.getLast?_concat, Option.map_some, if_neg (not_not.mpr hx0)] at hrun
      have h1 : (1 : Int16).toInt = 1 := rfl
      have h0 : (0 : Int16).toInt = 0 := rfl
      have hpred : (len - 1).toInt = ((la.length + lb.length - 1 : Nat) : Int) :=
        len_pred hlen (by omega) (by omega)
      have hneg : (-(len - 1)).toInt = -((la.length + lb.length - 1 : Nat) : Int) := by
        rw [neg_toInt (by omega), hpred]
      -- the length in `m` is not 0
      have hmlen : m.len.toInt.natAbs = la.length + lb.length - 1 := by
        rw [multEnd_len hrun]
        clear * - hpred hneg
        split <;> dsimp only <;> omega
      rw [hprod] at hm
      rw [hm.len_zero, h0] at hmlen
      clear * - hcon hrs hmlen
      omega
  · rw [longer_none hla hlb (by omega) (by omega) (by omega)] at hrun
    cases hrun

/-! ## The numbers of a program -/

section Store

variable {Q : Type} [DecidableEq Q]

/-- `mult(a,b,c)` where `a`, `b` and `c` are objects of the program. -/
def multAt (st : Q → Mint) (a b c : Q) (h : Heap) : Option ((Q → Mint) × Heap) :=
  (mult (st a) (st b) (st c) h).map fun r => (Function.update st c r.1, r.2)

/-- `mult` leaves the product in `c`, whichever of the objects are the same, exactly when the
product fits and neither number is zero, or zero is multiplied by a number of one limb. -/
theorem mult_iff (h : Heap) (st : Q → Mint) (v : Q → Int) (hs : Store h st v) (a b c : Q)
    (hfa : Fits (st a)) (hfb : Fits (st b)) :
    Puts v c (v a * v b) (multAt st a b c h) ↔
      (st a).len.toInt.natAbs + (st b).len.toInt.natAbs ≤ 32765 ∧
        ((v a ≠ 0 ∧ v b ≠ 0) ∨ (st a).len.toInt.natAbs + (st b).len.toInt.natAbs = 1) := by
  constructor
  · rintro ⟨st', h', hrun, hs'⟩
    obtain ⟨⟨m, h₁⟩, hmult, heq⟩ := Option.map_eq_some_iff.mp hrun
    cases heq
    have hnum := hs'.num c
    rw [Function.update_self, Function.update_self] at hnum
    exact mult_wrong (hs.num a) (hs.num b) hfa hfb hnum hmult
  · intro hok
    obtain ⟨m, h', hrun, hnum, hframe, hnew⟩ :=
      mult_gives (hs.num a) (hs.num b) (hs.num c).owned hok
    refine ⟨Function.update st c m, h', ?_, hs.replaced hnum hframe hnew⟩
    unfold multAt
    rw [hrun]
    rfl

end Store

/-- -5 times 3, with the product in place of the -5. -/
theorem mult_iff_five : Store fiveThree (signed (-1) 1) ![-5, 3, 0] ∧
    Puts ![-5, 3, 0] (0 : Fin 3) (-5 * 3) (multAt (signed (-1) 1) 0 1 0 fiveThree) := by
  have hs : Store fiveThree (signed (-1) 1) ![-5, 3, 0] := signed_store (Or.inr rfl) (Or.inl rfl)
  have hf := signed_fits (s := -1) (t := 1) (Or.inr rfl) (Or.inl rfl)
  exact ⟨hs, (mult_iff fiveThree (signed (-1) 1) ![-5, 3, 0] hs 0 1 0 hf.1 hf.2).mpr (by decide)⟩

/-- 32768, which has two limbs, and 0. -/
def twoLimbs : Heap where
  blocks := fun p => if p = 0 then some [some 0, some 1] else none
  next := 1
  fresh := fun p hp => by rw [if_neg (by omega)]

/-- 32768 times 0 comes back with one limb, which is 0. -/
theorem mult_zero_wrong :
    Store twoLimbs (![⟨2, 0⟩, ⟨0, 0⟩] : Fin 2 → Mint) ![32768, 0] ∧
    Fits ⟨2, 0⟩ ∧ Fits ⟨0, 0⟩ ∧
    ((multAt (![⟨2, 0⟩, ⟨0, 0⟩] : Fin 2 → Mint) 0 1 1 twoLimbs).map fun r =>
      ((r.1 1).len, r.2.read (r.1 1).val 0)) = some (1, some 0) ∧
    ¬Puts ![32768, 0] (1 : Fin 2) (32768 * 0)
      (multAt (![⟨2, 0⟩, ⟨0, 0⟩] : Fin 2 → Mint) 0 1 1 twoLimbs) := by
  have hrun : ((multAt (![⟨2, 0⟩, ⟨0, 0⟩] : Fin 2 → Mint) 0 1 1 twoLimbs).map fun r =>
      ((r.1 1).len, r.2.read (r.1 1).val 0)) = some (1, some 0) := by decide
  refine ⟨⟨?_, ?_⟩, by unfold Fits; decide, by unfold Fits; decide, hrun, ?_⟩
  · intro q
    fin_cases q
    · refine ⟨[0, 1], ?_, ?_, by decide, fun _ => ⟨[], rfl⟩, Or.inl ⟨rfl, rfl⟩⟩
      · unfold Limbs Digits
        decide
      · intro x hx
        obtain rfl : 1 = x := Option.some.inj hx
        decide
    · exact ⟨[], by simp [Limbs, ints, Digits], by simp [Canon], by simp, by simp, Or.inl ⟨rfl, rfl⟩⟩
  · intro q q' hne hq hq'
    fin_cases q <;> fin_cases q' <;> simp_all
  · rintro ⟨st', h', heq, hs'⟩
    rw [heq] at hrun
    have hnum := hs'.num 1
    rw [Function.update_self, mul_zero] at hnum
    have h1 := congrArg (Option.map Prod.fst) hrun
    simp only [Option.map_some, Option.some.injEq] at h1
    rw [hnum.len_zero] at h1
    exact absurd h1 (by decide)

end Venix.Libmp
