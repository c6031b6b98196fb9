/-
  `madd` and `msub` against the integers.

  Proved: for canonical numbers of every sign and length, and whichever of the arguments are one
  object, `madd` leaves the sum in `c`, in canonical form, and the other numbers as they were.
  `msub` leaves the difference, except where `a` is negative, `b` is not positive and they differ:
  there the sign is wrong.
-/
import Venix.Libmp.Loops

namespace Venix.Libmp

open Venix.Lib

/-! ## Numbers in the heap -/

/-- Old blocks are as they were. -/
structure Grows (h h' : Heap) : Prop where
  next : h.next ≤ h'.next
  old : ∀ p < h.next, h'.blocks p = h.blocks p

theorem Grows.refl (h : Heap) : Grows h h := ⟨le_refl _, fun _ _ => rfl⟩

theorem Grows.trans {h h₁ h₂ : Heap} (h1 : Grows h h₁) (h2 : Grows h₁ h₂) : Grows h h₂ :=
  ⟨h1.next.trans h2.next, fun p hp => (h2.old p (lt_of_lt_of_le hp h1.next)).trans (h1.old p hp)⟩

theorem Sets.grows {h₀ h h' : Heap} {p : Nat} {l : List (Option Int16)} (hg : Grows h₀ h)
    (hs : Sets h h' p l) (hp : h₀.next ≤ p) : Grows h₀ h' := by
  refine ⟨by rw [hs.next]; exact hg.next, fun q hq => ?_⟩
  rw [hs.other (by omega)]
  exact hg.old q hq

theorem Holds.lt {h : Heap} {p : Nat} {l : List Int16} (hp : Holds h p l) : p < h.next := by
  obtain ⟨rest, hp⟩ := hp
  by_contra hcon
  rw [h.fresh p (by omega)] at hp
  cases hp

theorem Holds.grows {h h' : Heap} {p : Nat} {l : List Int16} (hp : Holds h p l)
    (hg : Grows h h') : Holds h' p l :=
  hp.congr (hg.old p hp.lt)

/-- The structure is for a number that is not negative, with the limbs `l`. -/
structure Rep (h : Heap) (m : Mint) (l : List Int16) : Prop where
  len : m.len.toInt = l.length
  cells : l ≠ [] → Holds h m.val l
  limbs : Limbs l

theorem Rep.read {h : Heap} {m : Mint} {l : List Int16} (hm : Rep h m l) {i : Nat}
    (hi : i < l.length) : h.read m.val i = some l[i] :=
  (hm.cells (by rintro rfl; simp at hi)).read hi

theorem Rep.grows {h h' : Heap} {m : Mint} {l : List Int16} (hm : Rep h m l) (hg : Grows h h') :
    Rep h' m l :=
  ⟨hm.len, fun hl => (hm.cells hl).grows hg, hm.limbs⟩

theorem Rep.turns {h : Heap} {m : Mint} {l : List Int16} (hm : Rep h m l) :
    turns m.len = l.length := by
  unfold Libmp.turns
  rw [hm.len]
  rfl

/-! ## The two loops -/

theorem loops_spec {k : Int} (hk : k = 1 ∨ k = -1) {x : Int16 → Heap → Nat → Option Int16}
    {one : Int16} (hone : one.toInt = k) {a b : Mint} {la lb : List Int16} {h h₁ : Heap}
    (hx : ∀ c h' i u v, h'.read a.val i = some u → h'.read b.val i = some v →
      ∃ w, x c h' i = some w ∧ w.toInt = (c.toInt + (u.toInt + k * v.toInt)).bmod 65536)
    (ha : Rep h a la) (hb : Rep h b lb) (hle : lb.length ≤ la.length) {cval n : Nat}
    (hg : Grows h h₁) (hcval : h.next ≤ cval) (hn : la.length ≤ n)
    (hcells : h₁.blocks cval = some (List.replicate n none)) :
    ∃ c₁ h₂ rs carry h', limbLoop x (fun _ => one) cval (turns b.len) 0 0 h₁ = some (c₁, h₂) ∧
      limbLoop (addOne a) id cval (turns a.len - turns b.len) (turns b.len) c₁ h₂ =
        some (carry, h') ∧
      rs.length = la.length ∧ Limbs rs ∧ (carry.toInt = 0 ∨ carry.toInt = k) ∧
      value rs + 32768 ^ la.length * carry.toInt = value la + k * value lb ∧
      Sets h₁ h' cval (rs.map some ++ List.replicate (n - la.length) none) := by
  have hread : ∀ {m : Mint} {l : List Int16}, Rep h m l → ∀ {h' : Heap},
      (∀ p, p ≠ cval → h'.blocks p = h₁.blocks p) → ∀ {i} (hi : i < l.length),
      h'.read m.val i = some l[i] := by
    intro m l hm h' hsame i hi
    have hh : Holds h m.val l := hm.cells (by rintro rfl; simp at hi)
    have hne : m.val ≠ cval := by
      have := hh.lt
      omega
    exact (hh.congr ((hsame _ hne).trans (hg.old _ hh.lt))).read hi
  rw [ha.turns, hb.turns]
  -- the limbs that both have
  let ts := List.zipWith (fun u v => u + k * v) (ints (la.take lb.length)) (ints lb)
  have hts : ts.length = lb.length := by simp [ts, hle]
  have hget : ∀ j (hj : j < ts.length) (h1 : j < la.length) (h2 : j < lb.length),
      ts[j] = la[j].toInt + k * lb[j].toInt := by
    intro j hj h1 h2
    simp [ts, ints]
  have hrange : ∀ t ∈ ts, InRange k t := by
    intro t ht
    obtain ⟨j, hj, rfl⟩ := List.getElem_of_mem ht
    rw [hget j hj (by omega) (by omega)]
    have h1 := ha.limbs.get (i := j) (by omega)
    have h2 := hb.limbs.get (i := j) (by omega)
    unfold InRange
    rcases hk with rfl | rfl <;> omega
  obtain ⟨rs₁, c₁, h₂, h1, h2, h3, h4, h5, h6⟩ := limbLoop_spec x (fun _ => one) cval k ts []
    (List.replicate n none) 0 h₁ hcells (by simp; omega)
    (Or.inl rfl)
    (fun j hj h' c hsame => by
      have hjb : j < lb.length := by omega
      have hja : j < la.length := by omega
      obtain ⟨w, hw, hval⟩ := hx c h' j _ _ (hread ha hsame hja) (hread hb hsame hjb)
      refine ⟨w, by simpa using hw, ?_⟩
      rw [hval, hget j hj hja hjb])
    hrange (fun c t _ _ _ => hone)
  rw [hts] at h1 h2 h5 h6
  rw [List.nil_append, List.drop_replicate] at h6
  -- the limbs that only `a` has
  have hts₂ : (ints (la.drop lb.length)).length = la.length - lb.length := by simp
  have hdrop : Limbs (la.drop lb.length) := fun y hy => ha.limbs y (by
    unfold ints at hy ⊢
    obtain ⟨u, hu, rfl⟩ := List.mem_map.mp hy
    exact List.mem_map_of_mem (List.mem_of_mem_drop hu))
  obtain ⟨rs₂, carry, h', h1', h2', h3', h4', h5', h6'⟩ := limbLoop_spec (addOne a) id cval k
    (ints (la.drop lb.length)) rs₁ (List.replicate (n - lb.length) none)
    c₁ h₂ h6.self (by rw [hts₂]; simp; omega) h4
    (fun j hj h' c hsame => by
      have hja : lb.length + j < la.length := by omega
      have hr := hread ha (fun p hp => (hsame p hp).trans (h6.other hp)) hja
      refine ⟨c + la[lb.length + j], ?_, ?_⟩
      · unfold addOne
        rw [h2, hr]
        rfl
      · rw [Int16.toInt_add]
        simp [ints])
    (fun t ht => by
      have := hdrop t ht
      unfold InRange
      rcases hk with rfl | rfl <;> omega)
    (fun c t ht hc hover => by
      have := hdrop t ht
      rw [id]
      rcases hk with rfl | rfl <;> omega)
  rw [hts₂, h2] at h1'
  rw [hts₂] at h2' h5' h6'
  refine ⟨c₁, h₂, rs₁ ++ rs₂, carry, h', h1, h1', by simp; omega, limbs_append.mpr ⟨h3, h3'⟩, h4',
    ?_, ?_⟩
  · have hval : valL 32768 (ts ++ ints (la.drop lb.length)) = value la + k * value lb := by
      rw [valL_zipWith k _ _ _ (by simp [hle]), ← ints_append, List.take_append_drop]
      rfl
    rw [valL_append, hts] at hval
    rw [value_append, h2]
    have hpow : (32768 : Int) ^ la.length = 32768 ^ lb.length * 32768 ^ (la.length - lb.length) := by
      rw [← pow_add, Nat.add_sub_cancel' hle]
    rw [hpow]
    have h0 : (0 : Int16).toInt = 0 := rfl
    linear_combination hval + h5 + 32768 ^ lb.length * h5' + h0
  · have := h6.trans h6'
    rw [List.drop_replicate] at this
    rwa [Nat.sub_sub, Nat.add_sub_cancel' hle] at this

/-! ## `m_add` -/

theorem xalloc_spec {h : Heap} {nint : Int16} {n : Nat} (hn : nint.toInt = n) (hbig : n ≤ 32765) :
    ∃ h', h.xalloc nint = (h.next, h') ∧ Grows h h' ∧ h'.next = h.next + 1 ∧
      h'.blocks h.next = some (List.replicate (n + 2) none) := by
  have hsize : ((2 * nint.toInt + 4) % 65536).toNat / 2 = n + 2 := by omega
  unfold Heap.xalloc Heap.alloc
  rw [hsize]
  refine ⟨_, rfl, ⟨by simp, fun p hp => ?_⟩, rfl, Function.update_self _ _ _⟩
  exact Function.update_of_ne (by omega) _ _

theorem free_spec {h : Heap} {p : Nat} {cells : List (Option Int16)}
    (hp : h.blocks p = some cells) :
    ∃ h', h.free p = some h' ∧ h'.next = h.next ∧ ∀ q, q ≠ p → h'.blocks q = h.blocks q := by
  unfold Heap.free
  rw [hp]
  exact ⟨_, rfl, rfl, fun q hq => Function.update_of_ne hq _ _⟩

theorem addBoth_spec (a b : Mint) (c : Int16) (h : Heap) (i : Nat) (u v : Int16)
    (hu : h.read a.val i = some u) (hv : h.read b.val i = some v) :
    ∃ w, addBoth a b c h i = some w ∧ w.toInt = (c.toInt + (u.toInt + 1 * v.toInt)).bmod 65536 := by
  refine ⟨c + u + v, ?_, ?_⟩
  · unfold addBoth
    rw [hu, hv]
    rfl
  · rw [Int16.toInt_add, Int16.toInt_add, Int.bmod_add_bmod, one_mul, Int.add_assoc]

theorem subBoth_spec (a b : Mint) (c : Int16) (h : Heap) (i : Nat) (u v : Int16)
    (hu : h.read a.val i = some u) (hv : h.read b.val i = some v) :
    ∃ w, subBoth a b c h i = some w ∧
      w.toInt = (c.toInt + (u.toInt + -1 * v.toInt)).bmod 65536 := by
  refine ⟨c + u - v, ?_, ?_⟩
  · unfold subBoth
    rw [hu, hv]
    rfl
  · rw [Int16.toInt_sub, Int16.toInt_add, Int.sub_eq_add_neg, Int.bmod_add_bmod, Int.add_assoc,
      neg_one_mul]

/-- `m_add` leaves the sum in a new block; the length grows by one limb at most. -/
theorem m_add_spec {a b : Mint} {la lb : List Int16} {h : Heap} (ha : Rep h a la)
    (hb : Rep h b lb) (hle : lb.length ≤ la.length) (hbig : la.length ≤ 32764) :
    ∃ c h' lc, m_add a b h = some (c, h') ∧ Rep h' c lc ∧ value lc = value la + value lb ∧
      Grows h h' ∧ h.next ≤ c.val ∧
      (lc.length = la.length ∨ ∃ l, lc = l ++ [1] ∧ l.length = la.length) := by
  have hlen : (a.len + 1).toInt = ((la.length + 1 : Nat) : Int) := by
    have h1 : (1 : Int16).toInt = 1 := rfl
    rw [Int16.toInt_add, ha.len, h1, Int.bmod_eq_of_le] <;> omega
  obtain ⟨h₁, hal, hg, hnext, hcells⟩ := xalloc_spec hlen (h := h) (by omega)
  obtain ⟨c₁, h₂, rs, carry, h', hl1, hl2, hrs, hlimbs, hcarry, hval, hset⟩ :=
    loops_spec (Or.inl rfl) (rfl : (1 : Int16).toInt = 1) (addBoth_spec a b) ha hb hle hg
      (le_refl _) (by omega) hcells
  rw [one_mul] at hval
  have hg' : Grows h h' := hset.grows hg (le_refl _)
  have hmax : max (turns a.len) (turns b.len) = la.length := by
    rw [ha.turns, hb.turns]
    clear * - hle
    omega
  have heq : m_add a b h =
      if carry = 1 then
        (h'.write h.next la.length 1).bind fun h₃ =>
          some (⟨Int16.ofNat la.length + 1, h.next⟩, h₃)
      else if a.len = 0 then (h'.free h.next).bind fun h₃ => some (⟨a.len, h.next⟩, h₃)
      else some (⟨a.len, h.next⟩, h') := by
    unfold m_add
    rw [hal]
    simp only [hl1, hl2, hmax, Option.bind_eq_bind, Option.bind_some, Option.pure_def]
  rw [heq]
  by_cases hc : carry = 1
  · rw [if_pos hc]
    have hsplit : la.length + 1 + 2 - la.length = 3 := by omega
    have hcells' : h'.blocks h.next = some (rs.map some ++ none :: [none, none]) := by
      rw [hset.self, hsplit]
      rfl
    obtain ⟨h₃, hw, hset₃⟩ := write_spec hcells' 1
    rw [List.length_map, hrs] at hw
    rw [hw]
    refine ⟨_, h₃, rs ++ [1], rfl, ⟨?_, fun _ => ⟨[none, none], ?_⟩, ?_⟩, ?_,
      hset₃.grows hg' (le_refl _), le_refl _, Or.inr ⟨rs, rfl, hrs⟩⟩
    · have h1 : (1 : Int16).toInt = 1 := rfl
      rw [Int16.toInt_add, h1, Int16.toInt_ofNat_of_lt (by omega), Int.bmod_eq_of_le]
      · simp
        omega
      · omega
      · omega
    · rw [hset₃.self]
      simp
    · exact limbs_append.mpr ⟨hlimbs, by intro y hy; simp [ints] at hy; subst hy; decide⟩
    · rw [value_append, ← hval, hc, hrs]
      rfl
  · rw [if_neg hc]
    have hzero : carry.toInt = 0 := by
      rcases hcarry with h0 | h0
      · exact h0
      · exact absurd (Int16.toInt_inj.mp h0) hc
    rw [hzero, mul_zero, add_zero] at hval
    have hrep : Rep h' ⟨a.len, h.next⟩ rs :=
      ⟨by rw [ha.len, hrs], fun _ => ⟨_, hset.self⟩, hlimbs⟩
    by_cases h0 : a.len = 0
    · rw [if_pos h0]
      obtain ⟨h₃, hf, hn, hother⟩ := free_spec hset.self
      rw [hf]
      have hnil : rs = [] := by
        have := ha.len
        rw [h0] at this
        exact List.length_eq_zero_iff.mp (by have h1 : (0 : Int16).toInt = 0 := rfl; omega)
      refine ⟨_, h₃, rs, rfl, ⟨hrep.len, fun hne => absurd hnil hne, hlimbs⟩, hval,
        ⟨by rw [hn]; exact hg'.next, fun p hp => ?_⟩, le_refl _, Or.inl hrs⟩
      exact (hother p (by omega)).trans (hg'.old p hp)
    · rw [if_neg h0]
      exact ⟨_, h', rs, rfl, hrep, hval, hg', le_refl _, Or.inl hrs⟩

/-! ## Signed numbers -/

/-- The structure is the canonical form of `v`. -/
def IsNum (h : Heap) (m : Mint) (v : Int) : Prop :=
  ∃ l, Limbs l ∧ Canon l ∧ l.length < 32768 ∧ (l ≠ [] → Holds h m.val l) ∧
    ((m.len.toInt = l.length ∧ v = value l) ∨ (m.len.toInt = -l.length ∧ v = -value l))

theorem value_concat (l : List Int16) (x : Int16) :
    value (l ++ [x]) = value l + 32768 ^ l.length * x.toInt := by
  rw [value_append]
  simp [value, ints, valL]

/-- The highest limb decides how large a number is. -/
theorem Canon.pow_le {l : List Int16} (hc : Canon l) (hl : Limbs l) (hne : l ≠ []) :
    32768 ^ (l.length - 1) ≤ value l := by
  obtain ⟨l₀, x, rfl⟩ : ∃ l₀ x, l = l₀ ++ [x] :=
    ⟨l.dropLast, l.getLast hne, (List.dropLast_append_getLast hne).symm⟩
  have hx : 0 < x.toInt := hc x (by simp)
  have h0 := (limbs_append.mp hl).1.nonneg
  have h1 : (32768 : Int) ^ l₀.length * 1 ≤ 32768 ^ l₀.length * x.toInt :=
    mul_le_mul_of_nonneg_left (by omega) (by positivity)
  rw [value_concat, List.length_append, List.length_singleton, Nat.add_sub_cancel]
  omega

theorem canon_of_pow_le {l : List Int16} (hl : Limbs l) (hle : 32768 ^ (l.length - 1) ≤ value l) :
    Canon l := by
  intro x hx
  obtain ⟨l₀, rfl⟩ := List.getLast?_eq_some_iff.mp hx
  obtain ⟨hl₀, hx'⟩ := limbs_append.mp hl
  have h0 := (hx' x.toInt (by simp [ints])).1
  rw [value_concat, List.length_append, List.length_singleton, Nat.add_sub_cancel] at hle
  by_contra hcon
  have hzero : x.toInt = 0 := by omega
  rw [hzero, mul_zero, add_zero] at hle
  have := hl₀.lt
  omega

theorem Canon.value_pos {l : List Int16} (hc : Canon l) (hl : Limbs l) (hne : l ≠ []) :
    0 < value l :=
  lt_of_lt_of_le (by positivity) (hc.pow_le hl hne)

theorem IsNum.len_nonneg {h : Heap} {m : Mint} {v : Int} (hm : IsNum h m v) :
    0 ≤ m.len ↔ 0 ≤ v := by
  obtain ⟨l, hl, hc, -, -, hv⟩ := hm
  have h0 : (0 : Int16).toInt = 0 := rfl
  rw [Int16.le_iff_toInt_le, h0]
  by_cases hne : l = []
  · subst hne
    rcases hv with ⟨h1, h2⟩ | ⟨h1, h2⟩ <;> simp [h1, h2, value, ints, valL]
  · have hpos := hc.value_pos hl hne
    have hlen : 0 < l.length := List.length_pos_iff.mpr hne
    rcases hv with ⟨h1, h2⟩ | ⟨h1, h2⟩ <;> omega

theorem IsNum.len_nonpos {h : Heap} {m : Mint} {v : Int} (hm : IsNum h m v) :
    m.len ≤ 0 ↔ v ≤ 0 := by
  obtain ⟨l, hl, hc, -, -, hv⟩ := hm
  have h0 : (0 : Int16).toInt = 0 := rfl
  rw [Int16.le_iff_toInt_le, h0]
  by_cases hne : l = []
  · subst hne
    rcases hv with ⟨h1, h2⟩ | ⟨h1, h2⟩ <;> simp [h1, h2, value, ints, valL]
  · have hpos := hc.value_pos hl hne
    have hlen : 0 < l.length := List.length_pos_iff.mpr hne
    rcases hv with ⟨h1, h2⟩ | ⟨h1, h2⟩ <;> omega

theorem neg_toInt {x : Int16} (hx : -32768 < x.toInt) : (-x).toInt = -x.toInt := by
  have := x.toInt_lt
  rw [Int16.toInt_neg, Int.bmod_eq_of_le] <;> omega

theorem IsNum.neg {h : Heap} {m : Mint} {v : Int} (hm : IsNum h m v) :
    IsNum h ⟨-m.len, m.val⟩ (-v) := by
  obtain ⟨l, hl, hc, hbig, hh, hv⟩ := hm
  refine ⟨l, hl, hc, hbig, hh, ?_⟩
  rcases hv with ⟨h1, h2⟩ | ⟨h1, h2⟩
  · exact Or.inr ⟨by rw [neg_toInt (by omega), h1], by rw [h2]⟩
  · exact Or.inl ⟨by rw [neg_toInt (by omega), h1, neg_neg], by rw [h2, neg_neg]⟩

theorem IsNum.grows {h h' : Heap} {m : Mint} {v : Int} (hm : IsNum h m v)
    (heq : m.len ≠ 0 → h'.blocks m.val = h.blocks m.val) : IsNum h' m v := by
  obtain ⟨l, hl, hc, hbig, hh, hv⟩ := hm
  refine ⟨l, hl, hc, hbig, fun hne => (hh hne).congr (heq fun h0 => ?_), hv⟩
  have hlen : 0 < l.length := List.length_pos_iff.mpr hne
  rw [h0] at hv
  have h1 : (0 : Int16).toInt = 0 := rfl
  omega

/-- A number has one value. -/
theorem IsNum.unique {h : Heap} {m : Mint} {v w : Int} (hv : IsNum h m v) (hw : IsNum h m w) :
    v = w := by
  obtain ⟨l, -, -, -, hh, hval⟩ := hv
  obtain ⟨l', -, -, -, hh', hval'⟩ := hw
  have hlen : l.length = l'.length := by omega
  have hl : l = l' := by
    by_cases hne : l = []
    · subst hne
      exact (List.length_eq_zero_iff.mp hlen.symm).symm
    · have hne' : l' ≠ [] := by
        intro e
        rw [e] at hlen
        exact hne (List.length_eq_zero_iff.mp hlen)
      obtain ⟨r, hr⟩ := hh hne
      obtain ⟨r', hr'⟩ := hh' hne'
      rw [hr] at hr'
      have := (List.append_inj (Option.some.inj hr') (by simp [hlen])).1
      exact List.map_injective_iff.mpr (Option.some_injective _) this
  subst hl
  by_cases hne : l = []
  · subst hne
    have h0 : value [] = 0 := rfl
    omega
  · have : 0 < l.length := List.length_pos_iff.mpr hne
    omega

theorem IsNum.rep {h : Heap} {m : Mint} {v : Int} (hm : IsNum h m v) (hv : 0 ≤ v) :
    ∃ l, Rep h m l ∧ Canon l ∧ v = value l := by
  obtain ⟨l, hl, hc, -, hh, hval⟩ := hm
  refine ⟨l, ⟨?_, hh, hl⟩, hc, ?_⟩
  · rcases hval with ⟨h1, -⟩ | ⟨h1, h2⟩
    · exact h1
    · by_cases hne : l = []
      · subst hne
        simpa using h1
      · have := hc.value_pos hl hne
        omega
  · rcases hval with ⟨-, h2⟩ | ⟨-, h2⟩
    · exact h2
    · have := hl.nonneg
      omega

theorem Rep.isNum {h : Heap} {m : Mint} {l : List Int16} (hm : Rep h m l) (hc : Canon l) :
    IsNum h m (value l) := by
  refine ⟨l, hm.limbs, hc, ?_, hm.cells, Or.inl ⟨hm.len, rfl⟩⟩
  have := m.len.toInt_lt
  have := hm.len
  omega

/-! ## What is left of the heap -/

/-- The block of `c` may be gone; the other old ones are as they were. -/
structure Frame (h h' : Heap) (c : Mint) : Prop where
  next : h.next ≤ h'.next
  old : ∀ p < h.next, (c.len ≠ 0 → p ≠ c.val) → h'.blocks p = h.blocks p

theorem Frame.grows {h h' : Heap} {c : Mint} (hf : Frame h h' c) (hc : c.len = 0) : Grows h h' :=
  ⟨hf.next, fun p hp => hf.old p hp fun hne => absurd hc hne⟩

/-- `c` may be freed. -/
def Owned (h : Heap) (c : Mint) : Prop := c.len ≠ 0 → ∃ cells, h.blocks c.val = some cells

theorem Owned.kept {h h' : Heap} {c : Mint} (hc : Owned h c)
    (heq : c.len ≠ 0 → h'.blocks c.val = h.blocks c.val) : Owned h' c := by
  intro hne
  obtain ⟨cells, hcells⟩ := hc hne
  exact ⟨cells, (heq hne).trans hcells⟩

theorem Owned.lt {h : Heap} {c : Mint} (hc : Owned h c) (hne : c.len ≠ 0) : c.val < h.next := by
  obtain ⟨cells, hcells⟩ := hc hne
  by_contra hcon
  rw [h.fresh _ (by omega)] at hcells
  cases hcells

theorem IsNum.owned {h : Heap} {m : Mint} {v : Int} (hm : IsNum h m v) : Owned h m := by
  obtain ⟨l, -, -, -, hh, hv⟩ := hm
  intro hne
  have hl : l ≠ [] := by
    intro e
    subst e
    refine hne (Int16.toInt_inj.mp ?_)
    have h1 : (0 : Int16).toInt = 0 := rfl
    rw [List.length_nil] at hv
    omega
  obtain ⟨rest, hrest⟩ := hh hl
  exact ⟨_, hrest⟩

/-- The end of `madd` and `msub`: the old limbs of `c` are freed, and those of `z` are not among
them. -/
theorem xfree_spec {h h₁ : Heap} {c : Mint} (hg : Grows h h₁) (hc : Owned h c) :
    ∃ h', xfree c h₁ = some h' ∧ Frame h h' c ∧ ∀ p, h.next ≤ p → h'.blocks p = h₁.blocks p := by
  unfold xfree
  by_cases h0 : c.len = 0
  · rw [if_pos h0]
    exact ⟨h₁, rfl, ⟨hg.next, fun p hp _ => hg.old p hp⟩, fun _ _ => rfl⟩
  · rw [if_neg h0]
    obtain ⟨cells, hcells⟩ := hc h0
    have hlt := hc.lt h0
    obtain ⟨h', hf, hn, hother⟩ := free_spec ((hg.old _ hlt).trans hcells)
    refine ⟨h', hf, ⟨by rw [hn]; exact hg.next, fun p hp hne => ?_⟩, fun p hp => ?_⟩
    · rw [hother p (hne h0), hg.old p hp]
    · exact hother p (by omega)

/-! ## Sums of numbers that are not negative -/

theorem madd_pos {a b c : Mint} {la lb : List Int16} {h : Heap} (ha : Rep h a la)
    (hb : Rep h b lb) (hbig : la.length ≤ 32764 ∧ lb.length ≤ 32764) (hc : Owned h c)
    (fuel : Nat) :
    ∃ m h' lc, madd (fuel + 1) a b c h = some (m, h') ∧ Rep h' m lc ∧
      value lc = value la + value lb ∧ Frame h h' c ∧ h.next ≤ m.val ∧
      (lc.length = max la.length lb.length ∨
        ∃ l, lc = l ++ [1] ∧ l.length = max la.length lb.length) := by
  have h0 : (0 : Int16).toInt = 0 := rfl
  have ha0 : 0 ≤ a.len := by
    rw [Int16.le_iff_toInt_le, ha.len, h0]
    omega
  have hb0 : 0 ≤ b.len := by
    rw [Int16.le_iff_toInt_le, hb.len, h0]
    omega
  have hadd : ∃ z h₁ lc, (if b.len ≤ a.len then m_add a b h else m_add b a h) = some (z, h₁) ∧
      Rep h₁ z lc ∧ value lc = value la + value lb ∧ Grows h h₁ ∧ h.next ≤ z.val ∧
      (lc.length = max la.length lb.length ∨
        ∃ l, lc = l ++ [1] ∧ l.length = max la.length lb.length) := by
    by_cases hle : b.len ≤ a.len
    · rw [if_pos hle]
      rw [Int16.le_iff_toInt_le, ha.len, hb.len] at hle
      rw [max_eq_left (by omega)]
      exact m_add_spec ha hb (by omega) hbig.1
    · rw [if_neg hle]
      rw [Int16.le_iff_toInt_le, ha.len, hb.len] at hle
      rw [max_eq_right (by omega), add_comm (value la)]
      exact m_add_spec hb ha (by omega) hbig.2
  obtain ⟨z, h₁, lc, hz, hrep, hval, hg, hnew, hlen⟩ := hadd
  obtain ⟨h', hx, hframe, hsame⟩ := xfree_spec hg hc
  refine ⟨⟨1 * z.len, z.val⟩, h', lc, ?_, ⟨?_, fun hne => ?_, hrep.limbs⟩, hval, hframe, hnew, hlen⟩
  · unfold madd
    simp only [ha0, hb0, if_true]
    split at hz
    · rename_i hle
      simp [hle, hz, hx]
    · rename_i hle
      simp [hle, hz, hx]
  · rw [Int16.one_mul]
    exact hrep.len
  · exact (hrep.cells hne).congr (hsame _ hnew)

/-! ## `m_sub` -/

/-- The lengths that `topLimb` leaves. -/
theorem topLen {n : Nat} (h0 : 0 < n) (hbig : n ≤ 32764) :
    (Int16.ofNat (n - 1) + 1).toInt = n ∧ (-Int16.ofNat (n - 1) - 1).toInt = -n := by
  have h1 : (1 : Int16).toInt = 1 := rfl
  have hof : (Int16.ofNat (n - 1)).toInt = ((n - 1 : Nat) : Int) :=
    Int16.toInt_ofNat_of_lt (by omega)
  constructor
  · rw [Int16.toInt_add, h1, hof, Int.bmod_eq_of_le] <;> omega
  · rw [Int16.toInt_sub, neg_toInt (by omega), h1, hof, Int.bmod_eq_of_le] <;> omega

/-- The end of `m_sub`: what is left is canonical, or freed. -/
theorem topLimb_isNum {h h₁ : Heap} {c : Mint} {l : List Int16} (borrow : Int16) (hl : Limbs l)
    (hc : Holds h₁ c.val l) (hbig : l.length ≤ 32764) (hg : Grows h h₁) (hnew : h.next ≤ c.val)
    (hlen : value l = 0 → c.len = 0) :
    ∃ m h', topLimb c borrow l.length h₁ = some (m, h') ∧
      IsNum h' m (if borrow = 0 then value l else -value l) ∧ Grows h h' ∧ h.next ≤ m.val := by
  rcases topLimb_spec c borrow h₁ l hl hc with ⟨hzero, heq⟩ |
    ⟨l', hne, hcanon, hl', hval, hle, hh, heq⟩
  · obtain ⟨rest, hrest⟩ := hc
    obtain ⟨h', hf, hn, hother⟩ := free_spec hrest
    refine ⟨c, h', ?_, ⟨[], by simp [Limbs, ints, Digits], by simp [Canon], by simp, by simp, ?_⟩,
      ⟨by rw [hn]; exact hg.next, fun p hp => ?_⟩, hnew⟩
    · rw [heq, hf]
      rfl
    · refine Or.inl ⟨by rw [hlen hzero]; rfl, ?_⟩
      rw [hzero]
      split <;> rfl
    · rw [hother p (by omega), hg.old p hp]
  · have hpos : 0 < l'.length := List.length_pos_iff.mpr hne
    obtain ⟨ht1, ht2⟩ := topLen hpos (by omega)
    refine ⟨_, h₁, heq, ⟨l', hl', hcanon, by omega, fun _ => hh, ?_⟩, hg, hnew⟩
    split
    · exact Or.inl ⟨ht1, hval.symm⟩
    · exact Or.inr ⟨ht2, by rw [hval]⟩

theorem m_sub_spec {a b c : Mint} {la lb : List Int16} {h : Heap} (ha : Rep h a la)
    (hb : Rep h b lb) (hle : lb.length ≤ la.length) (hbig : la.length ≤ 32764) (hc : c.len = 0)
    (fuel : Nat) :
    ∃ m h', m_sub (fuel + 2) a b c h = some (m, h') ∧ IsNum h' m (value la - value lb) ∧
      Grows h h' ∧ h.next ≤ m.val := by
  -- the variable `one`, then the block of the difference
  let h₀ := (h.alloc [some 1]).2
  have hg₀ : Grows h h₀ := ⟨by simp [h₀, Heap.alloc], fun p hp => Function.update_of_ne (by omega) _ _⟩
  have hn₀ : h₀.next = h.next + 1 := rfl
  have hone : Holds h₀ h.next [1] := ⟨[], Function.update_self _ _ _⟩
  obtain ⟨h₁, hal, hg₁, hn₁, hcells⟩ := xalloc_spec (h := h₀) ha.len (by omega)
  obtain ⟨c₁, h₂, rs, borrow, h₃, hl1, hl2, hrs, hlimbs, hborrow, hval, hset⟩ :=
    loops_spec (Or.inr rfl) (rfl : (-1 : Int16).toInt = -1) (subBoth_spec a b) (ha.grows hg₀)
      (hb.grows hg₀) hle hg₁ (le_refl _) (by omega) hcells
  have hg₃ : Grows h h₃ := hg₀.trans (hset.grows hg₁ (le_refl _))
  have hn₃ : h₃.next = h.next + 2 := by rw [hset.next, hn₁, hn₀]
  have hrshold : Holds h₃ h₀.next rs := ⟨_, hset.self⟩
  have hone₃ : Holds h₃ h.next [1] := by
    refine (hone.grows hg₁).congr (hset.other ?_)
    omega
  have heq : m_sub (fuel + 2) a b c h =
      if borrow < 0 then
        (complement h₀.next la.length 0 h₃).bind fun h₄ =>
          (madd (fuel + 1) ⟨a.len, h₀.next⟩ ⟨1, h.next⟩ ⟨a.len, h₀.next⟩ h₄).bind fun r =>
            topLimb r.1 borrow la.length r.2
      else topLimb ⟨c.len, h₀.next⟩ borrow la.length h₃ := by
    rw [m_sub]
    have hsplit : h.alloc [some 1] = (h.next, h₀) := rfl
    rw [hsplit]
    simp only [hal, hl1, hl2, Option.bind_eq_bind, Option.bind_some]
    rw [ha.turns]
  have h0 : (0 : Int16).toInt = 0 := rfl
  rw [heq]
  by_cases hneg : borrow < 0
  · rw [if_pos hneg]
    have hb1 : borrow.toInt = -1 := by
      rw [Int16.lt_iff_toInt_lt, h0] at hneg
      omega
    rw [hb1] at hval
    have hlt := hlimbs.lt
    rw [hrs] at hlt
    have hpos : 0 < la.length := by
      by_contra hcon
      have h1 : la = [] := List.length_eq_zero_iff.mp (by omega)
      have h2 : lb = [] := List.length_eq_zero_iff.mp (by omega)
      subst h1 h2
      have h3 : value [] = 0 := rfl
      have h4 := hlimbs.nonneg
      rw [h3] at hval
      simp only [List.length_nil, pow_zero] at hval hlt
      omega
    obtain ⟨h₄, hcomp, hset₄⟩ := complement_spec rs [] _ hset.self
    rw [hrs, List.length_nil] at hcomp
    rw [List.nil_append] at hset₄
    obtain ⟨hlimbs₄, hval₄⟩ := value_complement hlimbs
    rw [hcomp]
    have hrep : Rep h₄ ⟨a.len, h₀.next⟩ (rs.map (· ^^^ 0o77777)) :=
      ⟨by rw [ha.len, List.length_map, hrs], fun _ => ⟨_, hset₄.self⟩, hlimbs₄⟩
    have hrep1 : Rep h₄ ⟨1, h.next⟩ [1] :=
      ⟨rfl, fun _ => hone₃.congr (hset₄.other (by omega)), by
        intro y hy
        simp [ints] at hy
        subst hy
        decide⟩
    obtain ⟨m, h₅, lc, hadd, hrep5, hval5, hframe, hnew, hlen5⟩ := madd_pos hrep hrep1
      (by simp; omega) (c := ⟨a.len, h₀.next⟩) (fun _ => ⟨_, hset₄.self⟩) fuel
    have hsum : value lc = value lb - value la := by
      have h1 : value [1] = 1 := rfl
      rw [hval5, hval₄, h1, hrs]
      linarith
    have hlc : lc.length = la.length := by
      rw [List.length_map, hrs, List.length_singleton, max_eq_left (by omega)] at hlen5
      rcases hlen5 with h1 | ⟨l, h1, h2⟩
      · exact h1
      · exfalso
        have h3 : value lc = value l + 32768 ^ la.length * 1 := by
          rw [h1, value_append, h2]
          rfl
        have h4 : 0 ≤ value l := (limbs_append.mp (h1 ▸ hrep5.limbs)).1.nonneg
        have h5 := hb.limbs.lt
        have h6 : (32768 : Int) ^ lb.length ≤ 32768 ^ la.length :=
          pow_le_pow_right₀ (by decide) hle
        have h7 := ha.limbs.nonneg
        linarith
    have hg₅ : Grows h h₅ := by
      have hg₄ : Grows h h₄ := hset₄.grows hg₃ (by omega)
      refine ⟨hg₄.next.trans hframe.next, fun p hp => ?_⟩
      rw [hframe.old p (lt_of_lt_of_le hp hg₄.next) fun _ => by dsimp only; omega]
      exact hg₄.old p hp
    have hn₄ : h₄.next = h.next + 2 := by rw [hset₄.next, hn₃]
    obtain ⟨m', h', htop, hnum, hg', hnew'⟩ := topLimb_isNum borrow hrep5.limbs
      (hrep5.cells fun e => by rw [e] at hlc; simp at hlc; omega) (by omega) hg₅ (by omega)
      (fun hzero => by linarith)
    rw [hlc] at htop
    refine ⟨m', h', by simp [hadd, htop], ?_, hg', hnew'⟩
    rw [if_neg (fun e => by rw [e] at hb1; cases hb1)] at hnum
    have hv : value la - value lb = -value lc := by omega
    rw [hv]
    exact hnum
  · rw [if_neg hneg]
    have hb0 : borrow.toInt = 0 := by
      rw [Int16.lt_iff_toInt_lt, h0] at hneg
      omega
    rw [hb0, mul_zero, add_zero, neg_one_mul, ← sub_eq_add_neg] at hval
    obtain ⟨m', h', htop, hnum, hg', hnew'⟩ := topLimb_isNum (c := ⟨c.len, h₀.next⟩)
      borrow hlimbs hrshold (by omega) hg₃ (by dsimp only; omega) (fun _ => hc)
    rw [hrs] at htop
    refine ⟨m', h', htop, ?_, hg', hnew'⟩
    rw [if_pos (Int16.toInt_inj.mp hb0), hval] at hnum
    exact hnum

/-! ## All signs -/

/-- A number whose limbs, as `xalloc` gets them (`2*len+4` bytes), and structure (4 bytes) are in
the 64K bytes that an address can reach. -/
def Fits (m : Mint) : Prop := 2 * m.len.toInt.natAbs + 8 ≤ 65536

theorem Rep.length_le {h : Heap} {m : Mint} {l : List Int16} (hm : Rep h m l) (hf : Fits m) :
    l.length ≤ 32764 := by
  unfold Fits at hf
  rw [hm.len] at hf
  omega

theorem Fits.neg {m : Mint} (hf : Fits m) : Fits ⟨-m.len, m.val⟩ := by
  unfold Fits at hf ⊢
  dsimp only
  rw [neg_toInt (by omega)]
  omega

/-- What a call leaves in `c` for the result `v`. -/
def Gives (h : Heap) (c : Mint) (r : Option (Mint × Heap)) (v : Int) : Prop :=
  ∃ m h', r = some (m, h') ∧ IsNum h' m v ∧ Frame h h' c ∧ h.next ≤ m.val

/-- The end of `madd` and `msub`. -/
def finish (c : Mint) (sign : Int16) (r : Option (Mint × Heap)) : Option (Mint × Heap) :=
  r.bind fun z => (xfree c z.2).bind fun h => some (⟨sign * z.1.len, z.1.val⟩, h)

theorem madd_eq (fuel : Nat) (a b c : Mint) (h : Heap) :
    madd (fuel + 1) a b c h =
      if 0 ≤ a.len then
        if 0 ≤ b.len then finish c 1 (if b.len ≤ a.len then m_add a b h else m_add b a h)
        else finish c 1 (msub fuel a ⟨-b.len, b.val⟩ z₀ false false h)
      else if b.len ≤ 0 then finish c (-1) (madd fuel ⟨-a.len, a.val⟩ ⟨-b.len, b.val⟩ z₀ h)
      else finish c 1 (msub fuel b ⟨-a.len, a.val⟩ z₀ false false h) := by
  rw [madd]
  unfold finish
  split
  · split
    · split <;> simp [Option.bind_assoc]
    · simp [Option.bind_assoc]
  · split <;> simp [Option.bind_assoc]

/-- Whatever object is the same as `c`, it is the limbs of `c` that `msub` frees. -/
theorem msub_eq (fuel : Nat) {a b c : Mint} {ac bc : Bool} (hac : ac = true → a = c)
    (hbc : bc = true → b = c) (h : Heap) :
    msub (fuel + 1) a b c ac bc h =
      if 0 ≤ a.len then
        if 0 ≤ b.len then
          if b.len ≤ a.len then finish c 1 (m_sub fuel a b z₀ h)
          else finish c (-1) (msub fuel b a z₀ false false h)
        else finish c 1 (madd fuel a ⟨-b.len, b.val⟩ z₀ h)
      else if b.len ≤ 0 then
        finish c (-1) (msub fuel ⟨-b.len, b.val⟩ ⟨-a.len, a.val⟩ z₀ false false h)
      else finish c (-1) (madd fuel ⟨-a.len, a.val⟩ b z₀ h) := by
  have hfree : ∀ (x y : Int16) (h : Heap) (f : Heap → Option (Mint × Heap)),
      (if ac = true ∧ ¬x = 0 then (xfree a h).bind f
        else if bc = true ∧ ¬y = 0 then (xfree b h).bind f else (xfree c h).bind f) =
      (xfree c h).bind f := by
    intro x y h f
    split
    · rename_i hx
      rw [hac hx.1]
    · split
      · rename_i hy
        rw [hbc hy.1]
      · rfl
  rw [msub]
  unfold finish
  split
  · split
    · split <;> simp [Option.bind_assoc, hfree]
    · simp [Option.bind_assoc, hfree]
  · split <;> simp [Option.bind_assoc, hfree]

/-- The result of a call with a local `z` goes to `c` with its sign. -/
theorem Gives.finish {h : Heap} {r : Option (Mint × Heap)} {v : Int} (hr : Gives h z₀ r v)
    {c : Mint} (hc : Owned h c) {sign : Int16} (hs : sign = 1 ∨ sign = -1) :
    Gives h c (finish c sign r) (sign.toInt * v) := by
  obtain ⟨m, h₁, rfl, hnum, hframe, hnew⟩ := hr
  obtain ⟨h', hx, hframe', hsame⟩ := xfree_spec (hframe.grows rfl) hc
  refine ⟨⟨sign * m.len, m.val⟩, h', by simp [Libmp.finish, hx], ?_, hframe', hnew⟩
  have hnum' : IsNum h' m v := hnum.grows fun _ => hsame _ hnew
  rcases hs with rfl | rfl
  · have h1 : (1 : Int16).toInt = 1 := rfl
    rw [Int16.one_mul, h1, one_mul]
    exact hnum'
  · have h1 : (-1 : Int16).toInt = -1 := rfl
    rw [← Int16.neg_eq_neg_one_mul, h1, neg_one_mul]
    exact hnum'.neg

theorem not_same {a c : Mint} : false = true → a = c := by simp

theorem owned_z₀ (h : Heap) : Owned h z₀ := fun hne => absurd rfl hne

theorem madd_nonneg {a b c : Mint} {va vb : Int} {h : Heap} (ha : IsNum h a va) (hb : IsNum h b vb)
    (hfa : Fits a) (hfb : Fits b) (hc : Owned h c) (hva : 0 ≤ va) (hvb : 0 ≤ vb) (fuel : Nat) :
    Gives h c (madd (fuel + 1) a b c h) (va + vb) := by
  obtain ⟨la, hra, hca, rfl⟩ := ha.rep hva
  obtain ⟨lb, hrb, hcb, rfl⟩ := hb.rep hvb
  obtain ⟨m, h', lc, heq, hrep, hval, hframe, hnew, hlen⟩ :=
    madd_pos hra hrb ⟨hra.length_le hfa, hrb.length_le hfb⟩ hc fuel
  refine ⟨m, h', heq, ?_, hframe, hnew⟩
  rw [← hval]
  refine hrep.isNum ?_
  rcases hlen with hmax | ⟨l, rfl, -⟩
  · -- the sum is not below the larger number, and that fills the same limbs
    by_cases hne : lc = []
    · rw [hne]
      simp [Canon]
    · refine canon_of_pow_le hrep.limbs ?_
      rw [hval, hmax]
      have hpos : 0 < lc.length := List.length_pos_iff.mpr hne
      rcases le_total lb.length la.length with hle | hle
      · rw [max_eq_left hle] at hmax ⊢
        have := hca.pow_le hra.limbs (List.length_pos_iff.mp (by omega))
        omega
      · rw [max_eq_right hle] at hmax ⊢
        have := hcb.pow_le hrb.limbs (List.length_pos_iff.mp (by omega))
        omega
  · intro x hx
    rw [List.getLast?_concat] at hx
    cases hx
    decide

/-- `msub` of numbers that are not negative. -/
theorem msub_nonneg {a b c : Mint} {va vb : Int} {h : Heap} {ac bc : Bool} (ha : IsNum h a va)
    (hb : IsNum h b vb) (hfa : Fits a) (hfb : Fits b) (hc : Owned h c) (hac : ac = true → a = c)
    (hbc : bc = true → b = c) (hva : 0 ≤ va) (hvb : 0 ≤ vb) (fuel : Nat) :
    Gives h c (msub (fuel + 4) a b c ac bc h) (va - vb) := by
  obtain ⟨la, hra, -, rfl⟩ := ha.rep hva
  obtain ⟨lb, hrb, -, rfl⟩ := hb.rep hvb
  have ha0 : 0 ≤ a.len := ha.len_nonneg.mpr hva
  have hb0 : 0 ≤ b.len := hb.len_nonneg.mpr hvb
  -- the first number is not the shorter one
  have hlong : ∀ {a b : Mint} {la lb : List Int16}, Rep h a la → Rep h b lb → Fits a →
      b.len ≤ a.len → ∀ fuel, Gives h z₀ (m_sub (fuel + 2) a b z₀ h) (value la - value lb) := by
    intro a b la lb hra hrb hfa hle fuel
    rw [Int16.le_iff_toInt_le, hra.len, hrb.len] at hle
    obtain ⟨m, h', heq, hnum, hg, hnew⟩ :=
      m_sub_spec hra hrb (by omega) (hra.length_le hfa) (c := z₀) rfl fuel
    exact ⟨m, h', heq, hnum, ⟨hg.next, fun p hp _ => hg.old p hp⟩, hnew⟩
  have h1 : (1 : Int16).toInt = 1 := rfl
  have h2 : (-1 : Int16).toInt = -1 := rfl
  rw [msub_eq _ hac hbc, if_pos ha0, if_pos hb0]
  by_cases hle : b.len ≤ a.len
  · rw [if_pos hle]
    have := (hlong hra hrb hfa hle (fuel + 1)).finish hc (Or.inl rfl)
    rwa [h1, one_mul] at this
  · have hle' : a.len ≤ b.len := by
      rw [Int16.le_iff_toInt_le] at hle ⊢
      omega
    rw [if_neg hle, msub_eq _ not_same not_same, if_pos hb0, if_pos ha0, if_pos hle']
    have := ((hlong hrb hra hfb hle' fuel).finish (owned_z₀ h) (Or.inl rfl)).finish hc (Or.inr rfl)
    rw [h1, h2, one_mul, neg_one_mul, neg_sub] at this
    exact this

/-- `madd` leaves the sum in `c`. -/
theorem madd_gives {a b c : Mint} {va vb : Int} {h : Heap} (ha : IsNum h a va) (hb : IsNum h b vb)
    (hfa : Fits a) (hfb : Fits b) (hc : Owned h c) (fuel : Nat) :
    Gives h c (madd (fuel + 5) a b c h) (va + vb) := by
  have h1 : (1 : Int16).toInt = 1 := rfl
  have h2 : (-1 : Int16).toInt = -1 := rfl
  by_cases hva : 0 ≤ va
  · by_cases hvb : 0 ≤ vb
    · exact madd_nonneg ha hb hfa hfb hc hva hvb _
    · rw [madd_eq, if_pos (ha.len_nonneg.mpr hva), if_neg (by rw [hb.len_nonneg]; exact hvb)]
      have := (msub_nonneg ha hb.neg hfa hfb.neg (owned_z₀ h) not_same
        not_same hva (by omega) fuel).finish hc (Or.inl rfl)
      rwa [h1, one_mul, sub_neg_eq_add] at this
  · rw [madd_eq, if_neg (by rw [ha.len_nonneg]; exact hva)]
    by_cases hvb : vb ≤ 0
    · rw [if_pos (hb.len_nonpos.mpr hvb)]
      have := (madd_nonneg ha.neg hb.neg hfa.neg hfb.neg (owned_z₀ h) (by omega) (by omega)
        (fuel + 3)).finish hc (Or.inr rfl)
      rwa [h2, neg_one_mul, neg_add, neg_neg, neg_neg] at this
    · rw [if_neg (by rw [hb.len_nonpos]; exact hvb)]
      have := (msub_nonneg hb ha.neg hfb hfa.neg (owned_z₀ h) not_same
        not_same (by omega) (by omega) fuel).finish hc (Or.inl rfl)
      rwa [h1, one_mul, sub_neg_eq_add, add_comm vb va] at this

/-- `msub` leaves the difference in `c`, but with the wrong sign where `a` is negative and `b` is
not positive. -/
theorem msub_gives {a b c : Mint} {va vb : Int} {h : Heap} {ac bc : Bool} (ha : IsNum h a va)
    (hb : IsNum h b vb) (hfa : Fits a) (hfb : Fits b) (hc : Owned h c) (hac : ac = true → a = c)
    (hbc : bc = true → b = c) (fuel : Nat) :
    Gives h c (msub (fuel + 5) a b c ac bc h) (if va < 0 ∧ vb ≤ 0 then vb - va else va - vb) := by
  have h1 : (1 : Int16).toInt = 1 := rfl
  have h2 : (-1 : Int16).toInt = -1 := rfl
  by_cases hva : 0 ≤ va
  · rw [if_neg (by omega)]
    by_cases hvb : 0 ≤ vb
    · exact msub_nonneg ha hb hfa hfb hc hac hbc hva hvb _
    · rw [msub_eq _ hac hbc, if_pos (ha.len_nonneg.mpr hva),
        if_neg (by rw [hb.len_nonneg]; exact hvb)]
      have := (madd_nonneg ha hb.neg hfa hfb.neg (owned_z₀ h) hva (by omega)
        (fuel + 3)).finish hc (Or.inl rfl)
      rwa [h1, one_mul, ← sub_eq_add_neg] at this
  · rw [msub_eq _ hac hbc, if_neg (by rw [ha.len_nonneg]; exact hva)]
    by_cases hvb : vb ≤ 0
    · rw [if_pos (hb.len_nonpos.mpr hvb), if_pos ⟨by omega, hvb⟩]
      have := (msub_nonneg hb.neg ha.neg hfb.neg hfa.neg (owned_z₀ h) not_same
        not_same (by omega) (by omega) fuel).finish hc (Or.inr rfl)
      have hv : vb - va = -(-vb - -va) := by omega
      rwa [h2, neg_one_mul, ← hv] at this
    · rw [if_neg (by rw [hb.len_nonpos]; exact hvb), if_neg (by omega)]
      have := (madd_nonneg ha.neg hb hfa.neg hfb (owned_z₀ h) (by omega) (by omega)
        (fuel + 3)).finish hc (Or.inr rfl)
      have hv : va - vb = -(-va + vb) := by omega
      rwa [h2, neg_one_mul, ← hv] at this

/-! ## The numbers of a program -/

section Store

variable {Q : Type} [DecidableEq Q]

/-- The objects of a program are canonical numbers, and no two of them share their limbs. -/
structure Store (h : Heap) (st : Q → Mint) (v : Q → Int) : Prop where
  num : ∀ q, IsNum h (st q) (v q)
  own : ∀ q q', q ≠ q' → (st q).len ≠ 0 → (st q').len ≠ 0 → (st q).val ≠ (st q').val

/-- `madd(a,b,c)` where `a`, `b` and `c` are objects of the program. -/
def maddAt (fuel : Nat) (st : Q → Mint) (a b c : Q) (h : Heap) : Option ((Q → Mint) × Heap) :=
  (madd fuel (st a) (st b) (st c) h).map fun r => (Function.update st c r.1, r.2)

/-- `msub(a,b,c)` where `a`, `b` and `c` are objects of the program. -/
def msubAt (fuel : Nat) (st : Q → Mint) (a b c : Q) (h : Heap) : Option ((Q → Mint) × Heap) :=
  (msub fuel (st a) (st b) (st c) (decide (a = c)) (decide (b = c)) h).map fun r =>
    (Function.update st c r.1, r.2)

/-- A call comes back with `w` in the object `c`, and the other numbers as they were. -/
def Puts (v : Q → Int) (c : Q) (w : Int) (r : Option ((Q → Mint) × Heap)) : Prop :=
  ∃ st' h', r = some (st', h') ∧ Store h' st' (Function.update v c w)

/-- Each object's limbs may be freed, and no two of them share theirs. -/
structure Held (h : Heap) (st : Q → Mint) : Prop where
  owned : ∀ q, Owned h (st q)
  own : ∀ q q', q ≠ q' → (st q).len ≠ 0 → (st q').len ≠ 0 → (st q).val ≠ (st q').val

omit [DecidableEq Q] in
theorem Store.held {h : Heap} {st : Q → Mint} {v : Q → Int} (hs : Store h st v) : Held h st :=
  ⟨fun q => (hs.num q).owned, hs.own⟩

omit [DecidableEq Q] in
/-- The limbs of another object stay. -/
theorem Held.kept {h h' : Heap} {st : Q → Mint} (hs : Held h st) {c q : Q}
    (hframe : Frame h h' (st c)) (hq : q ≠ c) (hne : (st q).len ≠ 0) :
    h'.blocks (st q).val = h.blocks (st q).val :=
  hframe.old _ ((hs.owned q).lt hne) fun hc => hs.own q c hq hne hc

/-- The new limbs of `c`, if it has any, are not those of another object. -/
theorem Held.replaced {h h' : Heap} {st : Q → Mint} (hs : Held h st) {c : Q} {m : Mint}
    (hown : Owned h' m) (hframe : Frame h h' (st c)) (hnew : m.len ≠ 0 → h.next ≤ m.val) :
    Held h' (Function.update st c m) := by
  refine ⟨fun q => ?_, fun q q' hne => ?_⟩
  · by_cases e : q = c
    · subst e
      rw [Function.update_self]
      exact hown
    · rw [Function.update_of_ne e]
      exact (hs.owned q).kept (hs.kept hframe e)
  · by_cases e : q = c
    · subst e
      rw [Function.update_self, Function.update_of_ne hne.symm]
      intro hm hq' heq
      have h1 := (hs.owned q').lt hq'
      have h2 := hnew hm
      omega
    · rw [Function.update_of_ne e]
      by_cases e' : q' = c
      · subst e'
        rw [Function.update_self]
        intro hq hm heq
        have h1 := (hs.owned q).lt hq
        have h2 := hnew hm
        omega
      · rw [Function.update_of_ne e']
        exact hs.own q q' hne

theorem Store.replaced {h h' : Heap} {st : Q → Mint} {v : Q → Int} (hs : Store h st v) {c : Q}
    {m : Mint} {w : Int} (hnum : IsNum h' m w) (hframe : Frame h h' (st c))
    (hnew : m.len ≠ 0 → h.next ≤ m.val) :
    Store h' (Function.update st c m) (Function.update v c w) := by
  refine ⟨fun q => ?_, (hs.held.replaced hnum.owned hframe hnew).own⟩
  by_cases e : q = c
  · subst e
    rw [Function.update_self, Function.update_self]
    exact hnum
  · rw [Function.update_of_ne e, Function.update_of_ne e]
    exact (hs.num q).grows (hs.held.kept hframe e)

theorem Store.puts {h : Heap} {st : Q → Mint} {v : Q → Int} (hs : Store h st v) {c : Q}
    {r : Option (Mint × Heap)} {w : Int} (hr : Gives h (st c) r w) :
    Puts v c w (r.map fun r => (Function.update st c r.1, r.2)) := by
  obtain ⟨m, h', rfl, hnum, hframe, hnew⟩ := hr
  exact ⟨_, h', rfl, hs.replaced hnum hframe fun _ => hnew⟩

variable {h : Heap} {st : Q → Mint} {v : Q → Int} {a b : Q}

theorem maddAt_puts (hs : Store h st v) (hfa : Fits (st a)) (hfb : Fits (st b)) (c : Q)
    (fuel : Nat) : Puts v c (v a + v b) (maddAt (fuel + 5) st a b c h) :=
  hs.puts (madd_gives (hs.num a) (hs.num b) hfa hfb (hs.num c).owned fuel)

theorem msubAt_puts (hs : Store h st v) (hfa : Fits (st a)) (hfb : Fits (st b)) (c : Q)
    (fuel : Nat) :
    Puts v c (if v a < 0 ∧ v b ≤ 0 then v b - v a else v a - v b)
      (msubAt (fuel + 5) st a b c h) := by
  refine hs.puts (msub_gives (hs.num a) (hs.num b) hfa hfb (hs.num c).owned ?_ ?_ fuel)
  · intro h
    rw [of_decide_eq_true h]
  · intro h
    rw [of_decide_eq_true h]

theorem Puts.unique {c : Q} {w w' : Int} {r : Option ((Q → Mint) × Heap)} (h1 : Puts v c w r)
    (h2 : Puts v c w' r) : w = w' := by
  obtain ⟨st₁, h₁, rfl, hs₁⟩ := h1
  obtain ⟨st₂, h₂, heq, hs₂⟩ := h2
  cases heq
  have h1 := hs₁.num c
  have h2 := hs₂.num c
  rw [Function.update_self] at h1 h2
  exact h1.unique h2

/-- `madd` and `msub` leave the sum and the difference in `c`, whichever of the objects are the
same, exactly when it is not a negative `a` and a `b` that is not positive and differs from it. -/
theorem madd_msub_iff (fuel : Nat) (h : Heap) (st : Q → Mint) (v : Q → Int) (hs : Store h st v)
    (a b c : Q) (hfa : Fits (st a)) (hfb : Fits (st b)) :
    (Puts v c (v a + v b) (maddAt (fuel + 5) st a b c h) ∧
      Puts v c (v a - v b) (msubAt (fuel + 5) st a b c h)) ↔
    ¬(v a < 0 ∧ v b ≤ 0 ∧ v a ≠ v b) := by
  have hsub := msubAt_puts hs hfa hfb c fuel
  constructor
  · rintro ⟨-, h2⟩ ⟨ha, hb, hne⟩
    have := hsub.unique h2
    rw [if_pos ⟨ha, hb⟩] at this
    omega
  · intro hcond
    refine ⟨maddAt_puts hs hfa hfb c fuel, ?_⟩
    have hv : (if v a < 0 ∧ v b ≤ 0 then v b - v a else v a - v b) = v a - v b := by
      split
      · omega
      · rfl
    rwa [hv] at hsub

end Store

/-! ## Numbers of one limb -/

/-- The limbs 5 and 3. -/
def fiveThree : Heap where
  blocks := fun p => if p = 0 then some [some 5] else if p = 1 then some [some 3] else none
  next := 2
  fresh := fun p hp => by rw [if_neg (by omega), if_neg (by omega)]

/-- 5 and 3 with the signs `s` and `t`, and 0. -/
def signed (s t : Int16) : Fin 3 → Mint := ![⟨s, 0⟩, ⟨t, 1⟩, ⟨0, 0⟩]

theorem oneLimb_isNum {h : Heap} {p : Nat} {x s : Int16} (hp : Holds h p [x])
    (hx : 0 < x.toInt ∧ x.toInt < 32768) (hs : s = 1 ∨ s = -1) :
    IsNum h ⟨s, p⟩ (s.toInt * x.toInt) := by
  have hv : value [x] = x.toInt := by simp [value, ints, valL]
  refine ⟨[x], ?_, ?_, by simp, fun _ => hp, ?_⟩
  · intro y hy
    have hyx : y = x.toInt := by simpa [ints] using hy
    omega
  · intro y hy
    cases hy
    exact hx.1
  · rw [hv]
    rcases hs with rfl | rfl
    · exact Or.inl ⟨rfl, one_mul _⟩
    · exact Or.inr ⟨rfl, neg_one_mul _⟩

theorem signed_store {s t : Int16} (hs : s = 1 ∨ s = -1) (ht : t = 1 ∨ t = -1) :
    Store fiveThree (signed s t) ![s.toInt * 5, t.toInt * 3, 0] := by
  constructor
  · intro q
    fin_cases q
    · have hp : Holds fiveThree 0 [5] := ⟨[], rfl⟩
      exact oneLimb_isNum hp (by decide) hs
    · have hp : Holds fiveThree 1 [3] := ⟨[], rfl⟩
      exact oneLimb_isNum hp (by decide) ht
    · exact ⟨[], by simp [Limbs, ints, Digits], by simp [Canon], by simp, by simp, Or.inl ⟨rfl, rfl⟩⟩
  · intro q q' hne hq hq'
    fin_cases q <;> fin_cases q' <;> simp_all [signed]

theorem signed_fits {s t : Int16} (hs : s = 1 ∨ s = -1) (ht : t = 1 ∨ t = -1) :
    Fits (signed s t 0) ∧ Fits (signed s t 1) := by
  unfold Fits
  rcases hs with rfl | rfl <;> rcases ht with rfl | rfl <;> decide

/-- 5 + -3 and 5 - -3, with the result in place of the 5. -/
theorem madd_msub_iff_five : Store fiveThree (signed 1 (-1)) ![5, -3, 0] ∧
    Puts ![5, -3, 0] (0 : Fin 3) 2 (maddAt 5 (signed 1 (-1)) 0 1 0 fiveThree) ∧
    Puts ![5, -3, 0] (0 : Fin 3) 8 (msubAt 5 (signed 1 (-1)) 0 1 0 fiveThree) := by
  have hs : Store fiveThree (signed 1 (-1)) ![5, -3, 0] := signed_store (Or.inl rfl) (Or.inr rfl)
  have hf := signed_fits (s := 1) (t := -1) (Or.inl rfl) (Or.inr rfl)
  have h := (madd_msub_iff 0 fiveThree (signed 1 (-1)) ![5, -3, 0] hs 0 1 0 hf.1 hf.2).mpr
    (by decide)
  exact ⟨hs, h⟩

/-- -5 - -3 comes out as 2. -/
theorem msub_negative_wrong : Store fiveThree (signed (-1) (-1)) ![-5, -3, 0] ∧
    Fits (signed (-1) (-1) 0) ∧ Fits (signed (-1) (-1) 1) ∧
    Puts ![-5, -3, 0] (2 : Fin 3) 2 (msubAt 5 (signed (-1) (-1)) 0 1 2 fiveThree) ∧
    ¬Puts ![-5, -3, 0] (2 : Fin 3) (-5 - -3) (msubAt 5 (signed (-1) (-1)) 0 1 2 fiveThree) := by
  have hs : Store fiveThree (signed (-1) (-1)) ![-5, -3, 0] :=
    signed_store (Or.inr rfl) (Or.inr rfl)
  have hf := signed_fits (s := -1) (t := -1) (Or.inr rfl) (Or.inr rfl)
  have h : Puts ![-5, -3, 0] (2 : Fin 3) 2 (msubAt 5 (signed (-1) (-1)) 0 1 2 fiveThree) :=
    msubAt_puts hs hf.1 hf.2 2 0
  refine ⟨hs, hf.1, hf.2, h, fun hcon => ?_⟩
  have := h.unique hcon
  omega

end Venix.Libmp
