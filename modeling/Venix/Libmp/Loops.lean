/-
  The loops of `m_add` and `m_sub` over the limbs.

  `limbLoop_spec` is what all four of them do: the limbs written, with the last carry, have the
  value of the limbs that were formed, with the first one.
-/
import Venix.Libmp.Mint
import Venix.Lib.Limbs

namespace Venix.Libmp

open Venix.Lib

/-- The limbs of a number, as integers. -/
def ints (l : List Int16) : List Int := l.map Int16.toInt

/-- The value of a list of limbs. -/
def value (l : List Int16) : Int := valL 32768 (ints l)

/-- Every limb is in 0..32767. -/
def Limbs (l : List Int16) : Prop := Digits 32768 (ints l)

@[simp] theorem ints_length (l : List Int16) : (ints l).length = l.length := by
  simp [ints]

theorem ints_append (l m : List Int16) : ints (l ++ m) = ints l ++ ints m := by
  simp [ints]

theorem value_append (l m : List Int16) :
    value (l ++ m) = value l + 32768 ^ l.length * value m := by
  unfold value
  rw [ints_append, valL_append, ints_length]

theorem limbs_append {l m : List Int16} : Limbs (l ++ m) ↔ Limbs l ∧ Limbs m := by
  unfold Limbs
  rw [ints_append, digits_append]

theorem Limbs.nonneg {l : List Int16} (h : Limbs l) : 0 ≤ value l := valL_nonneg h

theorem Limbs.lt {l : List Int16} (h : Limbs l) : value l < 32768 ^ l.length := by
  have := valL_lt (by decide) h
  rwa [ints_length] at this

theorem Limbs.get {l : List Int16} (h : Limbs l) {i : Nat} (hi : i < l.length) :
    0 ≤ l[i].toInt ∧ l[i].toInt < 32768 :=
  h _ (List.mem_map_of_mem (List.getElem_mem hi))

/-! ## Blocks -/

/-- The block `p` starts with the limbs `l`. -/
def Holds (h : Heap) (p : Nat) (l : List Int16) : Prop :=
  ∃ rest, h.blocks p = some (l.map some ++ rest)

theorem Holds.read {h : Heap} {p : Nat} {l : List Int16} (hp : Holds h p l) {i : Nat}
    (hi : i < l.length) : h.read p i = some l[i] := by
  obtain ⟨rest, hp⟩ := hp
  unfold Heap.read
  rw [hp]
  simp [List.getElem?_append_left, hi]

theorem Holds.congr {h h' : Heap} {p : Nat} {l : List Int16} (hp : Holds h p l)
    (heq : h'.blocks p = h.blocks p) : Holds h' p l := by
  obtain ⟨rest, hp⟩ := hp
  exact ⟨rest, heq.trans hp⟩

/-- `h'` is `h` with other cells in the block `p`. -/
structure Sets (h h' : Heap) (p : Nat) (cells : List (Option Int16)) : Prop where
  next : h'.next = h.next
  blocks : h'.blocks = Function.update h.blocks p (some cells)

theorem Sets.trans {h h₁ h₂ : Heap} {p : Nat} {l l' : List (Option Int16)} (h1 : Sets h h₁ p l)
    (h2 : Sets h₁ h₂ p l') : Sets h h₂ p l' := by
  refine ⟨h2.next.trans h1.next, ?_⟩
  rw [h2.blocks, h1.blocks, Function.update_idem]

theorem Sets.self {h h' : Heap} {p : Nat} {l : List (Option Int16)} (hs : Sets h h' p l) :
    h'.blocks p = some l := by
  rw [hs.blocks, Function.update_self]

theorem Sets.other {h h' : Heap} {p q : Nat} {l : List (Option Int16)} (hs : Sets h h' p l)
    (hq : q ≠ p) : h'.blocks q = h.blocks q := by
  rw [hs.blocks, Function.update_of_ne hq]

theorem write_spec {h : Heap} {p : Nat} {pre post : List (Option Int16)} {c : Option Int16}
    (hp : h.blocks p = some (pre ++ c :: post)) (v : Int16) :
    ∃ h', h.write p pre.length v = some h' ∧ Sets h h' p (pre ++ some v :: post) := by
  unfold Heap.write
  split
  · rename_i hnone
    rw [hp] at hnone
    cases hnone
  · rename_i l hl
    have hl' : l = pre ++ c :: post := by
      rw [hp] at hl
      exact (Option.some.inj hl).symm
    rw [if_pos (by rw [hl']; simp)]
    refine ⟨_, rfl, rfl, ?_⟩
    subst hl'
    simp

/-! ## One limb -/

/-- What the sum or the difference of two limbs may be; `k` is the carry. -/
def InRange (k t : Int) : Prop :=
  (k = 1 ∧ 0 ≤ t ∧ t ≤ 65534) ∨ (k = -1 ∧ -32767 ≤ t ∧ t ≤ 32767)

theorem digit_step {k c t : Int} {v : Int16} (hr : InRange k t) (hc : c = 0 ∨ c = k)
    (hv : v.toInt = (c + t).bmod 65536) :
    if v &&& 0o100000 ≠ 0 then
      (0 ≤ (v &&& 0o77777).toInt ∧ (v &&& 0o77777).toInt < 32768) ∧
        c + t = (v &&& 0o77777).toInt + 32768 * k ∧ ¬(0 ≤ c + t ∧ c + t < 32768)
    else (0 ≤ v.toInt ∧ v.toInt < 32768) ∧ c + t = v.toInt := by
  unfold InRange at hr
  have hlow := int16_and_low v
  have hcases : v.toInt = c + t ∧ c + t < 32768 ∨ v.toInt = c + t - 65536 ∧ 32768 ≤ c + t := by
    rcases lt_or_ge (c + t) 32768 with hlt | hge
    · exact .inl ⟨hv.trans (Int.bmod_eq_of_le (by omega) (by omega)), hlt⟩
    · refine .inr ⟨?_, hge⟩
      rw [hv, show c + t = c + t - 65536 + (65536 : Nat) by omega, Int.add_bmod_right,
        Int.bmod_eq_of_le (by omega) (by omega)]
      omega
  split
  · rename_i hs
    rw [int16_and_sign] at hs
    clear hv
    rcases hcases with ⟨hv, hlt⟩ | ⟨hv, hge⟩ <;> omega
  · rename_i hs
    rw [int16_and_sign] at hs
    clear hv
    rcases hcases with ⟨hv, hlt⟩ | ⟨hv, hge⟩ <;> omega

/-! ## The loop -/

section Loop

variable (x : Int16 → Heap → Nat → Option Int16) (next : Int16 → Int16) (cval : Nat) (k : Int)

theorem limbLoop_spec (ts : List Int) (pre : List Int16) (rest : List (Option Int16))
    (carry : Int16) (h : Heap) (hcells : h.blocks cval = some (pre.map some ++ rest))
    (hlen : ts.length ≤ rest.length) (hcarry : carry.toInt = 0 ∨ carry.toInt = k)
    (hx : ∀ j (hj : j < ts.length) (h' : Heap) (c : Int16),
      (∀ p, p ≠ cval → h'.blocks p = h.blocks p) →
      ∃ v, x c h' (pre.length + j) = some v ∧ v.toInt = (c.toInt + ts[j]).bmod 65536)
    (hr : ∀ t ∈ ts, InRange k t)
    (hnext : ∀ (c : Int16), ∀ t ∈ ts, (c.toInt = 0 ∨ c.toInt = k) →
      ¬(0 ≤ c.toInt + t ∧ c.toInt + t < 32768) → (next c).toInt = k) :
    ∃ rs carry' h', limbLoop x next cval ts.length pre.length carry h = some (carry', h') ∧
      rs.length = ts.length ∧ Limbs rs ∧ (carry'.toInt = 0 ∨ carry'.toInt = k) ∧
      value rs + 32768 ^ ts.length * carry'.toInt = carry.toInt + valL 32768 ts ∧
      Sets h h' cval ((pre ++ rs).map some ++ rest.drop ts.length) := by
  induction ts generalizing pre rest carry h with
  | nil =>
    refine ⟨[], carry, h, rfl, rfl, by simp [Limbs, ints, Digits], hcarry, ?_, rfl, ?_⟩
    · simp [value, ints, valL]
    · rw [List.append_nil, List.length_nil, List.drop_zero, ← hcells, Function.update_eq_self]
  | cons t ts ih =>
    obtain ⟨c, rest, rfl⟩ : ∃ c r, rest = c :: r := by
      cases rest with
      | nil => simp at hlen
      | cons c r => exact ⟨c, r, rfl⟩
    obtain ⟨v, hv, hval⟩ := hx 0 (by simp) h carry (fun _ _ => rfl)
    rw [List.getElem_cons_zero] at hval
    rw [Nat.add_zero] at hv
    have hstep := digit_step (hr t (by simp)) hcarry hval
    -- the limb `r` is written and the loop goes on with the carry `c₁`
    have key : ∀ (r c₁ : Int16), (0 ≤ r.toInt ∧ r.toInt < 32768) →
        (c₁.toInt = 0 ∨ c₁.toInt = k) → carry.toInt + t = r.toInt + 32768 * c₁.toInt →
        (∀ h₁, h.write cval pre.length r = some h₁ →
          limbLoop x next cval (t :: ts).length pre.length carry h =
            limbLoop x next cval ts.length (pre.length + 1) c₁ h₁) →
        ∃ rs carry' h', limbLoop x next cval (t :: ts).length pre.length carry h =
            some (carry', h') ∧
          rs.length = (t :: ts).length ∧ Limbs rs ∧ (carry'.toInt = 0 ∨ carry'.toInt = k) ∧
          value rs + 32768 ^ (t :: ts).length * carry'.toInt =
            carry.toInt + valL 32768 (t :: ts) ∧
          Sets h h' cval ((pre ++ rs).map some ++ (c :: rest).drop (t :: ts).length) := by
      intro r c₁ hrange hc₁ heq hloop
      obtain ⟨h₁, hw, hset⟩ := write_spec hcells r
      rw [List.length_map] at hw
      have hcells₁ : h₁.blocks cval = some ((pre ++ [r]).map some ++ rest) := by
        rw [hset.self]
        simp
      obtain ⟨rs, carry', h', h1, h2, h3, h4, h5, h6⟩ := ih (pre ++ [r]) rest c₁ h₁ hcells₁
        (by simpa using hlen) hc₁
        (fun j hj h' c' hsame => by
          have := hx (j + 1) (by simpa using hj) h' c' fun p hp => by
            rw [hsame p hp, hset.other hp]
          rw [List.length_append, List.length_singleton, Nat.add_assoc, Nat.add_comm 1 j]
          simpa using this)
        (fun t' ht' => hr t' (by simp [ht'])) (fun c' t' ht' => hnext c' t' (by simp [ht']))
      rw [List.length_append, List.length_singleton] at h1
      refine ⟨r :: rs, carry', h', (hloop h₁ hw).trans h1, by simp [h2], ?_, h4, ?_, ?_⟩
      · unfold Limbs at h3 ⊢
        exact digits_cons.mpr ⟨hrange, h3⟩
      · have hvr : value (r :: rs) = r.toInt + 32768 * value rs := rfl
        rw [hvr, List.length_cons, pow_succ, valL]
        linear_combination 32768 * h5 - heq
      · have := hset.trans h6
        simpa using this
    by_cases hs : v &&& 0o100000 ≠ 0
    · rw [if_pos hs] at hstep
      obtain ⟨h1, h2, h3⟩ := hstep
      have hk := hnext carry t (by simp) hcarry h3
      refine key (v &&& 0o77777) (next carry) h1 (Or.inr hk) (by rw [hk]; exact h2) fun h₁ hw => ?_
      rw [List.length_cons, limbLoop, hv]
      simp [hs, hw]
    · rw [if_neg hs] at hstep
      obtain ⟨h1, h2⟩ := hstep
      refine key v 0 h1 (Or.inl rfl) (by simpa using h2) fun h₁ hw => ?_
      rw [List.length_cons, limbLoop, hv]
      rw [not_not] at hs
      simp [hs, hw]

end Loop

/-! ## The other loops -/

theorem complement_spec (l pre : List Int16) (rest : List (Option Int16)) {h : Heap} {p : Nat}
    (hcells : h.blocks p = some ((pre ++ l).map some ++ rest)) :
    ∃ h', complement p l.length pre.length h = some h' ∧
      Sets h h' p ((pre ++ l.map (· ^^^ 0o77777)).map some ++ rest) := by
  induction l generalizing pre h with
  | nil =>
    refine ⟨h, rfl, rfl, ?_⟩
    rw [List.map_nil, ← hcells, Function.update_eq_self]
  | cons v l ih =>
    have hread : h.read p pre.length = some v := by
      have hp : Holds h p (pre ++ v :: l) := ⟨rest, hcells⟩
      have := hp.read (i := pre.length) (by simp)
      simpa using this
    have hcells' : h.blocks p = some (pre.map some ++ some v :: (l.map some ++ rest)) := by
      rw [hcells]
      simp
    obtain ⟨h₁, hw, hset⟩ := write_spec hcells' (v ^^^ 0o77777)
    rw [List.length_map] at hw
    obtain ⟨h', h1, h2⟩ := ih (pre ++ [v ^^^ 0o77777]) (h := h₁) (by rw [hset.self]; simp)
    rw [List.length_append, List.length_singleton] at h1
    refine ⟨h', ?_, ?_⟩
    · rw [List.length_cons, complement, hread]
      simp [hw, h1]
    · have := hset.trans h2
      simpa using this

theorem value_complement {l : List Int16} (hl : Limbs l) :
    Limbs (l.map (· ^^^ 0o77777)) ∧
      value (l.map (· ^^^ 0o77777)) = 32768 ^ l.length - 1 - value l := by
  have hints : ints (l.map (· ^^^ 0o77777)) = (ints l).map fun x => 32768 - 1 - x := by
    unfold ints
    rw [List.map_map, List.map_map]
    refine List.map_congr_left fun v hv => ?_
    have := hl v.toInt (List.mem_map_of_mem hv)
    simp only [Function.comp_apply]
    rw [int16_xor_low this.1]
    omega
  constructor
  · unfold Limbs
    rw [hints]
    intro y hy
    obtain ⟨x, hx, rfl⟩ := List.mem_map.mp hy
    have := hl x hx
    omega
  · unfold value
    rw [hints, valL_complement, ints_length]

/-- The highest limb is not 0. -/
def Canon (l : List Int16) : Prop := ∀ x ∈ l.getLast?, 0 < x.toInt

theorem topLimb_spec (c : Mint) (borrow : Int16) (h : Heap) (l : List Int16) (hl : Limbs l)
    (hc : Holds h c.val l) :
    (value l = 0 ∧
      topLimb c borrow l.length h = (h.free c.val).bind fun h' => some (c, h')) ∨
    ∃ l', l' ≠ [] ∧ Canon l' ∧ Limbs l' ∧ value l' = value l ∧ l'.length ≤ l.length ∧
      Holds h c.val l' ∧
      topLimb c borrow l.length h =
        some (⟨if borrow = 0 then Int16.ofNat (l'.length - 1) + 1
          else -Int16.ofNat (l'.length - 1) - 1, c.val⟩, h) := by
  induction l using List.reverseRecOn with
  | nil => exact Or.inl ⟨rfl, rfl⟩
  | append_singleton l x ih =>
    obtain ⟨hl₀, hx⟩ := limbs_append.mp hl
    have hread : h.read c.val l.length = some x := by
      have := hc.read (i := l.length) (by simp)
      simpa using this
    have hx0 : 0 ≤ x.toInt := (hx x.toInt (by simp [ints])).1
    have hloop : topLimb c borrow (l ++ [x]).length h =
        if 0 < x then
          some (⟨if borrow = 0 then Int16.ofNat l.length + 1 else -Int16.ofNat l.length - 1,
            c.val⟩, h)
        else topLimb c borrow l.length h := by
      rw [List.length_append, List.length_singleton, topLimb, hread]
      rfl
    by_cases hpos : 0 < x
    · refine Or.inr ⟨l ++ [x], by simp, ?_, hl, rfl, le_refl _, hc, ?_⟩
      · intro y hy
        rw [List.getLast?_append] at hy
        cases hy
        exact Int16.lt_iff_toInt_lt.mp hpos
      · rw [hloop, if_pos hpos]
        simp
    · have hzero : x.toInt = 0 := by
        rw [Int16.lt_iff_toInt_lt] at hpos
        have h0 : (0 : Int16).toInt = 0 := rfl
        omega
      have hval : value (l ++ [x]) = value l := by
        rw [value_append]
        simp [value, ints, valL, hzero]
      have hc₀ : Holds h c.val l := by
        obtain ⟨rest, hrest⟩ := hc
        exact ⟨some x :: rest, by rw [hrest]; simp⟩
      rw [hloop, if_neg hpos, hval]
      rcases ih hl₀ hc₀ with h1 | ⟨l', h1, h2, h3, h4, h5, h6, h7⟩
      · exact Or.inl h1
      · exact Or.inr ⟨l', h1, h2, h3, h4, by simp; omega, h6, h7⟩

end Venix.Libmp
