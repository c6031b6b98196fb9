/-
  `qsort` sorts.

  The memory that may be touched is the array: `rowsMem a es n V` has the bytes `V k` of the
  element `k` at `a + k * es`, and nothing else. An exchange of elements is a rearrangement of
  the rows (`qsexc_rows`, `qstexc_rows`), so that a turn of the loop is one of the steps of
  `Parted` (`turn_spec`), and a call of `qs1` sorts its segment (`qs1_spec`).
-/
import Venix.Lib.ThreeWay
import Venix.Libc.Qsort

namespace Venix.Libc

open Venix.Lib

/-! ## The array in memory -/

/-- The memory of an array: the rows `V` from `a` on. -/
def rowsMem (a es n : Nat) (V : Nat → Nat → UInt8) : Nat → Option UInt8 :=
  fun x => if a ≤ x ∧ x < a + n * es then some (V ((x - a) / es) ((x - a) % es)) else none

/-- The bytes of the element `k`. -/
def row (es : Nat) (V : Nat → Nat → UInt8) (k : Nat) : List UInt8 := (List.range es).map (V k)

/-- The rows with another byte at `t` of the row `k`. -/
def setCell (V : Nat → Nat → UInt8) (k t : Nat) (c : UInt8) : Nat → Nat → UInt8 :=
  fun k' t' => if t' = t then if k' = k then c else V k' t' else V k' t'

section Rows

variable {a es n : Nat} {V : Nat → Nat → UInt8} (hes : 0 < es) (hend : a + n * es ≤ 65536)

theorem row_end_le (es : Nat) {k n : Nat} (hk : k < n) : k * es + es ≤ n * es := by
  have := Nat.mul_le_mul_right es (show k + 1 ≤ n from hk)
  rwa [Nat.add_mul, Nat.one_mul] at this

include hes

theorem cell_index {k t : Nat} (ht : t < es) :
    (a + k * es + t - a) / es = k ∧ (a + k * es + t - a) % es = t := by
  have h1 : a + k * es + t - a = t + es * k := by
    rw [Nat.mul_comm es k]
    omega
  rw [h1, Nat.add_mul_div_left _ _ hes, Nat.add_mul_mod_self_left, Nat.div_eq_of_lt ht,
    Nat.mod_eq_of_lt ht]
  omega

theorem rowsMem_cell {k t : Nat} (hk : k < n) (ht : t < es) :
    rowsMem a es n V (a + k * es + t) = some (V k t) := by
  have hle := row_end_le es hk
  obtain ⟨h1, h2⟩ := cell_index (a := a) (k := k) hes ht
  unfold rowsMem
  rw [if_pos (by omega), h1, h2]

theorem rowsMem_congr {V' : Nat → Nat → UInt8} (h : ∀ k < n, ∀ t < es, V k t = V' k t) :
    rowsMem a es n V = rowsMem a es n V' := by
  funext x
  unfold rowsMem
  by_cases hx : a ≤ x ∧ x < a + n * es
  · rw [if_pos hx, if_pos hx, h _ ?_ _ (Nat.mod_lt _ hes)]
    rw [Nat.div_lt_iff_lt_mul hes]
    omega
  · rw [if_neg hx, if_neg hx]

theorem store_rows {k t : Nat} (hk : k < n) (ht : t < es) (c : UInt8) :
    store (rowsMem a es n V) (a + k * es + t) c =
      some (rowsMem a es n (setCell V k t c)) := by
  have hle := row_end_le es hk
  unfold store
  rw [rowsMem_cell hes hk ht]
  dsimp only
  congr 1
  funext x
  by_cases hx : x = a + k * es + t
  · rw [hx, Function.update_self, rowsMem_cell hes hk ht]
    unfold setCell
    rw [if_pos rfl, if_pos rfl]
  rw [Function.update_of_ne hx]
  unfold rowsMem
  by_cases hin : a ≤ x ∧ x < a + n * es
  · rw [if_pos hin, if_pos hin]
    congr 1
    unfold setCell
    by_cases hcol : (x - a) % es = t
    · have hrow : (x - a) / es ≠ k := by
        intro hc
        have hdiv := Nat.div_add_mod (x - a) es
        rw [hc, hcol, Nat.mul_comm] at hdiv
        omega
      rw [if_pos hcol, if_neg hrow]
    · rw [if_neg hcol]
  · rw [if_neg hin, if_neg hin]

end Rows

/-! ## Exchanges -/

/-- The rows with column `t` rearranged by `σ`. -/
def column (σ : Equiv.Perm Nat) (t : Nat) (V : Nat → Nat → UInt8) : Nat → Nat → UInt8 :=
  fun k c => if c = t then V (σ k) c else V k c

/-- The rows with the columns from `t` to `es` rearranged by `σ`. -/
def columns (σ : Equiv.Perm Nat) (t es : Nat) (V : Nat → Nat → UInt8) : Nat → Nat → UInt8 :=
  fun k c => if t ≤ c ∧ c < es then V (σ k) c else V k c

theorem columns_end (σ : Equiv.Perm Nat) (es : Nat) (V : Nat → Nat → UInt8) :
    columns σ es es V = V := by
  funext k c
  unfold columns
  rw [if_neg (by omega)]

theorem columns_step (σ : Equiv.Perm Nat) {t es : Nat} (ht : t < es) (V : Nat → Nat → UInt8) :
    columns σ (t + 1) es (column σ t V) = columns σ t es V := by
  funext k c
  unfold columns column
  by_cases hc : c = t
  · rw [if_neg (by omega), if_pos hc, if_pos (by omega)]
  · rw [if_neg hc, if_neg hc]
    by_cases hct : t + 1 ≤ c ∧ c < es
    · rw [if_pos hct, if_pos (by omega)]
    · rw [if_neg hct, if_neg (by omega)]

/-- The next byte. -/
theorem padd_one {x : Nat} (hx : x + 1 < 65536) : padd x 1 = x + 1 :=
  Nat.mod_eq_of_lt hx

section Exchange

variable {a es n i j k : Nat} (hes : 0 < es) (hend : a + n * es ≤ 65536) (hi : i < n) (hj : j < n)

include hes hend hi hj

theorem excLoop_rows (m : Nat) : ∀ {V : Nat → Nat → UInt8} {t ri rj : Nat}, t + m = es →
    (0 < m → ri = a + i * es + t ∧ rj = a + j * es + t) →
    excLoop m (rowsMem a es n V) ri rj = some (rowsMem a es n (columns (Equiv.swap i j) t es V)) := by
  have hile := row_end_le es hi
  have hjle := row_end_le es hj
  induction m with
  | zero =>
    intro V t ri rj ht _
    obtain rfl : t = es := ht
    rw [excLoop, columns_end]
  | succ m ih =>
    intro V t ri rj ht hr
    obtain ⟨rfl, rfl⟩ := hr (by omega)
    have htes : t < es := by omega
    have hcol : setCell (setCell V i t (V j t)) j t (V i t) = column (Equiv.swap i j) t V := by
      funext k c
      unfold setCell column
      rw [Equiv.swap_apply_def]
      by_cases hct : c = t
      · rw [hct, if_pos rfl, if_pos rfl, if_pos rfl]
        by_cases hki : k = i
        · by_cases hij : i = j
          · rw [hki, if_pos hij, if_pos rfl, hij]
          · rw [hki, if_neg hij, if_pos rfl, if_pos rfl]
        · rw [if_neg hki, if_neg hki]
          split <;> rfl
      · rw [if_neg hct, if_neg hct, if_neg hct]
    rw [excLoop, rowsMem_cell hes hi htes, rowsMem_cell hes hj htes]
    simp only [Option.bind_eq_bind, Option.bind_some]
    rw [store_rows hes hi htes, Option.bind_some, store_rows hes hj htes, Option.bind_some, hcol,
      ← columns_step _ htes]
    exact ih (by omega) fun hm => ⟨padd_one (by omega), padd_one (by omega)⟩

theorem qsexc_rows (V : Nat → Nat → UInt8) :
    qsexc es (rowsMem a es n V) (a + i * es) (a + j * es) =
      some (rowsMem a es n fun k => V (Equiv.swap i j k)) := by
  unfold qsexc doTurns
  rw [if_neg (by omega), excLoop_rows hes hend hi hj es (t := 0) (by omega) (by omega)]
  congr 1
  apply rowsMem_congr hes
  intro k _ t ht
  unfold columns
  rw [if_pos (by omega)]

/-- The three pointers may be two: `j` and `k` may be the same. -/
theorem texcLoop_rows (hk : k < n) (hij : i ≠ j) (hik : i ≠ k) (m : Nat) :
    ∀ {V : Nat → Nat → UInt8} {t ri rj rk : Nat}, t + m = es →
    (0 < m → ri = a + i * es + t ∧ rj = a + j * es + t ∧ rk = a + k * es + t) →
    texcLoop m (rowsMem a es n V) ri rj rk =
      some (rowsMem a es n (columns (cycle3 i j k) t es V)) := by
  have hile := row_end_le es hi
  have hjle := row_end_le es hj
  have hkle := row_end_le es hk
  induction m with
  | zero =>
    intro V t ri rj rk ht _
    obtain rfl : t = es := ht
    rw [texcLoop, columns_end]
  | succ m ih =>
    intro V t ri rj rk ht hr
    obtain ⟨rfl, rfl, rfl⟩ := hr (by omega)
    have htes : t < es := by omega
    have hsame : setCell V i t (V k t) j t = V j t := by
      unfold setCell
      rw [if_pos rfl, if_neg hij.symm]
    have hcol : setCell (setCell (setCell V i t (V k t)) k t (V j t)) j t (V i t) =
        column (cycle3 i j k) t V := by
      funext x c
      unfold setCell column
      rw [cycle3_apply hij hik]
      by_cases hct : c = t
      · rw [hct]
        simp only [if_true]
        by_cases hxi : x = i
        · rw [hxi, if_neg hij, if_neg hik, if_pos rfl, if_pos rfl]
        by_cases hxj : x = j
        · rw [if_pos hxj, if_neg hxi, if_pos hxj]
        · rw [if_neg hxj, if_neg hxi, if_neg hxi, if_neg hxj]
          split <;> rfl
      · simp only [if_neg hct]
    rw [texcLoop, rowsMem_cell hes hi htes, rowsMem_cell hes hk htes]
    simp only [Option.bind_eq_bind, Option.bind_some]
    rw [store_rows hes hi htes, Option.bind_some, rowsMem_cell hes hj htes, Option.bind_some, hsame,
      store_rows hes hk htes, Option.bind_some, store_rows hes hj htes, Option.bind_some, hcol,
      ← columns_step _ htes]
    exact ih (by omega) fun hm => ⟨padd_one (by omega), padd_one (by omega), padd_one (by omega)⟩

theorem qstexc_rows (hk : k < n) (hij : i ≠ j) (hik : i ≠ k) (V : Nat → Nat → UInt8) :
    qstexc es (rowsMem a es n V) (a + i * es) (a + j * es) (a + k * es) =
      some (rowsMem a es n fun x => V (cycle3 i j k x)) := by
  unfold qstexc doTurns
  rw [if_neg (by omega),
    texcLoop_rows hes hend hi hj hk hij hik es (t := 0) (by omega) (by omega)]
  congr 1
  apply rowsMem_congr hes
  intro k _ t ht
  unfold columns
  rw [if_pos (by omega)]

end Exchange

/-! ## Elements -/

theorem mapM_eq_some {α β : Type} {f : α → Option β} {g : α → β} {l : List α}
    (h : ∀ x ∈ l, f x = some (g x)) : l.mapM f = some (l.map g) := by
  induction l with
  | nil => rfl
  | cons x l ih =>
    rw [List.mapM_cons, h x List.mem_cons_self, ih fun y hy => h y (List.mem_cons_of_mem x hy)]
    rfl

section Elements

variable {a es n : Nat} (hes : 0 < es) (hend : a + n * es ≤ 65536)

include hes hend

theorem element_row {k : Nat} (hk : k < n) (V : Nat → Nat → UInt8) :
    element es (rowsMem a es n V) (a + k * es) = some (row es V k) := by
  have hle := row_end_le es hk
  unfold element row
  apply mapM_eq_some
  intro t ht
  have := List.mem_range.mp ht
  have hp : padd (a + k * es) t = a + k * es + t := by
    unfold padd
    omega
  rw [hp, rowsMem_cell hes hk this]

theorem qscmp_rows (cmp : List UInt8 → List UInt8 → Int) {x y : Nat} (hx : x < n) (hy : y < n)
    (V : Nat → Nat → UInt8) (calls : List (Nat × Nat)) :
    qscmp cmp es ⟨rowsMem a es n V, calls⟩ (a + x * es) (a + y * es) =
      some (cmp (row es V x) (row es V y),
        ⟨rowsMem a es n V, (a + x * es, a + y * es) :: calls⟩) := by
  unfold qscmp
  rw [element_row hes hend hx, element_row hes hend hy]
  rfl

theorem padd_row {k : Nat} (hk : k + 1 < n) : padd (a + k * es) es = a + (k + 1) * es := by
  have := row_end_le es hk
  unfold padd
  rw [Nat.add_mul, Nat.one_mul] at this ⊢
  omega

theorem psub_row {k : Nat} (hk : k < n) (h0 : 0 < k) :
    psub (a + k * es) es = a + (k - 1) * es := by
  have := row_end_le es hk
  obtain ⟨k, rfl⟩ : ∃ m, k = m + 1 := ⟨k - 1, by omega⟩
  unfold psub
  rw [Nat.add_sub_cancel]
  rw [Nat.add_mul, Nat.one_mul] at this ⊢
  omega

end Elements

theorem addr_lt_iff {a es x y : Nat} (hes : 0 < es) : a + x * es < a + y * es ↔ x < y := by
  rw [Nat.add_lt_add_iff_left, Nat.mul_lt_mul_right hes]

theorem addr_inj {a es x y : Nat} (hes : 0 < es) : a + x * es = a + y * es ↔ x = y := by
  rw [Nat.add_left_cancel_iff, Nat.mul_left_inj (by omega)]

/-! ## A turn of the loop -/

/-- Both arguments of a call are addresses of elements. -/
def Addressed (a es n : Nat) (calls : List (Nat × Nat)) : Prop :=
  ∀ c ∈ calls, ∃ x < n, ∃ y < n, c = (a + x * es, a + y * es)

theorem Addressed.cons {a es n x y : Nat} {calls : List (Nat × Nat)} (h : Addressed a es n calls)
    (hx : x < n) (hy : y < n) : Addressed a es n ((a + x * es, a + y * es) :: calls) := by
  intro c hc
  rcases List.mem_cons.mp hc with rfl | hc
  · exact ⟨x, hx, y, hy, rfl⟩
  · exact h c hc

/-- The key of the element `k`: how many elements of `E` come before it. -/
def key (cmp : List UInt8 → List UInt8 → Int) (E : Finset (List UInt8)) (es : Nat)
    (V : Nat → Nat → UInt8) (k : Nat) : Nat := rank cmp E (row es V k)

/-- The variables of the loop, with indices for the pointers and the rows of `V` in the order
    `σ`. -/
def partOf (a es n : Nat) (V : Nat → Nat → UInt8) (σ : Equiv.Perm Nat) (calls : List (Nat × Nat))
    (i j lp hp : Nat) (top : Bool) : Part :=
  ⟨⟨rowsMem a es n fun k => V (σ k), calls⟩, a + i * es, a + j * es, a + lp * es, a + hp * es, top⟩

/-- What is between the sides, and whether the turn begins at the head. -/
def unseen (p : Part) : Nat := 2 * ((p.lp - p.i) + (p.j - p.hp)) + if p.top then 1 else 0

theorem unseen_partOf {a es n i j lp hp : Nat} {V : Nat → Nat → UInt8} {σ : Equiv.Perm Nat}
    {calls : List (Nat × Nat)} {top : Bool} :
    unseen (partOf a es n V σ calls i j lp hp top) =
      2 * (((lp - i) + (j - hp)) * es) + if top then 1 else 0 := by
  unfold unseen partOf
  dsimp only
  rw [Nat.add_sub_add_left, Nat.add_sub_add_left, Nat.add_mul, Nat.sub_mul, Nat.sub_mul]

theorem unseen_lt {a es n i j lp hp i' j' lp' hp' : Nat} {V : Nat → Nat → UInt8}
    {σ σ' : Equiv.Perm Nat} {calls calls' : List (Nat × Nat)} {top top' : Bool} (hes : 0 < es)
    (hlt : (lp' - i') + (j' - hp') < (lp - i) + (j - hp)) :
    unseen (partOf a es n V σ' calls' i' j' lp' hp' top') <
      unseen (partOf a es n V σ calls i j lp hp top) := by
  have := row_end_le es hlt
  rw [unseen_partOf, unseen_partOf]
  cases top <;> cases top' <;> simp <;> omega

section Turn

variable (cmp : List UInt8 → List UInt8 → Int) (E : Finset (List UInt8)) (a es n : Nat)
  (V : Nat → Nat → UInt8) (lo hi w : Nat)

/-- The state at the start of a turn. Off the head, the element at `i` is a larger one. -/
structure TurnInv (σ : Equiv.Perm Nat) (calls : List (Nat × Nat)) (i j lp hp : Nat) (top : Bool) :
    Prop where
  within : MovesWithin σ lo hi
  parted : Parted (key cmp E es V ∘ σ) w lo hi i lp hp j
  pending : top = false → i < lp → w < key cmp E es V (σ i)
  addressed : Addressed a es n calls

/-- The turn leads to a state of the invariant with less left. -/
def Steps (p : Part) : Prop :=
  ∃ σ calls i j lp hp top, TurnInv cmp E a es n V lo hi w σ calls i j lp hp top ∧
    turn cmp es p = some (.more (partOf a es n V σ calls i j lp hp top)) ∧
    unseen (partOf a es n V σ calls i j lp hp top) < unseen p

variable {cmp E a es n V lo hi w} {σ : Equiv.Perm Nat} {calls : List (Nat × Nat)}
  {i j lp hp : Nat} {top : Bool} (hes : 0 < es) (hend : a + n * es ≤ 65536)
  (hcmp : Compares cmp (E : Set (List UInt8))) (hE : ∀ k < n, row es V k ∈ E) (hn : hi ≤ n)

include hcmp hE hn in
theorem TurnInv.sign (h : TurnInv cmp E a es n V lo hi w σ calls i j lp hp top) {x y : Nat}
    (hx : x < n) (hy : y < n) :
    (cmp (row es V (σ x)) (row es V (σ y)) < 0 ↔
        key cmp E es V (σ x) < key cmp E es V (σ y)) ∧
      (0 < cmp (row es V (σ x)) (row es V (σ y)) ↔
        key cmp E es V (σ y) < key cmp E es V (σ x)) := by
  have hσ := h.within.mono (Nat.zero_le lo) hn
  exact hcmp.rank_iff (hE _ (hσ.maps ⟨Nat.zero_le x, hx⟩).2) (hE _ (hσ.maps ⟨Nat.zero_le y, hy⟩).2)

include hes hend hcmp hE hn

/-- A turn from the head of the loop. -/
theorem TurnInv.head (h : TurnInv cmp E a es n V lo hi w σ calls i j lp hp true) (hi' : i < lp) :
    Steps cmp E a es n V lo hi w (partOf a es n V σ calls i j lp hp true) := by
  have hb := h.parted.bounds
  obtain ⟨hlt, hgt⟩ := h.sign hcmp hE hn (x := i) (y := lp) (by omega) (by omega)
  have hw : key cmp E es V (σ lp) = w := h.parted.mid lp (by omega) (by omega)
  rw [hw] at hlt hgt
  have hcalls := h.addressed.cons (x := i) (y := lp) (by omega) (by omega)
  have hpos : a + i * es < a + lp * es := (addr_lt_iff hes).mpr hi'
  have hcall := qscmp_rows hes hend cmp (x := i) (y := lp) (by omega) (by omega)
    (fun k => V (σ k)) calls
  obtain ⟨c, hc⟩ : ∃ c, c = cmp (row es V (σ i)) (row es V (σ lp)) := ⟨_, rfl⟩
  rw [show cmp (row es (fun k => V (σ k)) i) (row es (fun k => V (σ k)) lp) = c from hc.symm]
    at hcall
  rw [← hc] at hlt hgt
  have hturn : turn cmp es (partOf a es n V σ calls i j lp hp true) =
      headTurn es (partOf a es n V σ calls i j lp hp true) c
        ⟨rowsMem a es n fun k => V (σ k), (a + i * es, a + lp * es) :: calls⟩ := by
    unfold turn partOf
    dsimp only
    rw [if_pos ⟨rfl, hpos⟩, hcall]
    rfl
  rcases lt_trichotomy c 0 with hneg | h0 | hpos
  · have hkey : key cmp E es V (σ i) < w := hlt.mp hneg
    refine ⟨σ, _, i + 1, j, lp, hp, true, ⟨h.within, h.parted.low_step hi' hkey, by simp, hcalls⟩,
      ?_, unseen_lt hes (by omega)⟩
    rw [hturn]
    unfold headTurn partOf
    rw [if_neg (by omega), if_pos hneg, padd_row hes hend (by omega)]
  · have hkey : key cmp E es V (σ i) = w := by omega
    refine ⟨σ * Equiv.swap i (lp - 1), _, i, j, lp - 1, hp, true,
      ⟨h.within.mul (.swap (by omega) (by omega)), h.parted.eq_low hi' hkey, by simp, hcalls⟩, ?_,
      unseen_lt hes (by omega)⟩
    rw [hturn]
    unfold headTurn partOf
    dsimp only
    rw [if_pos h0, psub_row hes hend (by omega) (by omega),
      qsexc_rows hes hend (by omega) (by omega)]
    rfl
  · have hkey : w < key cmp E es V (σ i) := hgt.mp hpos
    refine ⟨σ, _, i, j, lp, hp, false, ⟨h.within, h.parted, fun _ _ => hkey, hcalls⟩, ?_, ?_⟩
    · rw [hturn]
      unfold headTurn partOf
      rw [if_neg (by omega), if_neg (by omega)]
    · rw [unseen_partOf, unseen_partOf]
      simp

/-- A turn from the label `loop`. -/
theorem TurnInv.loop (h : TurnInv cmp E a es n V lo hi w σ calls i j lp hp top)
    (htop : ¬ (top = true ∧ i < lp)) (hj : hp < j) :
    Steps cmp E a es n V lo hi w (partOf a es n V σ calls i j lp hp top) := by
  have hb := h.parted.bounds
  obtain ⟨hlt, hgt⟩ := h.sign hcmp hE hn (x := hp) (y := j) (by omega) (by omega)
  have hw : key cmp E es V (σ hp) = w := h.parted.mid hp (by omega) (by omega)
  rw [hw] at hlt hgt
  have hcalls := h.addressed.cons (x := hp) (y := j) (by omega) (by omega)
  have hno : ¬ (top = true ∧ a + i * es < a + lp * es) := by
    rwa [addr_lt_iff hes]
  have hpos : a + j * es > a + hp * es := (addr_lt_iff hes).mpr hj
  have hcall := qscmp_rows hes hend cmp (x := hp) (y := j) (by omega) (by omega)
    (fun k => V (σ k)) calls
  obtain ⟨c, hc⟩ : ∃ c, c = cmp (row es V (σ hp)) (row es V (σ j)) := ⟨_, rfl⟩
  rw [show cmp (row es (fun k => V (σ k)) hp) (row es (fun k => V (σ k)) j) = c from hc.symm]
    at hcall
  rw [← hc] at hlt hgt
  have hturn : turn cmp es (partOf a es n V σ calls i j lp hp top) =
      loopTurn es (partOf a es n V σ calls i j lp hp top) c
        ⟨rowsMem a es n fun k => V (σ k), (a + hp * es, a + j * es) :: calls⟩ := by
    unfold turn partOf
    dsimp only
    rw [if_neg hno, if_pos hpos, hcall]
    rfl
  -- off the head, the element at `i` is known to be larger
  have hpend : i < lp → w < key cmp E es V (σ i) := by
    intro hi'
    apply h.pending _ hi'
    cases top with
    | false => rfl
    | true => exact absurd ⟨rfl, hi'⟩ htop
  rcases lt_trichotomy c 0 with hneg | h0 | hpos
  · have hkey : w < key cmp E es V (σ j) := hlt.mp hneg
    refine ⟨σ, _, i, j - 1, lp, hp, false,
      ⟨h.within, h.parted.high_step hj hkey, fun _ => hpend, hcalls⟩, ?_, unseen_lt hes (by omega)⟩
    rw [hturn]
    unfold loopTurn partOf
    rw [if_neg (by omega), if_neg (by omega), psub_row hes hend (by omega) (by omega)]
  · have hkey : key cmp E es V (σ j) = w := by clear * - hgt hlt h0; omega
    refine ⟨σ * Equiv.swap (hp + 1) j, _, i, j, lp, hp + 1, false,
      ⟨h.within.mul (.swap (by omega) (by omega)), h.parted.eq_high hj hkey, fun _ hi' => ?_, hcalls⟩,
      ?_, unseen_lt hes (by omega)⟩
    · rw [Equiv.Perm.mul_apply, Equiv.swap_apply_of_ne_of_ne (by omega) (by omega)]
      exact hpend hi'
    · rw [hturn]
      unfold loopTurn partOf
      dsimp only
      rw [if_pos h0, padd_row hes hend (by omega), qsexc_rows hes hend (by omega) (by omega)]
      rfl
  · have hkey : key cmp E es V (σ j) < w := hgt.mp hpos
    by_cases hil : i = lp
    · subst hil
      refine ⟨σ * cycle3 i (hp + 1) j, _, i + 1, j, i + 1, hp + 1, false,
        ⟨h.within.mul (.cycle3 (by omega) (by omega) (by omega)), h.parted.shift_up hj hkey,
          fun _ hi' => absurd hi' (by omega), hcalls⟩, ?_, unseen_lt hes (by omega)⟩
      rw [hturn]
      unfold loopTurn partOf
      dsimp only
      rw [if_neg (by omega), if_pos hpos, if_pos rfl, padd_row hes hend (by omega),
        qstexc_rows hes hend (by omega) (by omega) (by omega) (by omega) (by omega)]
      simp only [Option.bind_eq_bind, Option.bind_some]
      rw [padd_row hes hend (by omega)]
      rfl
    · refine ⟨σ * Equiv.swap i j, _, i + 1, j - 1, lp, hp, true,
        ⟨h.within.mul (.swap (by omega) (by omega)),
          h.parted.cross (by omega) hj (hpend (by omega)) hkey, by simp, hcalls⟩, ?_,
        unseen_lt hes (by omega)⟩
      rw [hturn]
      unfold loopTurn partOf
      dsimp only
      rw [if_neg (by omega), if_pos hpos, if_neg (fun hc => hil ((addr_inj hes).mp hc)),
        qsexc_rows hes hend (by omega) (by omega), psub_row hes hend (by omega) (by omega),
        padd_row hes hend (by omega)]
      rfl

omit hcmp hE in
/-- A turn that finds nothing above the block. -/
theorem TurnInv.last (h : TurnInv cmp E a es n V lo hi w σ calls i j lp hp top)
    (htop : ¬ (top = true ∧ i < lp)) (hj : ¬ hp < j) (hil : i ≠ lp) :
    Steps cmp E a es n V lo hi w (partOf a es n V σ calls i j lp hp top) := by
  have hb := h.parted.bounds
  obtain rfl : hp = j := by omega
  have hkey : w < key cmp E es V (σ i) := by
    apply h.pending _ (by omega)
    cases top with
    | false => rfl
    | true => exact absurd ⟨rfl, by omega⟩ htop
  have hno : ¬ (top = true ∧ a + i * es < a + lp * es) := by
    rwa [addr_lt_iff hes]
  refine ⟨σ * cycle3 hp (lp - 1) i, _, i, hp - 1, lp - 1, hp - 1, true,
    ⟨h.within.mul (.cycle3 (by omega) (by omega) (by omega)),
      h.parted.shift_down (by omega) hkey, by simp, h.addressed⟩, ?_, unseen_lt hes (by omega)⟩
  unfold turn partOf
  dsimp only
  rw [if_neg hno, if_neg (by omega), if_neg (fun hc => hil ((addr_inj hes).mp hc)),
    psub_row hes hend (by omega) (by omega),
    qstexc_rows hes hend (by omega) (by omega) (by omega) (by omega) (by omega)]
  simp only [Option.bind_eq_bind, Option.bind_some]
  rw [psub_row hes hend (by omega) (by omega)]
  rfl

/-- A turn goes on, or nothing is left between the sides. -/
theorem TurnInv.turn (h : TurnInv cmp E a es n V lo hi w σ calls i j lp hp top) :
    Steps cmp E a es n V lo hi w (partOf a es n V σ calls i j lp hp top) ∨
      (i = lp ∧ j = hp ∧ Libc.turn cmp es (partOf a es n V σ calls i j lp hp top) =
        some (.done (partOf a es n V σ calls i j lp hp top))) := by
  have hb := h.parted.bounds
  by_cases htop : top = true ∧ i < lp
  · obtain ⟨rfl, hi'⟩ := htop
    exact Or.inl (h.head hes hend hcmp hE hn hi')
  by_cases hj : hp < j
  · exact Or.inl (h.loop hes hend hcmp hE hn htop hj)
  by_cases hil : i = lp
  · have hno : ¬ (top = true ∧ a + i * es < a + lp * es) := by
      rwa [addr_lt_iff hes]
    obtain rfl : hp = j := by omega
    refine Or.inr ⟨hil, rfl, ?_⟩
    unfold Libc.turn partOf
    dsimp only
    rw [if_neg hno, if_neg (by omega), if_pos (by rw [hil])]
  · exact Or.inl (h.last hes hend hn htop hj hil)

/-- The whole loop. -/
theorem TurnInv.run (h : TurnInv cmp E a es n V lo hi w σ calls i j lp hp top) {k : Nat}
    (hk : unseen (partOf a es n V σ calls i j lp hp top) < k) :
    ∃ σ' calls' lp' hp' top', TurnInv cmp E a es n V lo hi w σ' calls' lp' hp' lp' hp' top' ∧
      Lib.loop (Libc.turn cmp es) k (partOf a es n V σ calls i j lp hp top) =
        some (partOf a es n V σ' calls' lp' hp' lp' hp' top') := by
  have hturns : ∀ p, (∃ σ calls i j lp hp top,
      TurnInv cmp E a es n V lo hi w σ calls i j lp hp top ∧
        p = partOf a es n V σ calls i j lp hp top) →
      (∃ p', Libc.turn cmp es p = some (.more p') ∧ (∃ σ calls i j lp hp top,
        TurnInv cmp E a es n V lo hi w σ calls i j lp hp top ∧
          p' = partOf a es n V σ calls i j lp hp top) ∧ unseen p' < unseen p) ∨
      ∃ r, Libc.turn cmp es p = some (.done r) ∧ ∃ σ' calls' lp' hp' top',
        TurnInv cmp E a es n V lo hi w σ' calls' lp' hp' lp' hp' top' ∧
          r = partOf a es n V σ' calls' lp' hp' lp' hp' top' := by
    rintro p ⟨σ, calls, i, j, lp, hp, top, h, rfl⟩
    rcases h.turn hes hend hcmp hE hn with hstep | ⟨rfl, rfl, hdone⟩
    · obtain ⟨σ', calls', i', j', lp', hp', top', h', hturn, hlt⟩ := hstep
      exact Or.inl ⟨_, hturn, ⟨σ', calls', i', j', lp', hp', top', h', rfl⟩, hlt⟩
    · exact Or.inr ⟨_, hdone, σ, calls, i, j, top, h, rfl⟩
  obtain ⟨r, hrun, σ', calls', lp', hp', top', hinv, rfl⟩ :=
    loop_spec _ _ unseen hturns ⟨σ, calls, i, j, lp, hp, top, h, rfl⟩ hk
  exact ⟨σ', calls', lp', hp', top', hinv, hrun⟩

end Turn

/-! ## The calls -/

/-! The pointers of a call are where the elements are, up to the end of the address space. -/

theorem psub_mod {a x y : Nat} (hyx : y ≤ x) (hx : x < 65536) :
    psub ((a + x) % 65536) ((a + y) % 65536) = x - y := by
  unfold psub
  omega

theorem padd_mod {a x y : Nat} (h : a + (x + y) < 65536) :
    padd ((a + x) % 65536) (y % 65536) = a + (x + y) := by
  unfold padd
  omega

theorem psub_last {a x es : Nat} (h : a + (x + es) ≤ 65536) (hes : 0 < es) :
    psub ((a + (x + es)) % 65536) es = a + x := by
  unfold psub
  omega

section Calls

variable {cmp : List UInt8 → List UInt8 → Int} {E : Finset (List UInt8)} {a es n : Nat}
  (hes : 0 < es) (hend : a + n * es ≤ 65536) (hsize : n * es < 65536)
  (hcmp : Compares cmp (E : Set (List UInt8)))

include hes hend hsize hcmp

/-- A call of `qs1` sorts the elements from `lo` to `hi`. -/
theorem qs1_spec (k : Nat) : ∀ {V : Nat → Nat → UInt8} (calls : List (Nat × Nat)) (lo hi : Nat),
    (∀ x < n, row es V x ∈ E) → Addressed a es n calls → lo ≤ hi → hi ≤ n → hi - lo < k →
    ∃ σ calls', MovesWithin σ lo hi ∧ Addressed a es n calls' ∧
      SortedOn (key cmp E es V ∘ σ) lo hi ∧
      qs1 cmp es k ⟨rowsMem a es n V, calls⟩ ((a + lo * es) % 65536) ((a + hi * es) % 65536) =
        some ⟨rowsMem a es n fun x => V (σ x), calls'⟩ := by
  induction k with
  | zero => exact fun _ _ _ _ _ _ _ hk => absurd hk (by omega)
  | succ k ih =>
    intro V calls lo hi hE hcalls hle hn hk
    have hlen : hi * es ≤ n * es := Nat.mul_le_mul_right es hn
    have hlo : lo * es ≤ hi * es := Nat.mul_le_mul_right es hle
    have hdiff : psub ((a + hi * es) % 65536) ((a + lo * es) % 65536) = (hi - lo) * es := by
      rw [psub_mod hlo (hlen.trans_lt hsize), Nat.sub_mul]
    rw [qs1, hdiff]
    dsimp only
    by_cases hone : hi - lo ≤ 1
    · have : (hi - lo) * es ≤ 1 * es := Nat.mul_le_mul_right es hone
      refine ⟨1, calls, .one lo hi, hcalls, ?_, by rw [if_pos (by omega)]; rfl⟩
      intro x y hx hxy hy
      rw [show x = y by omega]
    -- the pivot is in the middle
    obtain ⟨m, hm⟩ : ∃ m, m = lo + (hi - lo) / 2 := ⟨_, rfl⟩
    have hlt : 2 * es ≤ (hi - lo) * es := Nat.mul_le_mul_right es (by omega)
    have hmn : m * es + es ≤ n * es := row_end_le es (by omega)
    have hmid : padd ((a + lo * es) % 65536) (es * ((hi - lo) * es / (2 * es)) % 65536) =
        a + m * es := by
      rw [Nat.mul_div_mul_right _ _ hes, Nat.mul_comm es]
      rw [hm, Nat.add_mul] at hmn ⊢
      exact padd_mod (by omega)
    have hlast : psub ((a + hi * es) % 65536) es = a + (hi - 1) * es := by
      obtain ⟨h, rfl⟩ : ∃ h, hi = h + 1 := ⟨hi - 1, by omega⟩
      rw [Nat.add_sub_cancel]
      rw [Nat.add_mul, Nat.one_mul] at hlen ⊢
      exact psub_last (by omega) hes
    have hfirst : (a + lo * es) % 65536 = a + lo * es := by
      have := row_end_le es (show lo < n by omega)
      exact Nat.mod_eq_of_lt (by omega)
    rw [if_neg (by omega), hmid, hlast]
    clear hdiff hmid hlast hlt hmn
    have hstart : TurnInv cmp E a es n V lo hi (key cmp E es V m) 1 calls lo (hi - 1) m m true :=
      ⟨.one lo hi, Parted.start (by omega) (by omega), by simp, hcalls⟩
    have hfew : unseen (partOf a es n V 1 calls lo (hi - 1) m m true) < maxTurns := by
      have h1 : m - lo + (hi - 1 - m) ≤ n := by
        clear * - hm hn
        omega
      have h2 := Nat.mul_le_mul_right es h1
      clear hm hlen hlo hfirst
      rw [unseen_partOf]
      unfold maxTurns
      simp only [if_true]
      omega
    obtain ⟨σ, calls₁, lp, hp, top, hinv, hloop⟩ := hstart.run hes hend hcmp hE hn hfew
    have hb := hinv.parted.bounds
    clear hfew hstart hm hlen hlo
    have hright : padd (a + hp * es) es = (a + (hp + 1) * es) % 65536 := by
      rw [Nat.add_mul, Nat.one_mul, ← Nat.add_assoc]
      rfl
    have hleft : (a + lp * es) % 65536 = a + lp * es := by
      have := row_end_le es (show lp < n by omega)
      exact Nat.mod_eq_of_lt (by omega)
    have hE₁ : ∀ {V : Nat → Nat → UInt8} {τ : Equiv.Perm Nat}, (∀ x < n, row es V x ∈ E) →
        MovesWithin τ lo hi → ∀ x < n, row es (fun y => V (τ y)) x ∈ E := by
      intro V τ hE hτ x hx
      exact hE _ ((hτ.mono (Nat.zero_le lo) hn).maps ⟨Nat.zero_le x, hx⟩).2
    unfold partOf at hloop
    rw [hfirst]
    rw [show (fun x => V ((1 : Equiv.Perm Nat) x)) = V from rfl] at hloop
    rw [hloop]
    dsimp only
    rw [hright, ← hfirst, ← hleft]
    clear hright hfirst hleft
    split
    · -- the right side first
      obtain ⟨σr, calls₂, hσr, hcalls₂, hsr, hcall₂⟩ := ih _ (hp + 1) hi (hE₁ hE hinv.within)
        hinv.addressed (by omega) hn (by omega)
      have hwr := hσr.mono (show lo ≤ hp + 1 by omega) (Nat.le_refl hi)
      obtain ⟨σl, calls₃, hσl, hcalls₃, hsl, hcall₃⟩ := ih _ lo lp
        (hE₁ (hE₁ hE hinv.within) hwr) hcalls₂ (by omega) (by omega) (by omega)
      refine ⟨σ * σr * σl, calls₃, (hinv.within.mul hwr).mul (hσl.mono (Nat.le_refl lo) (by omega)),
        hcalls₃, ?_, ?_⟩
      · exact sorted_of_parted ((hinv.parted.rearrange (Or.inr hσr)).rearrange (Or.inl hσl)) hsl
          (hsr.rearrange hσl (Or.inr (by omega)))
      · rw [hcall₂]
        dsimp only
        rw [hcall₃]
        rfl
    · -- the left side first
      obtain ⟨σl, calls₂, hσl, hcalls₂, hsl, hcall₂⟩ := ih _ lo lp
        (hE₁ hE hinv.within) hinv.addressed (by omega) (by omega) (by omega)
      have hwl := hσl.mono (Nat.le_refl lo) (show lp ≤ hi by omega)
      obtain ⟨σr, calls₃, hσr, hcalls₃, hsr, hcall₃⟩ := ih _ (hp + 1) hi
        (hE₁ (hE₁ hE hinv.within) hwl) hcalls₂ (by omega) hn (by omega)
      refine ⟨σ * σl * σr, calls₃, (hinv.within.mul hwl).mul (hσr.mono (by omega) (Nat.le_refl hi)),
        hcalls₃, ?_, ?_⟩
      · exact sorted_of_parted ((hinv.parted.rearrange (Or.inl hσl)).rearrange (Or.inr hσr))
          (hsl.rearrange hσr (Or.inl (by omega))) hsr
      · rw [hcall₂]
        dsimp only
        rw [hcall₃]
        rfl

end Calls

/-! ## `qsort` -/

/-- The elements of the array in memory. -/
def elements (a es n : Nat) (mem : Nat → Option UInt8) : List (List UInt8) :=
  (List.range n).map fun k => (List.range es).map fun t => (mem (a + k * es + t)).getD 0

theorem elements_rows {a es n : Nat} (hes : 0 < es) (V : Nat → Nat → UInt8) :
    elements a es n (rowsMem a es n V) = (List.range n).map (row es V) := by
  unfold elements row
  apply List.map_congr_left
  intro k hk
  apply List.map_congr_left
  intro t ht
  rw [rowsMem_cell hes (List.mem_range.mp hk) (List.mem_range.mp ht)]
  rfl

/-- Memory that is there exactly at the array holds rows. -/
theorem eq_rowsMem {a es n : Nat} {mem : Nat → Option UInt8}
    (hmem : ∀ x, (mem x).isSome = true ↔ a ≤ x ∧ x < a + n * es) :
    mem = rowsMem a es n fun k t => (mem (a + k * es + t)).getD 0 := by
  funext x
  unfold rowsMem
  by_cases hx : a ≤ x ∧ x < a + n * es
  · have hdiv := Nat.div_add_mod (x - a) es
    rw [Nat.mul_comm] at hdiv
    rw [if_pos hx]
    dsimp only
    rw [show a + (x - a) / es * es + (x - a) % es = x by omega]
    obtain ⟨c, hc⟩ := Option.isSome_iff_exists.mp ((hmem x).mpr hx)
    rw [hc, Option.getD_some]
  · rw [if_neg hx]
    cases hc : mem x with
    | none => rfl
    | some c => exact absurd ((hmem x).mp (by rw [hc]; rfl)) hx

theorem rowsMem_isSome (a es n : Nat) (V : Nat → Nat → UInt8) (x : Nat) :
    (rowsMem a es n V x).isSome = true ↔ a ≤ x ∧ x < a + n * es := by
  unfold rowsMem
  split
  · next hx => exact iff_of_true rfl hx
  · next hx => exact iff_of_false (by simp) hx

theorem perm_of_within {α : Type} {σ : Equiv.Perm Nat} {n : Nat} (hσ : MovesWithin σ 0 n) (f : Nat → α) :
    ((List.range n).map fun k => f (σ k)).Perm ((List.range n).map f) := by
  have hperm : ((List.range n).map σ).Perm (List.range n) := by
    rw [List.perm_ext_iff_of_nodup (List.nodup_range.map σ.injective) List.nodup_range]
    intro x
    rw [List.mem_map, List.mem_range]
    constructor
    · rintro ⟨y, hy, rfl⟩
      exact (hσ.maps ⟨Nat.zero_le y, List.mem_range.mp hy⟩).2
    · intro hx
      refine ⟨σ.symm x, ?_, σ.apply_symm_apply x⟩
      rw [List.mem_range]
      by_contra hc
      have := hσ.off (x := σ.symm x) (by omega)
      rw [σ.apply_symm_apply] at this
      omega
  have hmap := hperm.map f
  rwa [List.map_map] at hmap

/-- **`qsort`.** The memory that may be touched is the array, which is not all of the address
    space (the variables of `qsort` are outside of it). For every comparison function that is a
    total preorder on the elements, `qsort` ends without a fault, with the elements rearranged
    in order, and has called the comparison function with addresses of elements only. -/
theorem qsort_sorts (cmp : List UInt8 → List UInt8 → Int) (es n a : Nat)
    (mem : Nat → Option UInt8) (hes : 0 < es) (ha : a < 65536)
    (hin : a + n * es ≤ 65536) (hother : ∃ x < 65536, ¬ (a ≤ x ∧ x < a + n * es))
    (hmem : ∀ x, (mem x).isSome = true ↔ a ≤ x ∧ x < a + n * es)
    (hcmp : Compares cmp {x | x ∈ elements a es n mem}) :
    ∃ s, qsort cmp es mem a n = some s ∧
      (∀ x, (s.mem x).isSome = true ↔ a ≤ x ∧ x < a + n * es) ∧
      (elements a es n s.mem).Perm (elements a es n mem) ∧
      (elements a es n s.mem).Pairwise (fun x y => cmp x y ≤ 0) ∧
      Addressed a es n s.calls := by
  have hsize : n * es < 65536 := by
    obtain ⟨x, hx, hout⟩ := hother
    omega
  have hn : n ≤ n * es := Nat.le_mul_of_pos_right n hes
  obtain ⟨V, hV⟩ : ∃ V : Nat → Nat → UInt8, mem = rowsMem a es n V := ⟨_, eq_rowsMem hmem⟩
  rw [hV, elements_rows hes] at hcmp
  have hcmp' : Compares cmp (((List.range n).map (row es V)).toFinset : Set (List UInt8)) := by
    rwa [List.coe_toFinset]
  have hE : ∀ x < n, row es V x ∈ ((List.range n).map (row es V)).toFinset := by
    intro x hx
    rw [List.mem_toFinset]
    exact List.mem_map_of_mem (List.mem_range.mpr hx)
  obtain ⟨σ, calls, hσ, hcalls, hsorted, hcall⟩ := qs1_spec hes hin hsize hcmp' maxTurns
    [] 0 n hE (by simp [Addressed]) (Nat.zero_le n) (Nat.le_refl n)
    (by unfold maxTurns; omega)
  rw [Nat.zero_mul, Nat.add_zero, Nat.mod_eq_of_lt ha] at hcall
  refine ⟨⟨rowsMem a es n fun x => V (σ x), calls⟩, ?_, ?_, ?_, ?_, hcalls⟩
  · unfold qsort
    rw [hV]
    exact hcall
  · exact rowsMem_isSome a es n fun x => V (σ x)
  · rw [hV, elements_rows hes, elements_rows hes]
    exact perm_of_within hσ (row es V)
  · rw [elements_rows hes, List.pairwise_map]
    refine List.pairwise_lt_range.imp_of_mem ?_
    intro x y hx hy hlt
    have hx' := (hσ.maps ⟨Nat.zero_le x, List.mem_range.mp hx⟩).2
    have hy' := (hσ.maps ⟨Nat.zero_le y, List.mem_range.mp hy⟩).2
    have hle := hsorted x y (Nat.zero_le x) (Nat.le_of_lt hlt) (List.mem_range.mp hy)
    have hiff := (hcmp'.rank_iff (hE _ hx') (hE _ hy')).2
    by_contra hc
    have := hiff.mp (not_le.mp hc)
    exact absurd hle (not_le.mpr this)

/-- Elements compared by their first byte. -/
def firstByte (x y : List UInt8) : Int := (x.headD 0).toNat - (y.headD 0).toNat

/-- Three elements of two bytes at the end of the address space. -/
theorem qsort_sorts_three :
    let mem : Nat → Option UInt8 := fun x => if 65530 ≤ x ∧ x < 65536 then some (x * 77).toUInt8 else none
    ∃ s, qsort firstByte 2 mem 65530 3 = some s ∧
      (∀ x, (s.mem x).isSome = true ↔ 65530 ≤ x ∧ x < 65530 + 3 * 2) ∧
      (elements 65530 2 3 s.mem).Perm (elements 65530 2 3 mem) ∧
      (elements 65530 2 3 s.mem).Pairwise (fun x y => firstByte x y ≤ 0) ∧
      Addressed 65530 2 3 s.calls := by
  refine qsort_sorts firstByte 2 3 65530 _ (by decide) (by decide) (by decide)
    ⟨0, by decide, by decide⟩ ?_ ⟨?_, ?_⟩
  · intro x
    split
    · next hx => exact iff_of_true rfl hx
    · next hx => exact iff_of_false (by simp) hx
  · intro x _ y _
    unfold firstByte
    omega
  · intro x _ y _ z _
    unfold firstByte
    omega

end Venix.Libc
