/-
  Decryption gives back the block.

  `turn` is a Feistel round of the two halves (`turn_eq`), where the keys are those that `setkey`
  makes of any key (`setkey_spec`) and `E` is any table with entries from 1 to 32 (`Table`). `FP`
  undoes `IP`, and `IP` undoes `FP` (`permute_undo`). `encrypt_undone` is the result.
-/
import Venix.Lib.Feistel
import Venix.Libc.Crypt

namespace Venix.Libc.Crypt

open Venix.Lib

/-! ## Bits -/

/-- An array of `n` bits. -/
structure Bits (n : Nat) (l : List Nat) : Prop where
  length : l.length = n
  bit : ∀ x ∈ l, x < 2

theorem Bits.get {n : Nat} {l : List Nat} (h : Bits n l) {i : Nat} (hi : i < n) :
    ∃ x, l[i]? = some x ∧ x < 2 := by
  have hlt : i < l.length := h.length ▸ hi
  exact ⟨l[i], List.getElem?_eq_getElem hlt, h.bit _ (List.getElem_mem hlt)⟩

theorem Bits.pick {n : Nat} {l : List Nat} (h : Bits n l) {p : Nat} (h1 : 1 ≤ p) (hn : p ≤ n) :
    ∃ x, pick l p = some x ∧ x < 2 := by
  unfold Crypt.pick
  rw [if_neg (by omega)]
  exact h.get (by omega)

theorem Bits.set {n : Nat} {l : List Nat} (h : Bits n l) (i : Nat) {x : Nat} (hx : x < 2) :
    Bits n (l.set i x) := by
  refine ⟨by rw [List.length_set, h.length], fun y hy => ?_⟩
  rcases List.mem_or_eq_of_mem_set hy with hy | rfl
  · exact h.bit y hy
  · exact hx

theorem Bits.append {m n : Nat} {l l' : List Nat} (h : Bits m l) (h' : Bits n l') :
    Bits (m + n) (l ++ l') := by
  refine ⟨by rw [List.length_append, h.length, h'.length], fun x hx => ?_⟩
  rcases List.mem_append.mp hx with hx | hx
  · exact h.bit x hx
  · exact h'.bit x hx

/-- Two halves. -/
theorem Bits.halves {m n : Nat} {l : List Nat} (h : Bits (m + n) l) :
    Bits m (l.take m) ∧ Bits n (l.drop m) := by
  refine ⟨⟨?_, fun x hx => h.bit x (List.mem_of_mem_take hx)⟩,
    ⟨?_, fun x hx => h.bit x (List.mem_of_mem_drop hx)⟩⟩
  · rw [List.length_take, h.length]
    omega
  · rw [List.length_drop, h.length]
    omega

theorem mapM_spec {α β : Type} {f : α → Option β} {Q : α → β → Prop} (xs : List α)
    (h : ∀ x ∈ xs, ∃ y, f x = some y ∧ Q x y) :
    ∃ l, xs.mapM f = some l ∧ List.Forall₂ Q xs l := by
  induction xs with
  | nil => exact ⟨[], rfl, .nil⟩
  | cons x xs ih =>
    obtain ⟨y, hy, hQ⟩ := h x List.mem_cons_self
    obtain ⟨l, hl, hall⟩ := ih fun x' hx' => h x' (List.mem_cons_of_mem x hx')
    refine ⟨y :: l, ?_, .cons hQ hall⟩
    rw [List.mapM_cons, hy]
    simp only [Option.bind_eq_bind, Option.bind_some, hl]
    rfl

/-- The elements are the values of `f`. -/
theorem fill_spec {n : Nat} {f : Nat → Option Nat} (h : ∀ j < n, ∃ x, f j = some x ∧ x < 2) :
    ∃ l, fill n f = some l ∧ Bits n l ∧ ∀ j < n, l[j]? = f j := by
  obtain ⟨l, hl, hall⟩ := mapM_spec (Q := fun j x => f j = some x ∧ x < 2) (List.range n)
    fun j hj => by
      obtain ⟨x, hx, hbit⟩ := h j (List.mem_range.mp hj)
      exact ⟨x, hx, hx, hbit⟩
  have hlen : l.length = n := by rw [← hall.length_eq, List.length_range]
  have hat : ∀ j (hj : j < n), f j = some (l[j]) ∧ l[j] < 2 := by
    intro j hj
    have := hall.get (by rw [List.length_range]; exact hj) (by rw [hlen]; exact hj)
    simpa using this
  refine ⟨l, hl, ⟨hlen, fun x hx => ?_⟩, fun j hj => ?_⟩
  · obtain ⟨j, hj, rfl⟩ := List.getElem_of_mem hx
    exact (hat j (by omega)).2
  · rw [List.getElem?_eq_getElem (by omega), (hat j hj).1]

/-- What `fill` gives is known by its elements. -/
theorem fill_eq {n : Nat} {f : Nat → Option Nat} {l : List Nat} (hl : Bits n l)
    (h : ∀ j < n, f j = l[j]?) : fill n f = some l := by
  obtain ⟨l', hfill, hbits, hat⟩ := fill_spec (f := f) fun j hj => by
    rw [h j hj]
    exact hl.get hj
  rw [hfill, Option.some_inj]
  refine List.ext_getElem? fun j => ?_
  by_cases hj : j < n
  · rw [hat j hj, h j hj]
  · rw [List.getElem?_eq_none (by rw [hbits.length]; omega),
      List.getElem?_eq_none (by rw [hl.length]; omega)]

/-! ## A turn -/

/-- A table that `E` may be. -/
structure Table (E : List Nat) : Prop where
  length : E.length = 48
  entry : ∀ p ∈ E, 1 ≤ p ∧ p ≤ 32

theorem Table.get {E : List Nat} (h : Table E) {j : Nat} (hj : j < 48) :
    ∃ p, E[j]? = some p ∧ 1 ≤ p ∧ p ≤ 32 := by
  have hlt : j < E.length := h.length ▸ hj
  exact ⟨E[j], List.getElem?_eq_getElem hlt, h.entry _ (List.getElem_mem hlt)⟩

/-- The entries of `P` are from 1 to 32. -/
theorem P_get {j : Nat} (hj : j < 32) : ∃ p, P[j]? = some p ∧ 1 ≤ p ∧ p ≤ 32 := by
  have hall : ∀ p ∈ P, 1 ≤ p ∧ p ≤ 32 := by decide
  have hlt : j < P.length := hj
  exact ⟨P[j], List.getElem?_eq_getElem hlt, hall _ (List.getElem_mem hlt)⟩

theorem S_get {j i : Nat} (hj : j < 8) (hi : i < 64) :
    ∃ row k, S[j]? = some row ∧ row[i]? = some k := by
  have hall : ∀ row ∈ S, row.length = 64 := by decide
  have hlt : j < S.length := hj
  have hrow := hall _ (List.getElem_mem hlt)
  exact ⟨S[j], S[j][i], List.getElem?_eq_getElem hlt,
    List.getElem?_eq_getElem (by omega)⟩

theorem and_one_lt (k : Nat) : k &&& 1 < 2 := by
  rw [Nat.and_one_is_mod]
  exact Nat.mod_lt k (by decide)

theorem xor_lt {a b : Nat} (ha : a < 2) (hb : b < 2) : a ^^^ b < 2 :=
  Nat.xor_lt_two_pow (n := 1) ha hb

theorem select_spec {preS : List Nat} (h : Bits 48 preS) {j : Nat} (hj : j < 8) :
    ∃ l, select preS j = some l ∧ Bits 4 l := by
  obtain ⟨b0, h0, hb0⟩ := h.get (show 6 * j < 48 by omega)
  obtain ⟨b1, h1, hb1⟩ := h.get (show 6 * j + 1 < 48 by omega)
  obtain ⟨b2, h2, hb2⟩ := h.get (show 6 * j + 2 < 48 by omega)
  obtain ⟨b3, h3, hb3⟩ := h.get (show 6 * j + 3 < 48 by omega)
  obtain ⟨b4, h4, hb4⟩ := h.get (show 6 * j + 4 < 48 by omega)
  obtain ⟨b5, h5, hb5⟩ := h.get (show 6 * j + 5 < 48 by omega)
  obtain ⟨row, k, hrow, hk⟩ := S_get hj
    (show (b0 <<< 5) + (b1 <<< 3) + (b2 <<< 2) + (b3 <<< 1) + (b4 <<< 0) + (b5 <<< 4) < 64 by
      simp only [Nat.shiftLeft_eq]
      omega)
  refine ⟨[(k >>> 3) &&& 1, (k >>> 2) &&& 1, (k >>> 1) &&& 1, (k >>> 0) &&& 1], ?_, rfl, ?_⟩
  · unfold select
    simp only [h0, h1, h2, h3, h4, h5, hrow, hk, Option.bind_eq_bind, Option.bind_some]
  · intro x hx
    simp only [List.mem_cons, List.not_mem_nil, or_false] at hx
    rcases hx with rfl | rfl | rfl | rfl <;> exact and_one_lt _

/-- `f(R, K)`. -/
def mix (E Ki R : List Nat) : Option (List Nat) := do
  let preS ← fill 48 fun j => do
    let r ← pick R (← E[j]?)
    let k ← Ki[j]?
    some (r ^^^ k)
  let f ← (List.range 8).mapM (select preS)
  fill 32 fun j => do pick f.flatten (← P[j]?)

def xorBits (l g : List Nat) : List Nat := List.zipWith (· ^^^ ·) l g

theorem Bits.xorBits {n : Nat} {l g : List Nat} (hl : Bits n l) (hg : Bits n g) :
    Bits n (xorBits l g) := by
  refine ⟨by rw [Crypt.xorBits, List.length_zipWith, hl.length, hg.length, Nat.min_self], ?_⟩
  intro x hx
  obtain ⟨j, hj, rfl⟩ := List.getElem_of_mem hx
  unfold Crypt.xorBits at hj ⊢
  rw [List.getElem_zipWith]
  exact xor_lt (hl.bit _ (List.getElem_mem _)) (hg.bit _ (List.getElem_mem _))

theorem xorBits_undo {n : Nat} {l g : List Nat} (hl : Bits n l) (hg : Bits n g) :
    xorBits (xorBits l g) g = l := by
  unfold xorBits
  refine List.ext_getElem ?_ fun j h1 h2 => ?_
  · rw [List.length_zipWith, List.length_zipWith, hl.length, hg.length]
    omega
  · rw [List.getElem_zipWith, List.getElem_zipWith, Nat.xor_assoc, Nat.xor_self, Nat.xor_zero]

theorem flatten_bits {ls : List (List Nat)} {js : List Nat}
    (h : List.Forall₂ (fun (_ : Nat) l => Bits 4 l) js ls) : Bits (4 * js.length) ls.flatten := by
  induction h with
  | nil => exact ⟨rfl, fun x hx => absurd hx List.not_mem_nil⟩
  | cons hl _ ih =>
    rw [List.flatten_cons, List.length_cons, Nat.mul_add, Nat.add_comm]
    exact hl.append ih

/-- `turn` is a round of the halves. -/
theorem turn_eq {E Ki l r : List Nat} (hE : Table E) (hk : Bits 48 Ki) (hl : Bits 32 l)
    (hr : Bits 32 r) :
    ∃ g, mix E Ki r = some g ∧ Bits 32 g ∧ turn E Ki (l ++ r) = some (r ++ xorBits l g) := by
  have hdrop : (l ++ r).drop 32 = r := List.drop_left' hl.length
  obtain ⟨preS, hpre, hpreBits, -⟩ := fill_spec (n := 48) (f := fun j => do
      let r ← pick r (← E[j]?)
      let k ← Ki[j]?
      some (r ^^^ k)) fun j hj => by
    obtain ⟨p, hp, hp1, hp2⟩ := hE.get hj
    obtain ⟨x, hx, hx2⟩ := hr.pick hp1 hp2
    obtain ⟨k, hk', hk2⟩ := hk.get hj
    refine ⟨x ^^^ k, ?_, xor_lt hx2 hk2⟩
    simp only [hp, hx, hk', Option.bind_eq_bind, Option.bind_some]
  obtain ⟨f, hf, hfall⟩ := mapM_spec (f := select preS) (Q := fun _ l => Bits 4 l) (List.range 8)
    fun j hj => select_spec hpreBits (List.mem_range.mp hj)
  have hfbits : Bits 32 f.flatten := flatten_bits hfall
  have hpick : ∀ j < 32, ∃ x, (do pick f.flatten (← P[j]?) : Option Nat) = some x ∧ x < 2 := by
    intro j hj
    obtain ⟨p, hp, hp1, hp2⟩ := P_get hj
    obtain ⟨x, hx, hx2⟩ := hfbits.pick hp1 hp2
    refine ⟨x, ?_, hx2⟩
    simp only [hp, hx, Option.bind_eq_bind, Option.bind_some]
  obtain ⟨g, hg, hgbits, hgat⟩ := fill_spec hpick
  have htemp : fill 32 (fun j => r[j]?) = some r := fill_eq hr fun _ _ => rfl
  have hR : fill 32 (fun j => do
      let l ← (l ++ r)[j]?
      let x ← pick f.flatten (← P[j]?)
      some (l ^^^ x)) = some (xorBits l g) := by
    refine fill_eq (hl.xorBits hgbits) fun j hj => ?_
    have hjl : j < l.length := hl.length ▸ hj
    have hjg : j < g.length := hgbits.length ▸ hj
    have hx := hgat j hj
    rw [List.getElem?_eq_getElem hjg] at hx
    unfold xorBits
    have hjz : j < (List.zipWith (· ^^^ ·) l g).length := by
      rw [List.length_zipWith]
      omega
    rw [List.getElem?_append_left hjl, List.getElem?_eq_getElem hjl,
      List.getElem?_eq_getElem hjz, List.getElem_zipWith]
    simp only [Option.bind_eq_bind, Option.bind_some] at hx ⊢
    rw [← Option.bind_assoc, ← hx]
    rfl
  refine ⟨g, ?_, hgbits, ?_⟩
  · unfold mix
    rw [hpre]
    simp only [Option.bind_eq_bind, Option.bind_some, hf]
    exact hg
  · unfold turn
    rw [hdrop]
    exact Option.bind_eq_some_iff.mpr ⟨r, htemp, Option.bind_eq_some_iff.mpr ⟨preS, hpre,
      Option.bind_eq_some_iff.mpr ⟨f, hf, Option.bind_eq_some_iff.mpr ⟨_, hR, rfl⟩⟩⟩⟩

/-! ## The turns -/

theorem foldlM_keeps {α β : Type} {f : β → α → Option β} {Q : β → Prop} (l : List α)
    (h : ∀ x ∈ l, ∀ b, Q b → ∃ b', f b x = some b' ∧ Q b') {b : β} (hb : Q b) :
    ∃ b', l.foldlM f b = some b' ∧ Q b' := by
  induction l generalizing b with
  | nil => exact ⟨b, rfl, hb⟩
  | cons x l ih =>
    obtain ⟨b1, h1, hQ⟩ := h x List.mem_cons_self b hb
    rw [List.foldlM_cons, h1]
    exact ih (fun x' hx' => h x' (List.mem_cons_of_mem x hx')) hQ

/-- The elements of a list taken by their indices. -/
theorem foldlM_index {α β ι : Type} {f : β → α → Option β} {get : ι → Option α} {is : List ι}
    {ks : List α} (h : List.Forall₂ (fun i k => get i = some k) is ks) (b : β) :
    is.foldlM (fun b i => do f b (← get i)) b = ks.foldlM f b := by
  induction h generalizing b with
  | nil => rfl
  | cons hi _ ih =>
    rw [List.foldlM_cons, List.foldlM_cons, hi]
    exact bind_congr fun b' => ih b'

/-- `encrypt` with the keys in the order of `ks`. -/
def encryptWith (E : List Nat) (ks : List (List Nat)) (block : List Nat) : Option (List Nat) := do
  let L ← fill 64 fun j => do pick block (← IP[j]?)
  let L ← ks.foldlM (fun L Ki => turn E Ki L) L
  fill 64 fun j => do pick (L.drop 32 ++ L.take 32) (← FP[j]?)

/-- The turns take the keys in their order, or from the last to the first. -/
theorem encrypt_eq {E block : List Nat} {KS : List (List Nat)} (hKS : KS.length = 16)
    (edflag : Int) :
    encrypt E KS block edflag = encryptWith E (if edflag ≠ 0 then KS.reverse else KS) block := by
  have hkeys : List.Forall₂ (fun ii k => KS[keyIndex edflag ii]? = some k) (List.range 16)
      (if edflag ≠ 0 then KS.reverse else KS) := by
    rw [List.forall₂_iff_get]
    by_cases hed : edflag ≠ 0
    · rw [if_pos hed]
      refine ⟨by rw [List.length_range, List.length_reverse, hKS], fun i h1 h2 => ?_⟩
      rw [List.length_range] at h1
      rw [List.get_eq_getElem, List.get_eq_getElem, List.getElem_range, List.getElem_reverse,
        keyIndex, if_pos hed, List.getElem?_eq_getElem (by omega)]
      simp only [hKS]
    · rw [if_neg hed]
      refine ⟨by rw [List.length_range, hKS], fun i h1 h2 => ?_⟩
      rw [List.length_range] at h1
      rw [List.get_eq_getElem, List.get_eq_getElem, List.getElem_range, keyIndex, if_neg hed,
        List.getElem?_eq_getElem (by omega)]
  unfold encrypt encryptWith
  refine bind_congr fun L => ?_
  rw [← foldlM_index hkeys L]

/-- The turns are the rounds of the halves. -/
theorem turns_eq {E : List Nat} (hE : Table E) (ks : List (List Nat)) (hks : ∀ k ∈ ks, Bits 48 k)
    {x y : List Nat × List Nat} (hl : Bits 32 x.1) (hr : Bits 32 x.2)
    (h : Feistel.rounds xorBits (mix E) ks x = some y) :
    ks.foldlM (fun L Ki => turn E Ki L) (x.1 ++ x.2) = some (y.1 ++ y.2) := by
  induction ks generalizing x with
  | nil =>
    cases h
    rfl
  | cons k ks ih =>
    obtain ⟨g, hg, hgbits, hturn⟩ := turn_eq hE (hks k List.mem_cons_self) hl hr
    rw [Feistel.rounds_cons, Feistel.round, hg] at h
    rw [List.foldlM_cons, hturn]
    exact ih (fun k' hk' => hks k' (List.mem_cons_of_mem k hk')) hr (hl.xorBits hgbits) h

/-- The function of the turns, for keys of 48 bits and halves of 32. -/
theorem mixes {E : List Nat} (hE : Table E) : Feistel.Mixes xorBits (mix E) (Bits 48) (Bits 32) where
  mix k r hk hr := by
    obtain ⟨g, hg, hgbits, -⟩ := turn_eq hE hk hr hr
    exact ⟨g, hg, hgbits⟩
  sum _ _ ha hg := ha.xorBits hg
  undo _ _ ha hg := xorBits_undo ha hg

/-! ## The permutations -/

/-- `T` is a table of places of the block, and `T'` leads each one of them back. -/
def Undoes (T' T : List Nat) : Prop :=
  ∀ j < 64, (1 ≤ T.getD j 0 ∧ T.getD j 0 ≤ 64) ∧ 1 ≤ T'.getD j 0 ∧ T'.getD j 0 ≤ 64 ∧
    T[j]? = some (T.getD j 0) ∧ T'[j]? = some (T'.getD j 0) ∧ T.getD (T'.getD j 0 - 1) 0 = j + 1

theorem undoes_FP_IP : Undoes FP IP := by
  unfold Undoes
  decide

theorem undoes_IP_FP : Undoes IP FP := by
  unfold Undoes
  decide

theorem permute_undo {T T' l : List Nat} (h : Undoes T' T) (hl : Bits 64 l) :
    ∃ m, (fill 64 fun j => do pick l (← T[j]?)) = some m ∧ Bits 64 m ∧
      (fill 64 fun j => do pick m (← T'[j]?)) = some l := by
  obtain ⟨m, hm, hbits, hat⟩ := fill_spec (n := 64) (f := fun j => do pick l (← T[j]?))
    fun j hj => by
      obtain ⟨⟨h1, h2⟩, -, -, hT, -, -⟩ := h j hj
      rw [hT]
      exact hl.pick h1 h2
  refine ⟨m, hm, hbits, fill_eq hl fun j hj => ?_⟩
  obtain ⟨-, h1, h2, -, hT', hback⟩ := h j hj
  obtain ⟨-, -, -, hT, -, -⟩ := h (T'.getD j 0 - 1) (by omega)
  rw [hT']
  change pick m (T'.getD j 0) = l[j]?
  rw [pick, if_neg (by omega), hat _ (by omega), hT, hback]
  rfl

/-- The block comes back, whatever the keys are. -/
theorem encryptWith_reverse {E block : List Nat} {ks : List (List Nat)} (hE : Table E)
    (hks : ∀ k ∈ ks, Bits 48 k) (hblock : Bits 64 block) :
    ∃ out, encryptWith E ks block = some out ∧
      encryptWith E ks.reverse out = some block := by
  obtain ⟨L, hL, hLbits, hLback⟩ := permute_undo undoes_FP_IP hblock
  obtain ⟨hl, hr⟩ := Bits.halves (m := 32) (n := 32) hLbits
  obtain ⟨y, hy, hy1, hy2, hyback⟩ :=
    Feistel.rounds_reverse (mixes hE) ks hks (x := (L.take 32, L.drop 32)) hl hr
  obtain ⟨out, hout, hobits, hoback⟩ := permute_undo undoes_IP_FP (hy2.append hy1)
  have hthere := turns_eq hE ks hks hl hr hy
  have hback := turns_eq hE ks.reverse (fun k hk => hks k (List.mem_reverse.mp hk)) hy2 hy1 hyback
  rw [List.take_append_drop] at hthere
  have hdrop : (y.1 ++ y.2).drop 32 = y.2 := List.drop_left' hy1.length
  have htake : (y.1 ++ y.2).take 32 = y.1 := List.take_left' hy1.length
  refine ⟨out, ?_, ?_⟩
  · unfold encryptWith
    refine Option.bind_eq_some_iff.mpr ⟨L, hL, Option.bind_eq_some_iff.mpr ⟨y.1 ++ y.2, hthere, ?_⟩⟩
    rw [hdrop, htake]
    exact hout
  · unfold encryptWith
    refine Option.bind_eq_some_iff.mpr ⟨y.2 ++ y.1, hoback, ?_⟩
    refine Option.bind_eq_some_iff.mpr ⟨L.drop 32 ++ L.take 32, hback, ?_⟩
    have hlen : (L.drop 32).length = 32 := hr.length
    rw [List.drop_left' hlen, List.take_left' hlen, List.take_append_drop]
    exact hLback

/-! ## The keys -/

theorem rotate_spec {C : List Nat} (h : Bits 28 C) : ∃ C', rotate C = some C' ∧ Bits 28 C' := by
  obtain ⟨t, ht, htbit⟩ := h.get (show 0 < 28 by decide)
  obtain ⟨C1, hC1, hbits⟩ := foldlM_keeps (Q := Bits 28) (f := fun C j => do
      let c ← C[j + 1]?
      some (C.set j c)) (List.range 27) (fun j hj D hD => by
    have hj27 := List.mem_range.mp hj
    obtain ⟨c, hc, hcbit⟩ := hD.get (show j + 1 < 28 by omega)
    exact ⟨D.set j c, by rw [hc]; rfl, hD.set j hcbit⟩) h
  refine ⟨C1.set 27 t, ?_, hbits.set 27 htbit⟩
  unfold rotate
  exact Option.bind_eq_some_iff.mpr ⟨t, ht, Option.bind_eq_some_iff.mpr ⟨C1, hC1, rfl⟩⟩

/-- A key of 24 bits of `C` and 24 of `D`. -/
theorem schedule_spec {C D : List Nat} (hC : Bits 28 C) (hD : Bits 28 D) (shift : Nat) :
    ∃ k CD', schedule (C, D) shift = some (k, CD') ∧ Bits 48 k ∧ Bits 28 CD'.1 ∧ Bits 28 CD'.2 := by
  have hCD : Bits 28 (C, D).1 ∧ Bits 28 (C, D).2 := ⟨hC, hD⟩
  obtain ⟨CD', hCD, hC', hD'⟩ := foldlM_keeps (Q := fun CD => Bits 28 CD.1 ∧ Bits 28 CD.2)
    (f := fun (CD : List Nat × List Nat) (_ : Nat) => do
      let C ← rotate CD.1
      let D ← rotate CD.2
      some (C, D)) (List.range shift) (fun _ _ CD h => by
    obtain ⟨C', hC', hCbits⟩ := rotate_spec h.1
    obtain ⟨D', hD', hDbits⟩ := rotate_spec h.2
    exact ⟨(C', D'), by rw [hC', hD']; rfl, hCbits, hDbits⟩) hCD
  obtain ⟨left, hleft, hlbits, -⟩ := fill_spec (n := 24) (f := fun j => do
      pick CD'.1 (← PC2_C[j]?)) fun j hj => by
    have hall : ∀ j < 24, ∃ p, PC2_C[j]? = some p ∧ 1 ≤ p ∧ p ≤ 28 := by decide
    obtain ⟨p, hp, h1, h2⟩ := hall j hj
    rw [hp]
    exact hC'.pick h1 h2
  obtain ⟨right, hright, hrbits, -⟩ := fill_spec (n := 24) (f := fun j => do
      let p ← PC2_D[j]?
      if p < 28 then none else pick CD'.2 (p - 28)) fun j hj => by
    have hall : ∀ j < 24, ∃ p, PC2_D[j]? = some p ∧ 29 ≤ p ∧ p ≤ 56 := by decide
    obtain ⟨p, hp, h1, h2⟩ := hall j hj
    obtain ⟨x, hx, hbit⟩ := hD'.pick (p := p - 28) (by omega) (by omega)
    refine ⟨x, ?_, hbit⟩
    rw [hp]
    exact (if_neg (by omega)).trans hx
  refine ⟨left ++ right, CD', ?_, hlbits.append hrbits, hC', hD'⟩
  unfold schedule
  refine Option.bind_eq_some_iff.mpr ⟨CD', hCD, ?_⟩
  exact Option.bind_eq_some_iff.mpr ⟨left, hleft, Option.bind_eq_some_iff.mpr ⟨right, hright, rfl⟩⟩

theorem scheduleAll_spec (ss : List Nat) {C D : List Nat} (hC : Bits 28 C) (hD : Bits 28 D) :
    ∃ KS, scheduleAll ss (C, D) = some KS ∧ KS.length = ss.length ∧ ∀ k ∈ KS, Bits 48 k := by
  induction ss generalizing C D with
  | nil => exact ⟨[], rfl, rfl, fun k hk => absurd hk List.not_mem_nil⟩
  | cons shift ss ih =>
    obtain ⟨k, CD', hk, hkbits, hC', hD'⟩ := schedule_spec hC hD shift
    obtain ⟨KS, hKS, hlen, hbits⟩ := ih hC' hD'
    refine ⟨k :: KS, ?_, congrArg (· + 1) hlen, List.forall_mem_cons.mpr ⟨hkbits, hbits⟩⟩
    unfold scheduleAll
    exact Option.bind_eq_some_iff.mpr ⟨_, hk, Option.bind_eq_some_iff.mpr ⟨KS, hKS, rfl⟩⟩

/-- Every key has a schedule of sixteen keys. -/
theorem setkey_spec {key : List Nat} (h : Bits 64 key) :
    ∃ KS, setkey key = some KS ∧ KS.length = 16 ∧ ∀ k ∈ KS, Bits 48 k := by
  obtain ⟨C, hC, hCbits, -⟩ := fill_spec (n := 28) (f := fun i => do pick key (← PC1_C[i]?))
    fun j hj => by
      have hall : ∀ j < 28, ∃ p, PC1_C[j]? = some p ∧ 1 ≤ p ∧ p ≤ 64 := by decide
      obtain ⟨p, hp, h1, h2⟩ := hall j hj
      rw [hp]
      exact h.pick h1 h2
  obtain ⟨D, hD, hDbits, -⟩ := fill_spec (n := 28) (f := fun i => do pick key (← PC1_D[i]?))
    fun j hj => by
      have hall : ∀ j < 28, ∃ p, PC1_D[j]? = some p ∧ 1 ≤ p ∧ p ≤ 64 := by decide
      obtain ⟨p, hp, h1, h2⟩ := hall j hj
      rw [hp]
      exact h.pick h1 h2
  obtain ⟨KS, hKS, hlen, hbits⟩ := scheduleAll_spec shifts hCbits hDbits
  refine ⟨KS, ?_, hlen, hbits⟩
  unfold setkey
  exact Option.bind_eq_some_iff.mpr ⟨C, hC, Option.bind_eq_some_iff.mpr ⟨D, hD, hKS⟩⟩

/-! ## The salt -/

theorem Table.set {E : List Nat} (h : Table E) (i : Nat) {p : Nat} (hp : 1 ≤ p ∧ p ≤ 32) :
    Table (E.set i p) := by
  refine ⟨by rw [List.length_set, h.length], fun q hq => ?_⟩
  rcases List.mem_or_eq_of_mem_set hq with hq | rfl
  · exact h.entry q hq
  · exact hp

theorem exchange_spec {E : List Nat} (h : Table E) {p : Nat} (hp : p < 24) :
    ∃ E', exchange E p = some E' ∧ Table E' := by
  obtain ⟨temp, htemp, ht⟩ := h.get (show p < 48 by omega)
  obtain ⟨x, hx, hxb⟩ := h.get (show p + 24 < 48 by omega)
  refine ⟨(E.set p x).set (p + 24) temp, ?_, (h.set p hxb).set (p + 24) ht⟩
  unfold exchange
  exact Option.bind_eq_some_iff.mpr ⟨temp, htemp, Option.bind_eq_some_iff.mpr ⟨x, hx, rfl⟩⟩

/-- Every salt makes a table. -/
theorem saltTable_spec (c0 c1 : Int) : ∃ E, saltTable c0 c1 = some E ∧ Table E := by
  have he : Table e := ⟨rfl, by decide⟩
  refine foldlM_keeps _ (fun ic hic E hE => ?_) he
  have hi : ic.1 < 2 := by
    simp only [List.mem_cons, List.not_mem_nil, or_false] at hic
    rcases hic with rfl | rfl
    · exact Nat.zero_lt_two
    · exact Nat.one_lt_two
  refine foldlM_keeps _ (fun j hj E hE => ?_) hE
  have hj6 := List.mem_range.mp hj
  by_cases hbit : saltBits ic.2 / 2 ^ j % 2 = 1
  · rw [if_pos hbit]
    exact exchange_spec hE (by omega)
  · rw [if_neg hbit]
    exact ⟨E, rfl, hE⟩

/-! ## Decryption -/

/-- Decryption after encryption, and encryption after decryption, give back the block, for every key
and every table `E`; the tables that `crypt` makes of the salts are among them. -/
theorem encrypt_undone {key E block : List Nat} (hkey : Bits 64 key) (hE : Table E)
    (hblock : Bits 64 block) :
    (∀ c0 c1, ∃ E', saltTable c0 c1 = some E' ∧ Table E') ∧
      ∃ KS out out', setkey key = some KS ∧
        encrypt E KS block 0 = some out ∧ encrypt E KS out 1 = some block ∧
        encrypt E KS block 1 = some out' ∧ encrypt E KS out' 0 = some block := by
  refine ⟨saltTable_spec, ?_⟩
  obtain ⟨KS, hKS, hlen, hbits⟩ := setkey_spec hkey
  obtain ⟨out, hout, hback⟩ := encryptWith_reverse hE hbits hblock
  obtain ⟨out', hout', hback'⟩ := encryptWith_reverse hE
    (fun k hk => hbits k (List.mem_reverse.mp hk)) hblock
  rw [List.reverse_reverse] at hback'
  have h0 : ∀ b, encrypt E KS b 0 = encryptWith E KS b := fun b => encrypt_eq hlen 0
  have h1 : ∀ b, encrypt E KS b 1 = encryptWith E KS.reverse b := fun b => encrypt_eq hlen 1
  exact ⟨KS, out, out', hKS, (h0 block).trans hout, (h1 out).trans hback, (h1 block).trans hout',
    (h0 out').trans hback'⟩

/-- The key and the block of zeros, and `E` as `crypt` starts with it. -/
theorem encrypt_undone_zeros :
    ∃ KS out out', setkey (List.replicate 64 0) = some KS ∧
      encrypt e KS (List.replicate 64 0) 0 = some out ∧
      encrypt e KS out 1 = some (List.replicate 64 0) ∧
      encrypt e KS (List.replicate 64 0) 1 = some out' ∧
      encrypt e KS out' 0 = some (List.replicate 64 0) := by
  have hzeros : Bits 64 (List.replicate 64 0) := ⟨rfl, by decide⟩
  have he : Table e := ⟨rfl, by decide⟩
  exact (encrypt_undone hzeros he hzeros).2

end Venix.Libc.Crypt
