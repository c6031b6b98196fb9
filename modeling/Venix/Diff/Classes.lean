/-
  The lines that `diff` reads, and the classes that `equiv` makes of them.

  `prepare` reads a file up to the first line whose value is 0, which is also what `readhash` gives
  at the end of the file. What `stone` gets from `equiv` and `unsort`: each line of the first file
  has no class, or the index of the first member of one, and the serials of a class increase.
-/
import Venix.Diff.Model
import Mathlib.Data.List.GetD
import Mathlib.Data.List.TakeWhile

namespace Venix.Diff

open Venix.Lib Function

/-- A line of a file, without its newline. -/
abbrev Line := {l : List UInt8 // 10 ∉ l}

/-- A file whose lines all end in a newline. -/
def text (ls : List Line) : List UInt8 := ls.flatMap fun l => l.val ++ [10]

@[simp] theorem text_nil : text [] = [] := rfl

@[simp] theorem text_cons (l : Line) (ls : List Line) : text (l :: ls) = l.val ++ 10 :: text ls := by
  unfold text
  rw [List.flatMap_cons, List.append_assoc]
  rfl

theorem text_append (ls ls' : List Line) : text (ls ++ ls') = text ls ++ text ls' :=
  List.flatMap_append

/-! ## Reading -/

/-- The value of a line. -/
def hash (l : Line) : Int16 := (readhash false (l.val ++ [10])).1

theorem sumLine_line (l : List UInt8) (hl : 10 ∉ l) (sum : Int32) (shift : Nat) :
    ∃ s, ∀ f, sumLine (l ++ 10 :: f) sum shift = (some s, f) := by
  induction l generalizing sum shift with
  | nil => exact ⟨sum, fun f => rfl⟩
  | cons c l ih =>
    rw [List.mem_cons, not_or] at hl
    obtain ⟨s, hs⟩ := ih hl.2 (sum + Int32.ofNat c.toNat <<< Int32.ofNat (shift % 16))
      (shift % 16 + 7)
    refine ⟨s, fun f => ?_⟩
    rw [List.cons_append, sumLine, if_neg (Ne.symm hl.1)]
    exact hs f

theorem readhash_line (l : Line) (f : List UInt8) :
    readhash false (l.val ++ 10 :: f) = (hash l, f) := by
  obtain ⟨s, hs⟩ := sumLine_line l.val l.property 1 0
  simp only [hash, readhash, hs]
  rfl

/-- The lines that `prepare` finds. -/
def seen (ls : List Line) : List Line := ls.takeWhile fun l => decide (hash l ≠ 0)

theorem seen_eq_iff (ls : List Line) : seen ls = ls ↔ ∀ l ∈ ls, hash l ≠ 0 := by
  unfold seen
  rw [List.takeWhile_eq_self_iff]
  simp

/-- `prepare` reads the lines up to the first whose value is 0, with `-b` too. -/
theorem prepare_lines {bflag : Bool} {value : Line → Int16}
    (hread : ∀ l f, readhash bflag (l.val ++ 10 :: f) = (value l, f)) (ls : List Line) :
    prepare bflag (text ls) = some ((ls.takeWhile fun l => decide (value l ≠ 0)).map value) := by
  let Inv (s : List UInt8 × List Int16) : Prop :=
    ∃ ls', s.1 = text ls' ∧ (ls.takeWhile fun l => decide (value l ≠ 0)).map value =
      s.2 ++ (ls'.takeWhile fun l => decide (value l ≠ 0)).map value
  have hturn : ∀ s, Inv s →
      (∃ s', prepareTurn bflag s = some (.more s') ∧ Inv s' ∧ s'.1.length < s.1.length) ∨
      ∃ r, prepareTurn bflag s = some (.done r) ∧
        r = (ls.takeWhile fun l => decide (value l ≠ 0)).map value := by
    rintro ⟨f, vs⟩ ⟨ls', rfl, hvs⟩
    dsimp only at hvs
    cases ls' with
    | nil =>
      refine Or.inr ⟨vs, by cases bflag <;> rfl, ?_⟩
      rw [hvs]
      exact (List.append_nil vs).symm
    | cons l ls' =>
      simp only [prepareTurn, text_cons, hread]
      by_cases h0 : value l = 0
      · refine Or.inr ⟨vs, by rw [if_pos h0], ?_⟩
        rw [hvs, List.takeWhile_cons_of_neg (by simp [h0])]
        exact (List.append_nil vs).symm
      · refine Or.inl ⟨(text ls', vs ++ [value l]), by rw [if_neg h0], ⟨ls', rfl, ?_⟩, ?_⟩
        · rw [hvs, List.takeWhile_cons_of_pos (by simp [h0])]
          simp
        · simp only [List.length_append, List.length_cons]
          omega
  obtain ⟨r, h1, rfl⟩ := loop_spec Inv _ (fun s => s.1.length) hturn
    (show Inv (text ls, []) from ⟨ls, rfl, rfl⟩) (Nat.lt_succ_self _)
  exact h1

theorem prepare_text (ls : List Line) : prepare false (text ls) = some ((seen ls).map hash) :=
  prepare_lines readhash_line ls

theorem seen_ne_zero (ls : List Line) : ∀ v ∈ (seen ls).map hash, v ≠ 0 := by
  intro v hv
  obtain ⟨l, hl, rfl⟩ := List.mem_map.mp hv
  simpa using List.mem_takeWhile_imp hl

/-- A line that is found has a value other than 0. -/
theorem file_ne_zero {vs : List Int16} (hvs : ∀ v ∈ vs, v ≠ 0) {i : Nat} (hi : 1 ≤ i)
    (hi' : i ≤ vs.length) : (file vs i).value ≠ 0 := by
  obtain ⟨i, rfl⟩ : ∃ i', i = i' + 1 := ⟨i - 1, by omega⟩
  have hget : vs.getD i 0 = vs.get ⟨i, by omega⟩ := by
    rw [List.getD_eq_getElem _ _ (by omega)]
    rfl
  change (vs.getD i 0).toInt ≠ 0
  rw [hget]
  intro h
  refine hvs _ (List.get_mem vs ⟨i, by omega⟩) ?_
  rw [← Int16.toInt_inj, h]
  rfl

/-! ## The common beginning and end -/

theorem pref_spec (a b : Nat → Entry) (len₀ len₁ : Nat) :
    ∃ p, pref a b len₀ len₁ = some p ∧ p ≤ len₀ ∧ p ≤ len₁ := by
  have hbody : ∀ p, p ≤ len₀ ∧ p ≤ len₁ → (decide (p < len₀) && decide (p < len₁) &&
      decide ((a (p + 1)).value = (b (p + 1)).value)) = true →
      ∃ p', some (p + 1) = some p' ∧ (p' ≤ len₀ ∧ p' ≤ len₁) ∧ len₀ - p' < len₀ - p := by
    intro p hp hc
    simp only [Bool.and_eq_true, decide_eq_true_eq] at hc
    exact ⟨p + 1, rfl, ⟨by omega, by omega⟩, by omega⟩
  obtain ⟨p, h1, h2, -⟩ := whileLoop_spec (fun p => p ≤ len₀ ∧ p ≤ len₁) (fun p => len₀ - p) hbody
    ⟨by omega, by omega⟩ (show len₀ - 0 < len₀ + 1 by omega)
  exact ⟨p, h1, h2⟩

theorem suff_spec (a b : Nat → Entry) (len₀ len₁ pref : Nat) :
    ∃ s, suff a b len₀ len₁ pref = some s ∧ s ≤ len₀ - pref ∧ s ≤ len₁ - pref := by
  have hbody : ∀ s, s ≤ len₀ - pref ∧ s ≤ len₁ - pref → (decide (s < len₀ - pref) &&
      decide (s < len₁ - pref) && decide ((a (len₀ - s)).value = (b (len₁ - s)).value)) = true →
      ∃ s', some (s + 1) = some s' ∧ (s' ≤ len₀ - pref ∧ s' ≤ len₁ - pref) ∧
        len₀ - s' < len₀ - s := by
    intro s hs hc
    simp only [Bool.and_eq_true, decide_eq_true_eq] at hc
    exact ⟨s + 1, rfl, ⟨by omega, by omega⟩, by omega⟩
  obtain ⟨s, h1, h2, -⟩ := whileLoop_spec (fun s => s ≤ len₀ - pref ∧ s ≤ len₁ - pref)
    (fun s => len₀ - s) hbody ⟨by omega, by omega⟩ (show len₀ - 0 < len₀ + 1 by omega)
  exact ⟨s, h1, h2⟩

/-! ## Sorting -/

theorem less_iff (x y : Entry) :
    less x y = true ↔ x.value < y.value ∨ (y.value = x.value ∧ x.serial < y.serial) := by
  simp only [less, Bool.or_eq_true, Bool.and_eq_true, decide_eq_true_eq, gt_iff_lt]

theorem less_trans (x y z : Entry) (h1 : less x y = true) (h2 : less y z = true) :
    less x z = true := by
  rw [less_iff] at h1 h2 ⊢
  omega

/-- The entries 1 to `n` are sorted, and their serials are among 1 to `n`; no value is 0. -/
structure Sorted (n : Nat) (a : Nat → Entry) : Prop where
  sorted : Shell.Sorted less n a
  serial : ∀ i, 1 ≤ i → i ≤ n → 1 ≤ (a i).serial ∧ (a i).serial ≤ n
  value : ∀ i, 1 ≤ i → i ≤ n → (a i).value ≠ 0

/-- The loop that doubles `j` ends at the last power of 2 up to `n`. -/
theorem startGap_spec (n : Nat) : ∀ f j m, 1 ≤ j → j ≤ n → n < j + f →
    ∃ j', 1 ≤ j' ∧ j' ≤ n ∧ n < 2 * j' ∧ startGap n f j m = 2 * j' - 1 := by
  intro f
  induction f with
  | zero =>
    intro j m hj hn hf
    omega
  | succ f ih =>
    intro j m hj hn hf
    rw [startGap, if_pos hn]
    by_cases h2 : j * 2 ≤ n
    · exact ih (j * 2) (2 * j - 1) (by omega) h2 (by omega)
    · refine ⟨j, hj, hn, by omega, ?_⟩
      cases f with
      | zero => rfl
      | succ f => rw [startGap, if_neg h2]

theorem sort_spec {a : Nat → Entry} {n : Nat} (htotal : Shell.Total less n a) :
    ∃ b, sort a n = some b ∧ Shell.Rearranges n a b ∧ Shell.Sorted less n b := by
  unfold sort
  by_cases hn : n ≤ 1
  · have hgaps : Shell.gaps n (startGap n n 1 0 / 2) = [] := by
      obtain rfl | rfl : n = 0 ∨ n = 1 := by omega
      · rfl
      · rfl
    rw [hgaps]
    exact ⟨a, rfl, .refl n a, fun i j hi hij hj => by omega⟩
  · obtain ⟨j, -, hjn, hj2, hj⟩ := startGap_spec n n 1 0 (le_refl 1) (by omega) (by omega)
    obtain ⟨gs, hgs, hne⟩ := Shell.gaps_last n (startGap n n 1 0 / 2) (by omega) (by omega)
    rw [hgs]
    exact Shell.passes_sorted less_trans hne a htotal

/-- Two entries of different serials are in order one way or the other. -/
theorem sfile_total (a : Nat → Entry) (pref n : Nat) : Shell.Total less n (sfile a pref n) := by
  intro i j hi hj hne
  rw [less_iff, less_iff]
  unfold sfile
  rw [if_pos hi.2, if_pos hj.2]
  dsimp only
  omega

/-- The entries 1 to `n` are the lines 1 to `n` in some order, with the values `val`. -/
structure Listed (n : Nat) (val : Nat → Int) (b : Nat → Entry) : Prop where
  line : ∀ i, 1 ≤ i → i ≤ n → ∃ p, (1 ≤ p ∧ p ≤ n) ∧ b i = ⟨p, val p⟩
  entry : ∀ p, 1 ≤ p → p ≤ n → ∃ i, (1 ≤ i ∧ i ≤ n) ∧ b i = ⟨p, val p⟩

/-- The sorted lines of a file, but for the common ones. -/
theorem sort_sfile {vs : List Int16} (hvs : ∀ v ∈ vs, v ≠ 0) {pref n : Nat}
    (hn : pref + n ≤ vs.length) :
    ∃ b, sort (sfile (file vs) pref n) n = some b ∧ Sorted n b ∧
      Listed n (fun p => (file vs (p + pref)).value) b := by
  obtain ⟨b, h1, hre, hsorted⟩ := sort_spec (sfile_total (file vs) pref n)
  have hfrom : ∀ i, 1 ≤ i → i ≤ n → ∃ p, (1 ≤ p ∧ p ≤ n) ∧ b i = ⟨p, (file vs (p + pref)).value⟩ := by
    intro i hi hi'
    obtain ⟨p, hp, hb⟩ := hre.from ⟨hi, hi'⟩
    refine ⟨p, hp, ?_⟩
    rw [hb]
    unfold sfile
    rw [if_pos hp.2]
  refine ⟨b, h1, ⟨hsorted, fun i hi hi' => ?_, fun i hi hi' => ?_⟩, hfrom, fun p hp hp' => ?_⟩
  · obtain ⟨p, hp, hb⟩ := hfrom i hi hi'
    rw [hb]
    exact hp
  · obtain ⟨p, hp, hb⟩ := hfrom i hi hi'
    rw [hb]
    exact file_ne_zero hvs (by omega) (by omega)
  · obtain ⟨i, hi, hb⟩ := hre.to ⟨hp, hp'⟩
    refine ⟨i, hi, ?_⟩
    rw [hb]
    unfold sfile
    rw [if_pos hp']

/-! ## The classes -/

/-- Entry `j` is the first one of its value. -/
def First (b : Nat → Entry) (j : Nat) : Prop := j = 1 ∨ (b (j - 1)).value ≠ (b j).value

/-- What `equiv` puts in place of a value. -/
def Mated (b : Nat → Entry) (m : Nat) (v : Int) : Prop :=
  v = 0 ∨ ∃ j : Nat, 1 ≤ j ∧ j ≤ m ∧ First b j ∧ v = j

theorem setValue_self (a : Nat → Entry) (i : Nat) (v : Int) : (setValue a i v i).value = v := by
  unfold setValue
  rw [if_pos rfl]

theorem setValue_ne (a : Nat → Entry) {i k : Nat} (v : Int) (h : k ≠ i) :
    setValue a i v k = a k := by
  unfold setValue
  rw [if_neg h]

/-- The state of the first loop of `equiv`: the entries of `a` before `i` have got their values, and
those of `b` before `j` are less than those of `a` that are left. -/
structure Mating (a b : Nat → Entry) (n m : Nat) (s : Mate) : Prop where
  i_pos : 1 ≤ s.i
  j_pos : 1 ≤ s.j
  done : ∀ i, 1 ≤ i → i < s.i → Mated b m (s.a i).value
  rest : ∀ i, s.i ≤ i → s.a i = a i
  below : ∀ j i, 1 ≤ j → j < s.j → s.i ≤ i → i ≤ n → (b j).value < (a i).value

theorem Mating.setValue {a b : Nat → Entry} {n m : Nat} {s : Mate} (h : Mating a b n m s) {v : Int}
    (hv : Mated b m v) : Mating a b n m ⟨setValue s.a s.i v, s.i + 1, s.j⟩ := by
  refine ⟨Nat.le_add_left 1 s.i, h.j_pos, fun i hi hi' => ?_, fun i hi => ?_,
    fun j i hj hj' hi hi' => h.below j i hj hj' (by dsimp only at hi; omega) hi'⟩
  · dsimp only at hi' ⊢
    by_cases hs : i = s.i
    · rw [hs, setValue_self]
      exact hv
    · rw [setValue_ne _ _ hs]
      exact h.done i hi (by omega)
  · dsimp only at hi ⊢
    rw [setValue_ne _ _ (by omega)]
    exact h.rest i (by omega)

theorem less_value {x y : Entry} (h : less x y = true) : x.value ≤ y.value := by
  rw [less_iff] at h
  omega

theorem Mating.body {a b : Nat → Entry} {n m : Nat} (ha : Sorted n a) {s : Mate}
    (h : Mating a b n m s) (hi : s.i ≤ n) (hj : s.j ≤ m) : Mating a b n m (mateBody b s) := by
  unfold mateBody
  split
  · exact h.setValue (Or.inl rfl)
  · next hlt =>
    split
    · next heq =>
      refine h.setValue (Or.inr ⟨s.j, h.j_pos, hj, ?_, rfl⟩)
      by_cases h1 : s.j = 1
      · exact Or.inl h1
      · have := h.j_pos
        have := h.below (s.j - 1) s.i (by omega) (by omega) (le_refl _) hi
        rw [← h.rest s.i (le_refl _), heq] at this
        exact Or.inr this.ne
    · next hne =>
      refine ⟨h.i_pos, Nat.le_add_left 1 s.j, h.done, h.rest, fun j i hj hj' hi' hi'' => ?_⟩
      dsimp only at hj' hi'
      by_cases h1 : j = s.j
      · rw [h.rest s.i (le_refl _)] at hlt hne
        have : (a s.i).value ≤ (a i).value := by
          by_cases h2 : i = s.i
          · rw [h2]
          · exact less_value (ha.sorted s.i i h.i_pos (by omega) hi'')
        rw [h1]
        omega
      · exact h.below j i hj (by omega) hi' hi''

/-- What `equiv` puts in place of the value `v`: the first entry of `b` with it, or 0. -/
def Paired (b : Nat → Entry) (m : Nat) (v v' : Int) : Prop :=
  (v' = 0 ∧ ∀ j, 1 ≤ j → j ≤ m → (b j).value ≠ v) ∨
    ∃ j : Nat, 1 ≤ j ∧ j ≤ m ∧ First b j ∧ (b j).value = v ∧ v' = j

theorem Paired.mated {b : Nat → Entry} {m : Nat} {v v' : Int} (h : Paired b m v v') :
    Mated b m v' := by
  obtain ⟨h, -⟩ | ⟨j, hj, hjm, hfirst, -, h⟩ := h
  · exact Or.inl h
  · exact Or.inr ⟨j, hj, hjm, hfirst, h⟩

/-- The same, with what the new values are for. -/
structure Pairing (a b : Nat → Entry) (n m : Nat) (s : Mate) : Prop extends Mating a b n m s where
  serial : ∀ i, (s.a i).serial = (a i).serial
  paired : ∀ i, 1 ≤ i → i < s.i → Paired b m (a i).value (s.a i).value

theorem Pairing.setValue {a b : Nat → Entry} {n m : Nat} {s : Mate} (h : Pairing a b n m s) {v : Int}
    (hv : Paired b m (a s.i).value v) : Pairing a b n m ⟨setValue s.a s.i v, s.i + 1, s.j⟩ := by
  refine ⟨h.toMating.setValue hv.mated, fun i => ?_, fun i hi hi' => ?_⟩
  · refine Eq.trans ?_ (h.serial i)
    dsimp only [Diff.setValue]
    split
    · next hs => rw [hs]
    · rfl
  · dsimp only at hi' ⊢
    by_cases hs : i = s.i
    · rw [hs, setValue_self]
      exact hv
    · rw [setValue_ne _ _ hs]
      exact h.paired i hi (by omega)

/-- No entry of `b` has the value of one of `a` that is less than entry `j` of `b`. -/
theorem Pairing.none {a b : Nat → Entry} {n m : Nat} (hb : Sorted m b) {s : Mate}
    (h : Pairing a b n m s) (hi : s.i ≤ n) (hj : s.j ≤ m → (s.a s.i).value < (b s.j).value) :
    Paired b m (a s.i).value 0 := by
  rw [h.rest s.i (le_refl _)] at hj
  refine Or.inl ⟨rfl, fun j h1 h2 heq => ?_⟩
  by_cases hlt : j < s.j
  · exact absurd heq (h.below j s.i h1 hlt (le_refl _) hi).ne
  · have hle : (b s.j).value ≤ (b j).value := by
      by_cases he : s.j = j
      · rw [he]
      · exact less_value (hb.sorted s.j j h.j_pos (by omega) h2)
    have := hj (by omega)
    omega

theorem Pairing.body {a b : Nat → Entry} {n m : Nat} (ha : Sorted n a) (hb : Sorted m b) {s : Mate}
    (h : Pairing a b n m s) (hi : s.i ≤ n) (hj : s.j ≤ m) : Pairing a b n m (mateBody b s) := by
  have hm := h.toMating.body ha hi hj
  unfold mateBody at hm ⊢
  split
  · next hlt => exact h.setValue (h.none hb hi fun _ => hlt)
  · next hlt =>
    rw [if_neg hlt] at hm
    split
    · next heq =>
      rw [if_pos heq] at hm
      have hmated := hm.done s.i h.i_pos (Nat.lt_succ_self _)
      refine h.setValue (Or.inr ⟨s.j, h.j_pos, hj, ?_, ?_, rfl⟩)
      · obtain hz | ⟨j, hj1, -, hfirst, hv⟩ := hmated
        · rw [setValue_self] at hz
          have := h.j_pos
          omega
        · rw [setValue_self, Int.natCast_inj] at hv
          rwa [hv]
      · rw [← heq, h.rest s.i (le_refl _)]
    · next hne =>
      rw [if_neg hne] at hm
      exact ⟨hm, h.serial, h.paired⟩

theorem mate_spec {a b : Nat → Entry} {n m : Nat} (ha : Sorted n a) (hb : Sorted m b) :
    ∃ a', mate a n b m = some a' ∧ (∀ i, (a' i).serial = (a i).serial) ∧
      ∀ i, 1 ≤ i → i ≤ n → Paired b m (a i).value (a' i).value := by
  have hbody : ∀ s, Pairing a b n m s → (decide (s.i ≤ n) && decide (s.j ≤ m)) = true →
      ∃ s', some (mateBody b s) = some s' ∧ Pairing a b n m s' ∧
        n + 1 - s'.i + (m + 1 - s'.j) < n + 1 - s.i + (m + 1 - s.j) := by
    intro s hs hc
    simp only [Bool.and_eq_true, decide_eq_true_eq] at hc
    refine ⟨_, rfl, hs.body ha hb hc.1 hc.2, ?_⟩
    unfold mateBody
    split
    · dsimp only
      omega
    · split
      · dsimp only
        omega
      · dsimp only
        omega
  let Rest (s : Mate) : Prop := Pairing a b n m s ∧ (s.i ≤ n → m < s.j)
  have hrest : ∀ s, Rest s → decide (s.i ≤ n) = true →
      ∃ s', some (Mate.mk (setValue s.a s.i 0) (s.i + 1) s.j) = some s' ∧ Rest s' ∧
        n + 1 - s'.i < n + 1 - s.i := by
    rintro s ⟨hs, hj⟩ hc
    simp only [decide_eq_true_eq] at hc
    have hlt := hj hc
    refine ⟨_, rfl, ⟨hs.setValue (hs.none hb hc fun h => ?_), fun _ => hlt⟩, ?_⟩
    · omega
    · dsimp only
      omega
  have hstart : Pairing a b n m ⟨a, 1, 1⟩ :=
    ⟨⟨le_refl 1, le_refl 1, fun i hi hi' => absurd hi' (by dsimp only; omega), fun _ _ => rfl,
      fun j _ hj hj' => absurd hj' (by dsimp only; omega)⟩, fun _ => rfl,
      fun i hi hi' => absurd hi' (by dsimp only; omega)⟩
  obtain ⟨s, h1, h2, hc⟩ := whileLoop_spec (Pairing a b n m) _ hbody hstart
    (show n + 1 - 1 + (m + 1 - 1) < n + m + 1 by omega)
  simp only [Bool.and_eq_false_iff, decide_eq_false_iff_not] at hc
  obtain ⟨s', h3, ⟨h4, -⟩, h5⟩ := whileLoop_spec (n := n + 1) Rest (fun s => n + 1 - s.i)
    hrest ⟨h2, fun h => by omega⟩ (by have := h2.i_pos; omega)
  simp only [decide_eq_false_iff_not] at h5
  refine ⟨s'.a, ?_, h4.serial, fun i hi hi' => h4.paired i hi (by omega)⟩
  unfold mate
  rw [h1]
  simp only [Option.bind_eq_bind, Option.bind_some]
  rw [h3]
  rfl

/-- A member of a class: its serial, negated for the first one. -/
def Member (b : Nat → Entry) (j : Nat) (v : Int) : Prop :=
  (First b j → v = -(b j).serial) ∧ (¬First b j → v = (b j).serial)

theorem classRest_spec {b : Nat → Entry} {m : Nat} (hb : Sorted m b) {j : Nat} {c : Nat → Int}
    (hj : 1 ≤ j) (hjm : j ≤ m) (hc : ∀ j', 1 ≤ j' → j' ≤ j → Member b j' (c j')) :
    ∃ j₁ c₁, classRest (setValue b (m + 1) 0) m (j, c) = some (j₁, c₁) ∧ j ≤ j₁ ∧ j₁ ≤ m ∧
      (∀ j', 1 ≤ j' → j' ≤ j₁ → Member b j' (c₁ j')) ∧ (j₁ < m → First b (j₁ + 1)) := by
  let Inv (s : Nat × (Nat → Int)) : Prop :=
    j ≤ s.1 ∧ s.1 ≤ m ∧ ∀ j', 1 ≤ j' → j' ≤ s.1 → Member b j' (s.2 j')
  have hset : ∀ k, k ≤ m → setValue b (m + 1) 0 k = b k :=
    fun k hk => setValue_ne _ _ (by omega)
  have hbody : ∀ s, Inv s → decide ((setValue b (m + 1) 0 (s.1 + 1)).value =
      (setValue b (m + 1) 0 s.1).value) = true →
      ∃ s', some (s.1 + 1, update s.2 (s.1 + 1) ((setValue b (m + 1) 0 (s.1 + 1)).serial : Int)) =
        some s' ∧ Inv s' ∧ m - s'.1 < m - s.1 := by
    rintro ⟨k, d⟩ ⟨hk, hkm, hd⟩ heq
    dsimp only at hk hkm hd heq ⊢
    rw [decide_eq_true_eq] at heq
    have hlt : k < m := by
      by_contra h
      obtain rfl : k = m := by omega
      rw [setValue_self, hset k (le_refl k)] at heq
      exact hb.value k (by omega) (le_refl k) heq.symm
    rw [hset (k + 1) hlt, hset k hkm] at heq
    refine ⟨_, rfl, ⟨by dsimp only; omega, hlt, fun j' hj' hj'' => ?_⟩, by dsimp only; omega⟩
    dsimp only at hj'' ⊢
    by_cases h : j' = k + 1
    · subst h
      rw [update_self, hset (k + 1) hlt]
      refine ⟨fun hfirst => ?_, fun _ => rfl⟩
      rcases hfirst with h | h
      · omega
      · exact absurd heq.symm h
    · rw [update_of_ne h]
      exact hd j' hj' (by omega)
  obtain ⟨⟨j₁, c₁⟩, h1, ⟨h2, h3, h4⟩, h5⟩ := whileLoop_spec (n := m + 1) Inv (fun s => m - s.1) hbody
    (show Inv (j, c) from ⟨le_refl j, hjm, hc⟩) (by dsimp only; omega)
  refine ⟨j₁, c₁, h1, h2, h3, h4, fun hlt => Or.inr fun heq => ?_⟩
  dsimp only at h5
  rw [hset (j₁ + 1) hlt, hset j₁ h3, decide_eq_false_iff_not] at h5
  exact h5 heq.symm

theorem members_spec {b : Nat → Entry} {m : Nat} (hb : Sorted m b) :
    ∃ c, members b m = some c ∧ (∀ j, 1 ≤ j → j ≤ m → Member b j (c j)) ∧ c (m + 1) = -1 := by
  let Inv (s : Nat × (Nat → Int)) : Prop :=
    s.1 ≤ m ∧ (∀ j', 1 ≤ j' → j' ≤ s.1 → Member b j' (s.2 j')) ∧ (s.1 < m → First b (s.1 + 1))
  have hbody : ∀ s, Inv s → decide (s.1 + 1 ≤ m) = true →
      ∃ s', classRest (setValue b (m + 1) 0) m (s.1 + 1,
        update s.2 (s.1 + 1) (-((setValue b (m + 1) 0 (s.1 + 1)).serial : Int))) = some s' ∧
        Inv s' ∧ m - s'.1 < m - s.1 := by
    rintro ⟨k, d⟩ ⟨hk, hd, hfirst⟩ hlt
    dsimp only at hk hd hfirst hlt ⊢
    rw [decide_eq_true_eq] at hlt
    obtain ⟨j₁, c₁, h1, h2, h3, h4, h5⟩ := classRest_spec hb (j := k + 1)
      (c := update d (k + 1) (-((setValue b (m + 1) 0 (k + 1)).serial : Int))) (by omega) hlt
      (fun j' hj' hj'' => by
        by_cases h : j' = k + 1
        · subst h
          rw [update_self, setValue_ne _ _ (show k + 1 ≠ m + 1 by omega)]
          exact ⟨fun _ => rfl, fun h => absurd (hfirst hlt) h⟩
        · rw [update_of_ne h]
          exact hd j' hj' (by omega))
    exact ⟨(j₁, c₁), h1, ⟨h3, h4, h5⟩, by dsimp only; omega⟩
  obtain ⟨⟨k, c⟩, h1, ⟨h2, h3, -⟩, h5⟩ := whileLoop_spec (n := m + 1) Inv (fun s => m - s.1) hbody
    (show Inv (0, fun _ => 0) from ⟨by dsimp only; omega, fun j' hj' hj'' => by dsimp only at hj''; omega,
      fun _ => Or.inl rfl⟩) (by dsimp only; omega)
  dsimp only at h2 h3 h5
  rw [decide_eq_false_iff_not] at h5
  obtain rfl : k = m := by omega
  refine ⟨update c (k + 1) (-1), ?_, fun j hj hj' => ?_, update_self ..⟩
  · unfold members
    simp only [h1, Option.bind_eq_bind, Option.bind_some]
    rfl
  · rw [update_of_ne (by omega)]
    exact h3 j hj hj'

theorem unsort_spec {P : Int → Prop} (h0 : P 0) {f : Nat → Entry} {l : Nat}
    (hf : ∀ i, 1 ≤ i → i ≤ l → P (f i).value) :
    ∃ c, unsort f l = some c ∧ ∀ i, P (c i) := by
  have hstep : ∀ i (c : Nat → Int), 1 ≤ i → i < 1 + l → (∀ k, P (c k)) →
      ∃ c', some (update c (f i).serial (f i).value) = some c' ∧ ∀ k, P (c' k) := by
    intro i c hi hi' hc
    refine ⟨_, rfl, fun k => ?_⟩
    by_cases h : k = (f i).serial
    · rw [h, update_self]
      exact hf i hi (by omega)
    · rw [update_of_ne h]
      exact hc k
  exact foldlM_range'_spec (fun _ (c : Nat → Int) => ∀ k, P (c k)) hstep fun _ => h0

/-- What `stone` gets: `ser j` is the serial of member `j`. -/
structure Classes (m : Nat) (a b : Nat → Int) (ser : Nat → Nat) : Prop where
  serial : ∀ j, 1 ≤ j → j ≤ m → 1 ≤ ser j ∧ ser j ≤ m
  later : ∀ j, 1 ≤ j → j ≤ m → 0 < b j → b j = ser j ∧ ser (j - 1) < ser j
  last : b (m + 1) = -1
  cls : ∀ i, a i = 0 ∨ ∃ j : Nat, 1 ≤ j ∧ j ≤ m ∧ a i = j ∧ b j = -ser j

theorem classes_spec {s₀ s₁ : Nat → Entry} {n m : Nat} (h₀ : Sorted n s₀) (h₁ : Sorted m s₁) :
    ∃ s₀' a b, mate s₀ n s₁ m = some s₀' ∧ members s₁ m = some b ∧ unsort s₀' n = some a ∧
      Classes m a b fun j => (s₁ j).serial := by
  obtain ⟨s₀', h2, -, h3⟩ := mate_spec h₀ h₁
  obtain ⟨b, h4, h5, h6⟩ := members_spec h₁
  obtain ⟨a, h7, h8⟩ := unsort_spec (P := Mated s₁ m) (Or.inl rfl)
    fun i hi hi' => (h3 i hi hi').mated
  refine ⟨s₀', a, b, h2, h4, h7, h₁.serial, fun j hj hj' hpos => ?_, h6, fun i => ?_⟩
  · by_cases hfirst : First s₁ j
    · have := (h5 j hj hj').1 hfirst
      omega
    · refine ⟨(h5 j hj hj').2 hfirst, ?_⟩
      unfold First at hfirst
      rw [not_or, not_not] at hfirst
      have := h₁.sorted (j - 1) j (by omega) (by omega) hj'
      rw [less_iff] at this
      omega
  · rcases h8 i with h | ⟨j, hj, hj', hfirst, hv⟩
    · exact Or.inl h
    · exact Or.inr ⟨j, hj, hj', hv, (h5 j hj hj').1 hfirst⟩

end Venix.Diff
