/-
  What `comm` prints: the merge of the two files, in columns.

  The order of `compare` is the one of the lists of signed characters with the NUL at the end.
-/
import Mathlib.Data.List.Lex
import Venix.Comm.Comm

namespace Venix.Comm

open Venix.Lib

/-! ## The order -/

/-- The characters as `compare` sees them. -/
def key (cs : List UInt8) : List Int := cs.map (fun c => c.toInt8.toInt) ++ [0]

theorem char_inj {a b : UInt8} (h : a.toInt8.toInt = b.toInt8.toInt) : a = b := by
  have := Int8.toInt_inj.mp h
  rw [← a.toUInt8_toInt8, this, b.toUInt8_toInt8]

theorem char_zero {a : UInt8} : a.toInt8.toInt = 0 ↔ a = 0 :=
  ⟨fun h => char_inj h, fun h => by rw [h]; rfl⟩

theorem key_cons (a : UInt8) (as : List UInt8) : key (a :: as) = a.toInt8.toInt :: key as := rfl

theorem key_inj {as bs : List UInt8} (h : key as = key bs) : as = bs := by
  unfold key at h
  exact List.map_injective_iff.mpr (fun _ _ => char_inj) (List.append_cancel_right h)

instance : LinearOrder Str :=
  LinearOrder.lift' (fun s => key s.chars) fun a b h => by
    cases a
    cases b
    cases key_inj h
    rfl

theorem str_lt {a b : Str} : a < b ↔ key a.chars < key b.chars := Iff.rfl

theorem nil_lt_iff {c : UInt8} {cs : List UInt8} (hc : c ≠ 0) :
    key [] < key (c :: cs) ↔ 0 < c.toInt8.toInt := by
  have hne : ¬0 = c.toInt8.toInt := fun h => hc (char_zero.mp h.symm)
  rw [key_cons, show key [] = 0 :: [] from rfl, List.cons_lt_cons_iff]
  simp [hne]

theorem lt_nil_iff {c : UInt8} {cs : List UInt8} (hc : c ≠ 0) :
    key (c :: cs) < key [] ↔ c.toInt8.toInt < 0 := by
  rw [key_cons, show key [] = 0 :: [] from rfl, List.cons_lt_cons_iff]
  simp [mt char_zero.mp hc]

theorem cons_lt_iff {a b : UInt8} {as bs : List UInt8} (hab : a ≠ b) :
    key (a :: as) < key (b :: bs) ↔ a.toInt8.toInt < b.toInt8.toInt := by
  rw [key_cons, key_cons, List.cons_lt_cons_iff]
  simp [mt char_inj hab]

theorem compareChars_eq {as bs : List UInt8} (ha : 0 ∉ as) (hb : 0 ∉ bs) :
    compareChars as bs = if as = bs then 0 else if key as < key bs then 1 else 2 := by
  induction as generalizing bs with
  | nil =>
    cases bs with
    | nil => rfl
    | cons b bs =>
      have hb0 : b ≠ 0 := fun h => hb (h ▸ List.mem_cons_self)
      simp only [compareChars, reduceCtorEq, if_false, nil_lt_iff hb0, Int8.lt_iff_toInt_lt]
      rfl
  | cons a as ih =>
    have ha0 : a ≠ 0 := fun h => ha (h ▸ List.mem_cons_self)
    cases bs with
    | nil =>
      simp only [compareChars, reduceCtorEq, if_false, lt_nil_iff ha0, Int8.lt_iff_toInt_lt]
      rfl
    | cons b bs =>
      unfold compareChars
      by_cases hab : a = b
      · subst hab
        rw [if_pos rfl, ih (mt (List.mem_cons_of_mem _) ha) (mt (List.mem_cons_of_mem _) hb), key_cons,
          key_cons]
        simp only [List.cons.injEq, true_and, List.cons_lt_cons_iff, lt_irrefl, false_or]
      · rw [if_neg hab, if_neg (fun h => hab (List.cons.inj h).1)]
        simp only [cons_lt_iff hab, Int8.lt_iff_toInt_lt]

theorem compare_eq (a b : Str) : compare a b = if a = b then 0 else if a < b then 1 else 2 := by
  unfold compare
  rw [compareChars_eq a.noNul b.noNul]
  simp only [str_lt]
  congr 1
  exact propext ⟨fun h => by cases a; cases b; cases h; rfl, congrArg _⟩

theorem le_iff_compare {a b : Str} : a ≤ b ↔ compare a b ≠ 2 := by
  rw [compare_eq]
  rcases lt_trichotomy a b with h | h | h
  · simp [h.ne, h, h.le]
  · simp [h]
  · simp [h.ne', h.not_gt, h]

/-! ## Reading -/

/-- A line that fits the buffer. -/
def IsLine (s : Str) : Prop := 10 ∉ s.chars ∧ s.chars.length ≤ 254

/-- A file of these lines. -/
def text (ss : List Str) : List UInt8 := ss.flatMap fun s => s.chars ++ [10]

theorem rdLoop_line {cs : List UInt8} (h10 : 10 ∉ cs) (rest : List UInt8) {i : Nat} {buf : List UInt8}
    (hlen : i + cs.length ≤ 254) :
    ∃ s, rdLoop i buf (cs ++ 10 :: rest) = some (s, rest) ∧
      s.chars = (buf ++ cs).takeWhile (· ≠ 0) := by
  induction cs generalizing i buf with
  | nil => exact ⟨_, if_pos (.inl rfl), by rw [List.append_nil]⟩
  | cons c cs ih =>
    have hc : ¬(c = 10 ∨ i > LB - 2) := by
      rintro (rfl | hi)
      · exact h10 List.mem_cons_self
      · rw [List.length_cons] at hlen
        exact absurd hi (by unfold LB; omega)
    obtain ⟨s, hs, hchars⟩ := @ih (mt (List.mem_cons_of_mem _) h10) (i + 1) (buf ++ [c])
      (by rw [List.length_cons] at hlen; omega)
    refine ⟨s, (if_neg hc).trans hs, ?_⟩
    rw [hchars, List.append_assoc, List.singleton_append]

theorem rd_line {s : Str} (hs : IsLine s) (ss : List Str) : rd (text (s :: ss)) = some (s, text ss) := by
  have htext : text (s :: ss) = s.chars ++ 10 :: text ss := by simp [text]
  obtain ⟨s', hrd, hchars⟩ := @rdLoop_line _ hs.1 (text ss) 0 [] (by
    have := hs.2
    omega)
  have hall : s.chars.takeWhile (· ≠ 0) = s.chars :=
    List.takeWhile_eq_self_iff.mpr fun c hc => by
      simpa using fun h : c = 0 => s.noNul (h ▸ hc)
  rw [List.nil_append, hall] at hchars
  rw [htext]
  refine hrd.trans ?_
  cases s
  cases s'
  cases hchars
  rfl

/-! ## The loops -/

variable {o : Opts}

/-- What is printed for lines and their columns. -/
def lines (o : Opts) (out : List (Nat × Str)) : List UInt8 := out.flatMap fun p => wr o p.2 p.1

theorem copy_run {n fuel : Nat} {s : Str} {ss : List Str} (hss : ∀ s ∈ ss, IsLine s)
    (hfuel : ss.length < fuel) :
    copy o fuel (text ss) s n = some (lines o ((s :: ss).map (n, ·))) := by
  induction ss generalizing s fuel with
  | nil =>
    obtain ⟨f, rfl⟩ := Nat.exists_eq_add_of_lt hfuel
    simp [copy, rd, text, rdLoop, lines]
  | cons t ss ih =>
    obtain ⟨f, rfl⟩ : ∃ f, fuel = f + 1 := ⟨fuel - 1, by omega⟩
    have hih := @ih f t (fun s hs => hss s (List.mem_cons_of_mem _ hs))
      (by rw [List.length_cons] at hfuel; omega)
    simp only [copy, rd_line (hss t List.mem_cons_self), hih]
    rfl

theorem rd_nil : rd (text []) = none := rfl

theorem lines_cons (n : Nat) (s : Str) (out : List (Nat × Str)) :
    lines o ((n, s) :: out) = wr o s n ++ lines o out := List.flatMap_cons

/-- One of the files has ended. -/
theorem copy_one {x : Str} {xs : List Str} (hxs : ∀ s ∈ xs, IsLine s) {fuel : Nat}
    (hfuel : xs.length < fuel) :
    copy o fuel (text xs) x 1 = some (lines o (merged 1 2 3 (x :: xs) [])) := by
  rw [merged_nil_right]
  exact copy_run hxs hfuel

theorem copy_two {y : Str} {ys : List Str} (hys : ∀ s ∈ ys, IsLine s) {fuel : Nat}
    (hfuel : ys.length < fuel) :
    copy o fuel (text ys) y 2 = some (lines o (merged 1 2 3 [] (y :: ys))) := by
  rw [merged_nil_left]
  exact copy_run hys hfuel

theorem mainLoop_run {fuel : Nat} {x y : Str} {xs ys : List Str} (hxs : ∀ s ∈ xs, IsLine s)
    (hys : ∀ s ∈ ys, IsLine s) (hfuel : xs.length + ys.length + 1 < fuel) :
    mainLoop o fuel (text xs) x (text ys) y = some (lines o (merged 1 2 3 (x :: xs) (y :: ys))) := by
  have htail : ∀ {t : Str} {ss : List Str}, (∀ s ∈ t :: ss, IsLine s) → ∀ s ∈ ss, IsLine s :=
    fun h s hs => h s (List.mem_cons_of_mem _ hs)
  induction fuel generalizing x y xs ys with
  | zero => exact absurd hfuel (Nat.not_lt_zero _)
  | succ fuel ih =>
    rw [mainLoop, compare_eq, merged_cons]
    rcases lt_trichotomy x y with hlt | rfl | hgt
    · -- the line of the first file
      rw [if_neg hlt.ne, if_pos hlt, if_neg hlt.ne, if_pos hlt, lines_cons, if_neg Nat.one_ne_zero,
        if_pos rfl]
      cases xs with
      | nil =>
        have hrest := copy_two (o := o) (y := y) hys (show ys.length < fuel by
          rw [List.length_nil] at hfuel
          omega)
        rw [rd_nil]
        exact Option.bind_eq_some_iff.mpr ⟨_, hrest, rfl⟩
      | cons x' xs =>
        have hrest := ih (x := x') (y := y) (htail hxs) hys (by rw [List.length_cons] at hfuel; omega)
        rw [rd_line (hxs x' List.mem_cons_self)]
        exact Option.bind_eq_some_iff.mpr ⟨_, hrest, rfl⟩
    · -- the line of both
      rw [if_pos rfl, if_pos rfl, if_pos rfl, lines_cons]
      cases xs with
      | nil =>
        cases ys with
        | nil => simp [rd_nil, lines]
        | cons y ys =>
          have hrest := copy_two (o := o) (y := y) (htail hys) (show ys.length < fuel by
            rw [List.length_nil, List.length_cons] at hfuel
            omega)
          rw [rd_nil, rd_line (hys y List.mem_cons_self)]
          exact Option.bind_eq_some_iff.mpr ⟨_, hrest, rfl⟩
      | cons x' xs =>
        rw [rd_line (hxs x' List.mem_cons_self)]
        cases ys with
        | nil =>
          have hrest := copy_one (o := o) (x := x') (htail hxs) (show xs.length < fuel by
            rw [List.length_nil, List.length_cons] at hfuel
            omega)
          rw [rd_nil]
          exact Option.bind_eq_some_iff.mpr ⟨_, hrest, rfl⟩
        | cons y ys =>
          have hrest := ih (x := x') (y := y) (htail hxs) (htail hys)
            (by rw [List.length_cons, List.length_cons] at hfuel; omega)
          rw [rd_line (hys y List.mem_cons_self)]
          exact Option.bind_eq_some_iff.mpr ⟨_, hrest, rfl⟩
    · -- the line of the second file
      rw [if_neg hgt.ne', if_neg hgt.not_gt, if_neg hgt.ne', if_neg hgt.not_gt, lines_cons,
        if_neg (by decide), if_neg (by decide)]
      cases ys with
      | nil =>
        have hrest := copy_one (o := o) (x := x) hxs (show xs.length < fuel by
          rw [List.length_nil] at hfuel
          omega)
        rw [rd_nil]
        exact Option.bind_eq_some_iff.mpr ⟨_, hrest, rfl⟩
      | cons y' ys =>
        have hrest := ih (x := x) (y := y') hxs (htail hys) (by rw [List.length_cons] at hfuel; omega)
        rw [rd_line (hys y' List.mem_cons_self)]
        exact Option.bind_eq_some_iff.mpr ⟨_, hrest, rfl⟩

theorem main_run {fuel : Nat} {xs ys : List Str} (hxs : ∀ s ∈ xs, IsLine s) (hys : ∀ s ∈ ys, IsLine s)
    (hfuel : xs.length + ys.length ≤ fuel) :
    main o fuel (text xs) (text ys) = some (lines o (merged 1 2 3 xs ys)) := by
  unfold main
  cases xs with
  | nil =>
    cases ys with
    | nil => simp [rd_nil, lines]
    | cons y ys =>
      rw [rd_nil, rd_line (hys y List.mem_cons_self)]
      exact copy_two (fun s hs => hys s (List.mem_cons_of_mem _ hs)) (by simpa using hfuel)
  | cons x xs =>
    rw [rd_line (hxs x List.mem_cons_self)]
    cases ys with
    | nil =>
      rw [rd_nil]
      exact copy_one (fun s hs => hxs s (List.mem_cons_of_mem _ hs)) (by simpa using hfuel)
    | cons y ys =>
      rw [rd_line (hys y List.mem_cons_self)]
      exact mainLoop_run (fun s hs => hxs s (List.mem_cons_of_mem _ hs))
        (fun s hs => hys s (List.mem_cons_of_mem _ hs))
        (by simp only [List.length_cons] at hfuel; omega)

/-! ## Columns -/

/-- The leader of a column has a tab for each column in front of it that is printed. -/
structure Opts.Led (o : Opts) : Prop where
  ldr1 : o.ldr1 = List.replicate (if o.one then 0 else 1) 9
  ldr2 : o.ldr2 = List.replicate ((if o.one then 0 else 1) + (if o.two then 0 else 1)) 9
  l : o.l = 1 - (if o.one then 1 else 0) - (if o.two then 1 else 0)

theorem Opts.Led.option (ho : o.Led) {c : UInt8} {o' : Opts} (h : o.option c = some o') : o'.Led := by
  obtain ⟨h1, h2, hl⟩ := ho
  unfold Opts.option at h
  split at h
  · split at h
    · cases h
      exact ⟨h1, h2, hl⟩
    · next hone =>
      cases h
      rw [if_neg hone] at h2 hl
      exact ⟨rfl, by cases htwo : o.two <;> simp [h2, hl, htwo], by cases htwo : o.two <;> simp [hl, htwo]⟩
  · split at h
    · split at h
      · cases h
        exact ⟨h1, h2, hl⟩
      · next htwo =>
        cases h
        rw [if_neg htwo] at h2 hl
        exact ⟨h1, by cases hone : o.one <;> simp [h2, hl, hone], by cases hone : o.one <;> simp [hl, hone]⟩
    · split at h
      · cases h
        exact ⟨h1, h2, hl⟩
      · cases h

theorem options_led {cs : List UInt8} (h : options cs = some o) : o.Led := by
  unfold options at h
  have hstart : ({} : Opts).Led := ⟨rfl, rfl, rfl⟩
  generalize ({} : Opts) = o₀ at h hstart
  induction cs generalizing o₀ with
  | nil =>
    cases h
    exact hstart
  | cons c cs ih =>
    rw [List.foldlM_cons] at h
    obtain ⟨o₁, h₁, h⟩ := Option.bind_eq_some_iff.mp h
    exact ih o₁ h (hstart.option h₁)

/-! ## The output -/

/-- The order of the files. -/
def Sorted (ss : List Str) : Prop := ss.Pairwise fun a b => compare a b ≠ 2

/-- A line with its leader. -/
def Opts.printed (o : Opts) (p : Nat × Str) : List UInt8 := o.leader p.1 ++ p.2.chars ++ [10]

theorem sorted_iff {ss : List Str} : Sorted ss ↔ ss.Pairwise (· ≤ ·) := by
  unfold Sorted
  simp only [← le_iff_compare]

theorem lines_eq (out : List (Nat × Str)) :
    lines o out = (out.filter fun p => !o.skips p.1).flatMap o.printed := by
  induction out with
  | nil => rfl
  | cons p out ih =>
    rw [lines_cons p.1 p.2, ih]
    unfold wr
    cases hskip : o.skips p.1 with
    | false =>
      rw [List.filter_cons_of_pos (by rw [hskip]; rfl)]
      rfl
    | true =>
      rw [List.filter_cons_of_neg (by rw [hskip]; decide)]
      rfl

theorem count_shown (out : List (Nat × Str)) (n : Nat) (a : Str) :
    (out.filter fun p => !o.skips p.1).count (n, a) =
      if o.skips n then 0 else out.count (n, a) := by
  cases hskip : o.skips n with
  | false => rw [List.count_filter (by rw [hskip]; rfl), if_neg Bool.false_ne_true]
  | true =>
    rw [if_pos rfl, List.count_eq_zero]
    intro hmem
    have := (List.mem_filter.mp hmem).2
    rw [hskip] at this
    exact absurd this (by decide)

/-- Each line is printed in column 3 as often as both files have it, and in column 1 or 2 as often as
its file has it more often; lines of a column with a flag are left out. -/
theorem comm_columns (o : Opts) {xs ys : List Str} (hxs : ∀ s ∈ xs, IsLine s)
    (hys : ∀ s ∈ ys, IsLine s) (hsx : Sorted xs) (hsy : Sorted ys) :
    ∃ out : List (Nat × Str),
      (∀ fuel ≥ xs.length + ys.length,
        main o fuel (text xs) (text ys) = some (out.flatMap o.printed)) ∧
      Sorted (out.map Prod.snd) ∧ (∀ p ∈ out, p.1 = 1 ∨ p.1 = 2 ∨ p.1 = 3) ∧
      ∀ a, out.count (1, a) = (if o.one then 0 else xs.count a - ys.count a) ∧
        out.count (2, a) = (if o.two then 0 else ys.count a - xs.count a) ∧
        out.count (3, a) = (if o.three then 0 else min (xs.count a) (ys.count a)) := by
  rw [sorted_iff] at hsx hsy
  refine ⟨(merged 1 2 3 xs ys).filter fun p => !o.skips p.1, fun fuel hfuel => ?_, ?_, fun p hp => ?_,
    fun a => ?_⟩
  · rw [main_run hxs hys hfuel, lines_eq]
  · rw [sorted_iff]
    exact (merged_sorted hsx hsy).sublist (List.filter_sublist.map _)
  · exact (mem_merged (List.mem_filter.mp hp).1).1
  · obtain ⟨h3, h1, h2⟩ := count_merged (l := 1) (r := 2) (b := 3) (by decide) (by decide) (by decide)
      hsx hsy a
    rw [count_shown, count_shown, count_shown, h1, h2, h3]
    exact ⟨rfl, rfl, rfl⟩

/-- Files with the line "a" twice, and once with "b" behind it. -/
theorem comm_columns_two :
    ∃ out : List (Nat × Str), (∀ fuel ≥ 4, main {} fuel [97, 10, 97, 10] [97, 10, 98, 10] =
      some (out.flatMap ({} : Opts).printed)) ∧ out.count (1, ⟨[97], by decide⟩) = 1 ∧
      out.count (2, ⟨[98], by decide⟩) = 1 ∧ out.count (3, ⟨[97], by decide⟩) = 1 := by
  obtain ⟨out, hmain, -, -, hcount⟩ := @comm_columns {}
    [⟨[97], by decide⟩, ⟨[97], by decide⟩] [⟨[97], by decide⟩, ⟨[98], by decide⟩]
    (by simp [IsLine]) (by simp [IsLine]) (by simp [Sorted, compare, compareChars])
    (by simp [Sorted, compare, compareChars])
  exact ⟨out, hmain, (hcount ⟨[97], by decide⟩).1, (hcount ⟨[98], by decide⟩).2.1,
    (hcount ⟨[97], by decide⟩).2.2⟩

end Venix.Comm
