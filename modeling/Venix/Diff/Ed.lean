/-
  The script of `diff -e`, read by an editor.

  The editor knows the commands `a`, `c` and `d` after one or two line numbers; the text after `a`
  and `c` ends at a line that is a single period. The commands come from the last change to the
  first, so the numbers are those of the first file. Where no inserted line is a single period the
  script makes the lines that `prepare` saw of the first file into those of the second. Where one
  is, the editor takes the rest of the insertion for commands; each of them gives no line more than
  the script has for it, so that the result is too short, or the editor stops at a line that is no
  command.
-/
import Venix.Diff.Output

namespace Venix.Diff

open Venix.Lib Function

/-! ## The editor -/

/-- The lines of a text, after the characters `l` of a first one. -/
def linesFrom (l : List UInt8) : List UInt8 → List (List UInt8)
  | [] => if l = [] then [] else [l]
  | c :: f => if c = 10 then l :: linesFrom [] f else linesFrom (l ++ [c]) f

def digit (c : UInt8) : Bool := decide (48 ≤ c) && decide (c ≤ 57)

def number (l : List UInt8) : Option (Nat × List UInt8) :=
  if l.takeWhile digit = [] then none
  else some (ofNumeral 10 ((l.takeWhile digit).map fun c => c.toNat - 48), l.dropWhile digit)

/-- The numbers before a command, and its letter. -/
def parse (l : List UInt8) : Option (Nat × Nat × UInt8) := do
  let (x, l) ← number l
  match l with
  | [] => none
  | c :: l =>
    if c = 44 then do
      let (y, l) ← number l
      match l with
      | [c] => some (x, y, c)
      | _ => none
    else if l = [] then some (x, x, c)
    else none

/-- The lines, and in the text of an insertion the number of the line that it comes after. -/
structure Ed where
  buf : List (List UInt8)
  ins : Option Nat

def command (e : Ed) (x y : Nat) (c : UInt8) : Option Ed :=
  if c = 97 ∧ x ≤ y ∧ y ≤ e.buf.length then some ⟨e.buf, some y⟩
  else if 1 ≤ x ∧ x ≤ y ∧ y ≤ e.buf.length then
    if c = 99 then some ⟨e.buf.take (x - 1) ++ e.buf.drop y, some (x - 1)⟩
    else if c = 100 then some ⟨e.buf.take (x - 1) ++ e.buf.drop y, none⟩
    else none
  else none

def period : List UInt8 := [46]

def edLine (e : Ed) (l : List UInt8) : Option Ed :=
  match e.ins with
  | some p =>
    if l = period then some ⟨e.buf, none⟩
    else some ⟨e.buf.take p ++ l :: e.buf.drop p, some (p + 1)⟩
  | none => do
    let (x, y, c) ← parse l
    command e x y c

/-- The lines after a script. -/
def ed (script : List UInt8) (buf : List (List UInt8)) : Option (List (List UInt8)) :=
  ((linesFrom [] script).foldlM edLine ⟨buf, none⟩).map Ed.buf

/-! ## The lines of a script -/

theorem linesFrom_line (l : List UInt8) (hl : 10 ∉ l) (l₀ f : List UInt8) :
    linesFrom l₀ (l ++ 10 :: f) = (l₀ ++ l) :: linesFrom [] f := by
  induction l generalizing l₀ with
  | nil =>
    rw [List.nil_append, linesFrom, if_pos rfl, List.append_nil]
  | cons c l ih =>
    rw [List.mem_cons, not_or] at hl
    rw [List.cons_append, linesFrom, if_neg (Ne.symm hl.1), ih hl.2, List.append_assoc]
    rfl

theorem linesFrom_text (ls : List Line) (f : List UInt8) :
    linesFrom [] (text ls ++ f) = ls.map Subtype.val ++ linesFrom [] f := by
  induction ls with
  | nil => rfl
  | cons l ls ih =>
    rw [text_cons, List.append_assoc, List.cons_append, linesFrom_line _ l.property, ih]
    rfl

/-- What `range` and `letter` print. -/
def commandLine (h : Hunk) : List UInt8 := range h.a h.b [44] ++ [letter h]

/-- The lines for a call of `change`. -/
def hunkLines (f₁ : List Line) (h : Hunk) : List (List UInt8) :=
  if h.proper then
    commandLine h :: ((slice f₁ h.c h.d).map Subtype.val ++ if h.c ≤ h.d then [period] else [])
  else []

theorem copy_line (l f : List UInt8) : copy (l.length + 1) (l ++ 10 :: f) = l ++ [10] := by
  induction l with
  | nil => rfl
  | cons c l ih => rw [List.length_cons, List.cons_append, copy, ih, List.cons_append]

theorem seek_text (ls : List Line) (j : Nat) : seek (text ls) (off ls j) = text (ls.drop j) := by
  have hsplit : text ls = text (ls.take j) ++ text (ls.drop j) := by
    rw [← text_append, List.take_append_drop]
  unfold seek off
  rw [if_neg (by omega), Int.toNat_natCast, hsplit, List.drop_left]

/-- The lines `q + 1` to `q + k` of the second file. -/
theorem fetch_text {f₁ : List Line} {ix : Nat → Int} {n q k : Nat} (hn : n ≤ f₁.length)
    (hk : q + k ≤ n) (hix : ∀ j, j ≤ n → ix j = off f₁ j)
    (hshort : ∀ j, q < j → j ≤ q + k → ShortAt f₁ j) :
    fetch ix (q + 1) (q + k) (text f₁) [] = text (slice f₁ (q + 1) (q + k)) := by
  unfold fetch slice
  rw [Nat.add_sub_cancel, show q + k + 1 - (q + 1) = k by omega]
  induction k generalizing q with
  | zero => rfl
  | succ k ih =>
    have hlt : q < f₁.length := by omega
    have hs : Short (f₁.get ⟨q, hlt⟩) :=
      hshort (q + 1) (by omega) (by omega) _ (List.getElem?_eq_getElem hlt)
    have hnc : (Int16.ofInt (ix (q + 1) - ix (q + 1 - 1))).toInt.toNat =
        (f₁.get ⟨q, hlt⟩).val.length + 1 := by
      unfold Short at hs
      rw [Nat.add_sub_cancel, hix (q + 1) (by omega), hix q (by omega), off_succ hlt,
        Int16.toInt_ofInt_of_le (by omega) (by omega)]
      omega
    rw [List.range'_succ, List.flatMap_cons, List.drop_eq_getElem_cons hlt, List.take_succ_cons,
      text_cons, ih (by omega) fun j hj hj' => hshort j (by omega) (by omega)]
    dsimp only
    rw [hnc, Nat.add_sub_cancel, hix q (by omega), seek_text, text_drop hlt, copy_line,
      List.nil_append, List.append_assoc]
    rfl

theorem printd_digits (n : Nat) : ∀ c ∈ printd n, digit c = true := by
  intro c hc
  obtain ⟨d, hd, rfl⟩ := List.mem_map.mp hc
  have hlt := numeral_lt (show 1 < 10 by omega) n d hd
  unfold digit
  rw [Bool.and_eq_true, decide_eq_true_eq, decide_eq_true_eq, UInt8.le_iff_toNat_le,
    UInt8.le_iff_toNat_le, UInt8.toNat_ofNat_of_lt' (by change 48 + d < 256; omega)]
  change 48 ≤ 48 + d ∧ 48 + d ≤ 57
  omega

theorem number_printd (n : Nat) {c : UInt8} (hc : digit c = false) (l : List UInt8) :
    number (printd n ++ c :: l) = some (n, c :: l) := by
  have htake : (printd n ++ c :: l).takeWhile digit = printd n := by
    rw [List.takeWhile_append_of_pos (printd_digits n),
      List.takeWhile_cons_of_neg (by rw [hc]; exact Bool.false_ne_true), List.append_nil]
  have hdrop : (printd n ++ c :: l).dropWhile digit = c :: l := by
    rw [List.dropWhile_append_of_pos (printd_digits n),
      List.dropWhile_cons_of_neg (by rw [hc]; exact Bool.false_ne_true)]
  have hne : printd n ≠ [] := fun h => numeral_ne_nil n (List.map_eq_nil_iff.mp h)
  have hmap : (printd n).map (fun c => c.toNat - 48) = numeral 10 n := by
    unfold printd
    rw [List.map_map]
    refine (List.map_congr_left fun d hd => ?_).trans (List.map_id _)
    have hlt := numeral_lt (show 1 < 10 by omega) n d hd
    change (UInt8.ofNat (48 + d)).toNat - 48 = d
    rw [UInt8.toNat_ofNat_of_lt' (by change 48 + d < 256; omega)]
    omega
  unfold number
  rw [htake, hdrop, if_neg hne, hmap, ofNumeral_numeral]

theorem letter_cases (h : Hunk) : letter h = 97 ∨ letter h = 99 ∨ letter h = 100 := by
  unfold letter
  split
  · exact Or.inl rfl
  · split
    · exact Or.inr (Or.inr rfl)
    · exact Or.inr (Or.inl rfl)

theorem digit_letter (h : Hunk) : digit (letter h) = false := by
  rcases letter_cases h with hl | hl | hl
  · rw [hl]
    rfl
  · rw [hl]
    rfl
  · rw [hl]
    rfl

theorem parse_commandLine (h : Hunk) :
    parse (commandLine h) = some (if h.a > h.b then h.b else h.a, h.b, letter h) := by
  have h44 : letter h ≠ 44 := by
    rcases letter_cases h with hl | hl | hl
    · rw [hl]
      decide
    · rw [hl]
      decide
    · rw [hl]
      decide
  unfold commandLine range
  by_cases hab : h.a < h.b
  · rw [if_pos hab, if_neg (show ¬h.a > h.b by omega), List.append_assoc, List.append_assoc,
      List.singleton_append]
    unfold parse
    rw [number_printd _ rfl]
    simp only [Option.bind_eq_bind, Option.bind_some, if_true]
    rw [number_printd _ (digit_letter h)]
    rfl
  · rw [if_neg hab, List.append_nil]
    unfold parse
    rw [number_printd _ (digit_letter h)]
    simp only [Option.bind_eq_bind, Option.bind_some]
    rw [if_neg h44, if_pos trivial]
    by_cases hba : h.a > h.b
    · rw [if_pos hba]
    · rw [if_neg hba, show h.b = h.a by omega]

theorem commandLine_nl (h : Hunk) : 10 ∉ commandLine h := by
  have hd : ∀ n, 10 ∉ printd n := fun n hm => absurd (printd_digits n 10 hm) (by decide)
  have hl : (10 : UInt8) ≠ letter h := by
    rcases letter_cases h with hl | hl | hl
    · rw [hl]
      decide
    · rw [hl]
      decide
    · rw [hl]
      decide
  unfold commandLine range
  simp only [List.mem_append, List.mem_singleton, not_or]
  refine ⟨⟨hd _, ?_⟩, hl⟩
  split
  · simp only [List.mem_append, List.mem_singleton, not_or]
    exact ⟨by decide, hd _⟩
  · simp

/-- All lines that are put in are counted right. -/
def ShortNew (r : Found) (f₁ : List Line) : Prop :=
  ∀ j, 1 ≤ j → j ≤ r.len₁ → Unmatched₁ r j → ShortAt f₁ j

section Script

variable {f₀ f₁ : List Line} {r : Found}

/-- The text of a call of `change`. -/
theorem linesFrom_change (hc : Checked f₀ f₁ r.len₀ r.len₁ r.J r.ixnew) (hn : r.len₁ ≤ f₁.length)
    (hshort : ShortNew r f₁) {p p' q q' : Nat} (hq : q ≤ q') (hq' : q' ≤ r.len₁)
    (hnew : ∀ i, 1 ≤ i → i ≤ r.len₀ → q < r.J i → q' < r.J i) (g : List UInt8) :
    linesFrom [] (change .e r (text f₀) (text f₁) ⟨p + 1, p', q + 1, q'⟩ ++ g) =
      hunkLines f₁ ⟨p + 1, p', q + 1, q'⟩ ++ linesFrom [] g := by
  have hix := hc.ix fun j hj hj' hne => hshort j hj hj' hne
  have hsh : ∀ j, q < j → j ≤ q + (q' - q) → ShortAt f₁ j := by
    intro j hj hj'
    refine hshort j (by omega) (by omega) fun i hi hi' heq => ?_
    have := hnew i hi hi' (by omega)
    omega
  have hfetch := fetch_text hn (show q + (q' - q) ≤ r.len₁ by omega) hix hsh
  rw [show q + (q' - q) = q' by omega] at hfetch
  unfold hunkLines change
  by_cases hproper : p + 1 > p' ∧ q + 1 > q'
  · have hp : Hunk.proper ⟨p + 1, p', q + 1, q'⟩ = false := by
      simp only [Hunk.proper, Bool.or_eq_false_iff, decide_eq_false_iff_not]
      omega
    rw [if_pos hproper, hp]
    rfl
  · have hp : Hunk.proper ⟨p + 1, p', q + 1, q'⟩ = true := by
      simp only [Hunk.proper, Bool.or_eq_true, decide_eq_true_eq]
      omega
    rw [if_neg hproper, hp, if_pos rfl]
    dsimp only
    rw [if_pos (by decide), if_neg (by decide), if_neg (by decide), if_neg (by decide), hfetch]
    simp only [List.append_nil, List.append_assoc, List.cons_append, List.nil_append]
    have hline := linesFrom_line (commandLine ⟨p + 1, p', q + 1, q'⟩) (commandLine_nl _) []
    unfold commandLine at hline
    simp only [List.append_assoc, List.cons_append, List.nil_append] at hline
    rw [hline, linesFrom_text]
    by_cases hins : q + 1 ≤ q'
    · rw [if_pos ⟨by decide, hins⟩, if_pos hins]
      rfl
    · rw [if_neg fun h => hins h.2, if_neg hins]
      rfl

theorem linesFrom_script (hc : Checked f₀ f₁ r.len₀ r.len₁ r.J r.ixnew) (hn : r.len₁ ≤ f₁.length)
    (hshort : ShortNew r f₁) (hs : List Hunk)
    (hmem : ∀ h ∈ hs, ∃ p p' q q', h = ⟨p + 1, p', q + 1, q'⟩ ∧ p ≤ p' ∧ q ≤ q' ∧ q' ≤ r.len₁ ∧
      ∀ i, 1 ≤ i → i ≤ r.len₀ → q < r.J i → q' < r.J i) :
    linesFrom [] (hs.flatMap (change .e r (text f₀) (text f₁))) = hs.flatMap (hunkLines f₁) := by
  induction hs with
  | nil => rfl
  | cons h hs ih =>
    obtain ⟨p, p', q, q', rfl, -, hq, hq', hnew⟩ := hmem h List.mem_cons_self
    rw [List.flatMap_cons, List.flatMap_cons, linesFrom_change hc hn hshort hq hq' hnew,
      ih fun h hh => hmem h (List.mem_cons_of_mem _ hh)]

end Script

/-! ## A script without periods -/

/-- The text of an insertion. -/
theorem foldlM_insert (ls A B : List (List UInt8)) (h : period ∉ ls) :
    ls.foldlM edLine ⟨A ++ B, some A.length⟩ = some ⟨A ++ ls ++ B, some (A ++ ls).length⟩ := by
  induction ls generalizing A with
  | nil => simp
  | cons l ls ih =>
    rw [List.mem_cons, not_or] at h
    have hline : edLine ⟨A ++ B, some A.length⟩ l = some ⟨A ++ [l] ++ B, some (A ++ [l]).length⟩ := by
      unfold edLine
      dsimp only
      rw [if_neg (Ne.symm h.1), List.take_left, List.drop_left, List.length_append,
        List.append_assoc]
      rfl
    rw [List.foldlM_cons, hline]
    simp only [Option.bind_eq_bind, Option.bind_some]
    rw [ih (A ++ [l]) h.2]
    simp only [List.append_assoc, List.cons_append, List.nil_append]

/-- What the command of a hunk does to the lines before it and after it. -/
theorem command_hunk {old T : List (List UInt8)} {p p' q q' : Nat} (hp : p ≤ p')
    (hlen : p' ≤ old.length) (hproper : p + 1 ≤ p' ∨ q + 1 ≤ q') :
    edLine ⟨old.take p' ++ T, none⟩ (commandLine ⟨p + 1, p', q + 1, q'⟩) =
      some ⟨old.take p ++ T, if q + 1 ≤ q' then some (old.take p).length else none⟩ := by
  have htake : (old.take p').length = p' := by
    rw [List.length_take]
    omega
  have htake' : (old.take p).length = p := by
    rw [List.length_take]
    omega
  unfold edLine
  dsimp only
  rw [parse_commandLine, htake']
  simp only [Option.bind_eq_bind, Option.bind_some]
  unfold command letter
  dsimp only
  rw [List.length_append, htake]
  by_cases hpp : p + 1 > p'
  · obtain rfl : p' = p := by omega
    rw [if_pos hpp, if_pos hpp, if_pos ⟨rfl, le_refl _, by omega⟩, if_pos (show q + 1 ≤ q' by omega)]
  · have hdel : (old.take p' ++ T).take p ++ (old.take p' ++ T).drop p' = old.take p ++ T := by
      rw [List.take_append_of_le_length (by omega), List.take_take, Nat.min_eq_left hp]
      congr 1
      exact List.drop_left' htake
    rw [if_neg hpp, if_neg hpp]
    have hle : 1 ≤ p + 1 ∧ p + 1 ≤ p' ∧ p' ≤ p' + T.length := by omega
    by_cases hqq : q + 1 > q'
    · rw [if_pos hqq, if_neg (fun h => absurd h.1 (by decide)), if_pos hle, if_neg (by decide),
        if_pos rfl, Nat.add_sub_cancel, hdel, if_neg (show ¬q + 1 ≤ q' by omega)]
    · rw [if_neg hqq, if_neg (fun h => absurd h.1 (by decide)), if_pos hle, if_pos rfl,
        Nat.add_sub_cancel, hdel, if_pos (show q + 1 ≤ q' by omega)]

theorem run_hunk {f₁ : List Line} {old T : List (List UInt8)} {p p' q q' : Nat} (hp : p ≤ p')
    (hlen : p' ≤ old.length) (hperiod : period ∉ (slice f₁ (q + 1) q').map Subtype.val) :
    (hunkLines f₁ ⟨p + 1, p', q + 1, q'⟩).foldlM edLine ⟨old.take p' ++ T, none⟩ =
      some ⟨old.take p ++ ((slice f₁ (q + 1) q').map Subtype.val ++ T), none⟩ := by
  have hempty : ¬q + 1 ≤ q' → slice f₁ (q + 1) q' = [] := by
    intro h
    unfold slice
    rw [show q' + 1 - (q + 1) = 0 by omega, List.take_zero]
  unfold hunkLines
  by_cases hproper : p + 1 ≤ p' ∨ q + 1 ≤ q'
  · have hpr : Hunk.proper ⟨p + 1, p', q + 1, q'⟩ = true := by
      simpa only [Hunk.proper, Bool.or_eq_true, decide_eq_true_eq] using hproper
    rw [if_pos hpr, List.foldlM_cons, command_hunk hp hlen hproper]
    simp only [Option.bind_eq_bind, Option.bind_some]
    by_cases hins : q + 1 ≤ q'
    · rw [if_pos hins, if_pos hins, List.foldlM_append, foldlM_insert _ _ _ hperiod,
        List.append_assoc]
      rfl
    · rw [if_neg hins, if_neg hins, hempty hins]
      rfl
  · have hpr : ¬Hunk.proper ⟨p + 1, p', q + 1, q'⟩ = true := by
      simpa only [Hunk.proper, Bool.or_eq_true, decide_eq_true_eq] using hproper
    rw [if_neg hpr, hempty (by omega), show p' = p by omega]
    rfl

section Runs

variable {f₀ f₁ : List Line} {J : Nat → Nat} {m n : Nat}

/-- The changes from the places `p` and `q` on have been made. -/
theorem run_changes (hm : m ≤ f₀.length) (hn : n ≤ f₁.length) (hagree : Agree J m f₀ f₁)
    {p q : Nat} {hs : List Hunk} (h : Changes J m n p q hs)
    (hperiod : ∀ h ∈ hs, period ∉ (slice f₁ h.c h.d).map Subtype.val) :
    (hs.reverse.flatMap (hunkLines f₁)).foldlM edLine ⟨f₀.map Subtype.val, none⟩ =
      some ⟨(f₀.map Subtype.val).take p ++
        ((slice f₁ (q + 1) n).map Subtype.val ++ (f₀.map Subtype.val).drop m), none⟩ := by
  induction h with
  | done =>
    rw [slice_self, List.map_nil, List.nil_append, List.take_append_drop]
    rfl
  | @same p q hs hp hq hJ _ ih =>
    have hget : f₀.get ⟨p, by omega⟩ = f₁.get ⟨q, by omega⟩ := by
      have := hagree (p + 1) (by omega) hp (by omega)
      rw [hJ, Nat.add_sub_cancel, Nat.add_sub_cancel, List.getElem?_eq_getElem (by omega),
        List.getElem?_eq_getElem (by omega)] at this
      exact Option.some.inj this
    rw [ih hperiod, slice_succ (show q < f₁.length by omega) n (by omega), ← List.map_take,
      List.take_succ_eq_append_getElem (show p < f₀.length by omega), List.map_append, ← hget]
    simp only [List.append_assoc, List.map_cons, List.map_nil, List.cons_append, List.nil_append,
      List.map_take]
    rfl
  | @change p q p' q' hs hp hp' hq hq' _ _ _ ih =>
    rw [List.reverse_cons, List.flatMap_append, List.foldlM_append,
      ih fun h hh => hperiod h (List.mem_cons_of_mem _ hh)]
    simp only [Option.bind_eq_bind, Option.bind_some, List.flatMap_cons, List.flatMap_nil,
      List.append_nil]
    rw [run_hunk hp (by rw [List.length_map]; omega) (hperiod _ List.mem_cons_self),
      ← slice_append f₁ hq hq', List.map_append, List.append_assoc]

/-! ## The length of the result -/

theorem command_length {e e' : Ed} {x y : Nat} {c : UInt8} (h : command e x y c = some e') :
    e'.buf.length ≤ e.buf.length ∧
    (c ≠ 97 → e'.buf.length + (y + 1 - x) ≤ e.buf.length) ∧ (c = 100 → e'.ins = none) := by
  unfold command at h
  split at h
  · next hc =>
    cases h
    exact ⟨le_refl _, fun h => absurd hc.1 h, fun h => absurd (hc.1.symm.trans h) (by decide)⟩
  · split at h
    · next hle =>
      have hlen : (e.buf.take (x - 1) ++ e.buf.drop y).length + (y + 1 - x) ≤ e.buf.length := by
        rw [List.length_append, List.length_take, List.length_drop]
        omega
      split at h
      · next hc =>
        cases h
        exact ⟨by dsimp only; omega, fun _ => hlen, fun h => absurd (hc.symm.trans h) (by decide)⟩
      · split at h
        · cases h
          exact ⟨by dsimp only; omega, fun _ => hlen, fun _ => rfl⟩
        · cases h
    · cases h

/-- A line of the script gives one line at most, and a period none. -/
theorem edLine_length {e e' : Ed} {l : List UInt8} (h : edLine e l = some e') :
    e'.buf.length ≤ e.buf.length + if l = period then 0 else 1 := by
  unfold edLine at h
  cases hins : e.ins with
  | some p =>
    rw [hins] at h
    dsimp only at h
    split at h
    · cases h
      exact Nat.le_add_right _ _
    · next hne =>
      cases h
      rw [if_neg hne, List.length_append, List.length_cons, List.length_take, List.length_drop]
      omega
  | none =>
    rw [hins] at h
    dsimp only at h
    obtain ⟨⟨x, y, c⟩, -, hcmd⟩ := Option.bind_eq_some_iff.mp h
    exact (command_length hcmd).1.trans (Nat.le_add_right _ _)

/-- After a period no insertion is open. -/
theorem edLine_period {e e' : Ed} (h : edLine e period = some e') :
    e'.ins = none ∧ e'.buf.length = e.buf.length := by
  unfold edLine at h
  cases hins : e.ins with
  | some p =>
    rw [hins] at h
    dsimp only at h
    rw [if_pos rfl] at h
    cases h
    exact ⟨rfl, rfl⟩
  | none =>
    rw [hins] at h
    cases h

theorem foldlM_length (ls : List (List UInt8)) {e e' : Ed} (h : ls.foldlM edLine e = some e') :
    e'.buf.length ≤ e.buf.length + ls.countP (fun l => decide (l ≠ period)) := by
  induction ls generalizing e with
  | nil =>
    cases h
    exact Nat.le_add_right _ _
  | cons l ls ih =>
    rw [List.foldlM_cons] at h
    obtain ⟨e₁, h1, h2⟩ := Option.bind_eq_some_iff.mp h
    have h3 := ih h2
    have h4 := edLine_length h1
    rw [List.countP_cons]
    by_cases hl : l = period
    · rw [if_pos hl] at h4
      omega
    · rw [if_neg hl] at h4
      rw [if_pos (decide_eq_true hl)]
      omega

theorem slice_length {α : Type} {l : List α} {q q' : Nat} (h : q' ≤ l.length) :
    (slice l (q + 1) q').length = q' - q := by
  unfold slice
  rw [List.length_take, List.length_drop, Nat.min_eq_left (by omega)]
  omega

theorem run_hunk_length {p p' q q' : Nat} (hp : p ≤ p') (hq : q ≤ q') (hn : q' ≤ f₁.length)
    {e e' : Ed} (he : e.ins = none)
    (h : (hunkLines f₁ ⟨p + 1, p', q + 1, q'⟩).foldlM edLine e = some e') :
    e'.ins = none ∧ e'.buf.length + (p' - p) ≤ e.buf.length + (q' - q) ∧
      (period ∈ (slice f₁ (q + 1) q').map Subtype.val →
        e'.buf.length + (p' - p) < e.buf.length + (q' - q)) := by
  unfold hunkLines at h
  by_cases hproper : p + 1 ≤ p' ∨ q + 1 ≤ q'
  · have hpr : Hunk.proper ⟨p + 1, p', q + 1, q'⟩ = true := by
      simpa only [Hunk.proper, Bool.or_eq_true, decide_eq_true_eq] using hproper
    rw [if_pos hpr, List.foldlM_cons] at h
    obtain ⟨e₁, hcmd, h⟩ := Option.bind_eq_some_iff.mp h
    -- the command takes out the lines `p + 1` to `p'` of what is there
    unfold edLine at hcmd
    rw [he] at hcmd
    dsimp only at hcmd
    rw [parse_commandLine] at hcmd
    simp only [Option.bind_eq_bind, Option.bind_some] at hcmd
    obtain ⟨hle, hdel, hend⟩ := command_length hcmd
    have hcut : e₁.buf.length + (p' - p) ≤ e.buf.length := by
      by_cases hpp : p + 1 > p'
      · omega
      · have hne : letter ⟨p + 1, p', q + 1, q'⟩ ≠ 97 := by
          unfold letter
          rw [if_neg hpp]
          split
          · decide
          · decide
        have := hdel hne
        rw [if_neg hpp] at this
        omega
    by_cases hins : q + 1 ≤ q'
    · rw [if_pos hins, List.foldlM_append] at h
      dsimp only at h
      obtain ⟨e₂, h1, h2⟩ := Option.bind_eq_some_iff.mp h
      rw [List.foldlM_cons] at h2
      obtain ⟨e₃, h3, h4⟩ := Option.bind_eq_some_iff.mp h2
      cases h4
      have hnew := foldlM_length _ h1
      obtain ⟨hnone, hlen⟩ := edLine_period h3
      have hcount : ((slice f₁ (q + 1) q').map Subtype.val).length = q' - q := by
        rw [List.length_map, slice_length hn]
      have hmost := List.countP_le_length (p := fun l => decide (l ≠ period))
        (l := (slice f₁ (q + 1) q').map Subtype.val)
      refine ⟨hnone, by omega, fun hperiod => ?_⟩
      have hfew : ((slice f₁ (q + 1) q').map Subtype.val).countP (fun l => decide (l ≠ period)) ≠
          ((slice f₁ (q + 1) q').map Subtype.val).length := by
        intro heq
        have := List.countP_eq_length.mp heq _ hperiod
        simp at this
      omega
    · rw [if_neg hins, List.append_nil, show slice f₁ (q + 1) q' = [] by
        rw [show q' = q by omega, slice_self]] at h
      cases h
      have hd : letter ⟨p + 1, p', q + 1, q'⟩ = 100 := by
        unfold letter
        rw [if_neg (by dsimp only; omega), if_pos (by dsimp only; omega)]
      refine ⟨hend hd, by omega, fun hperiod => ?_⟩
      rw [show q' = q by omega, slice_self] at hperiod
      cases hperiod
  · have hpr : ¬Hunk.proper ⟨p + 1, p', q + 1, q'⟩ = true := by
      simpa only [Hunk.proper, Bool.or_eq_true, decide_eq_true_eq] using hproper
    rw [if_neg hpr] at h
    cases h
    refine ⟨he, by omega, fun hperiod => ?_⟩
    rw [show q' = q by omega, slice_self] at hperiod
    cases hperiod

/-- With a period in an insertion the result is too short. -/
theorem run_length (hn : n ≤ f₁.length) {p q : Nat} {hs : List Hunk} (h : Changes J m n p q hs)
    {e e' : Ed} (he : e.ins = none)
    (hrun : (hs.reverse.flatMap (hunkLines f₁)).foldlM edLine e = some e') :
    e'.ins = none ∧ e'.buf.length + (m - p) ≤ e.buf.length + (n - q) ∧
      ((∃ h ∈ hs, period ∈ (slice f₁ h.c h.d).map Subtype.val) →
        e'.buf.length + (m - p) < e.buf.length + (n - q)) := by
  induction h generalizing e' with
  | done =>
    cases hrun
    exact ⟨he, by omega, fun ⟨h, hh, _⟩ => by cases hh⟩
  | @same p q hs hp hq _ _ ih =>
    obtain ⟨h1, h2, h3⟩ := ih hrun
    exact ⟨h1, by omega, fun hper => by have := h3 hper; omega⟩
  | @change p q p' q' hs hp hp' hq hq' _ _ _ ih =>
    rw [List.reverse_cons, List.flatMap_append, List.foldlM_append] at hrun
    obtain ⟨e₁, hr1, hr2⟩ := Option.bind_eq_some_iff.mp hrun
    rw [List.flatMap_cons, List.flatMap_nil, List.append_nil] at hr2
    obtain ⟨h1, h2, h3⟩ := ih hr1
    obtain ⟨h4, h5, h6⟩ := run_hunk_length hp hq (hq'.trans hn) h1 hr2
    refine ⟨h4, by omega, ?_⟩
    rintro ⟨h, hh, hper⟩
    rcases List.mem_cons.mp hh with rfl | hh
    · have := h6 hper
      omega
    · have := h3 ⟨h, hh, hper⟩
      omega

end Runs

/-! ## The script of two files -/

/-- No line that is put in is a single period. -/
def NoPeriod (r : Found) (f₁ : List Line) : Prop :=
  ∀ j, 1 ≤ j → j ≤ r.len₁ → Unmatched₁ r j → ∀ l, f₁[j - 1]? = some l → l.val ≠ period

theorem mem_slice {α : Type} {l : List α} {a b : Nat} (ha : 1 ≤ a) {x : α} :
    x ∈ slice l a b ↔ ∃ j, a ≤ j ∧ j ≤ b ∧ l[j - 1]? = some x := by
  unfold slice
  rw [List.mem_iff_getElem?]
  constructor
  · rintro ⟨i, hi⟩
    rw [List.getElem?_take] at hi
    split at hi
    · rw [List.getElem?_drop] at hi
      exact ⟨a + i, by omega, by omega, by rw [← hi]; congr 1; omega⟩
    · cases hi
  · rintro ⟨j, hj, hj', hx⟩
    refine ⟨j - a, ?_⟩
    rw [List.getElem?_take, if_pos (by omega), List.getElem?_drop, ← hx]
    congr 1
    omega

theorem noPeriod_iff {r : Found} {f₁ : List Line} {hs : List Hunk}
    (hc : Changes r.J r.len₀ r.len₁ 0 0 hs) :
    NoPeriod r f₁ ↔ ¬∃ h ∈ hs, period ∈ (slice f₁ h.c h.d).map Subtype.val := by
  have hpos : ∀ h ∈ hs, 1 ≤ h.c := by
    intro h hh
    obtain ⟨p, p', q, q', rfl, -⟩ := hc.mem h hh
    exact Nat.le_add_left 1 q
  constructor
  · rintro hno ⟨h, hh, hper⟩
    obtain ⟨l, hl, hval⟩ := List.mem_map.mp hper
    obtain ⟨j, hj, hj', hget⟩ := (mem_slice (hpos h hh)).mp hl
    obtain ⟨h1, h2, h3⟩ := hc.new_iff.mp ⟨h, hh, hj, hj'⟩
    exact hno j h1 h2 h3 l hget hval
  · intro hno j hj hj' hun l hget hval
    obtain ⟨h, hh, h1, h2⟩ := hc.new_iff.mpr ⟨hj, hj', hun⟩
    exact hno ⟨h, hh, List.mem_map.mpr ⟨l, (mem_slice (hpos h hh)).mpr ⟨j, h1, h2, hget⟩, hval⟩⟩

/-- The script makes the first file into the second if no line that is put in is a single period and
the files have the same lines after those that `prepare` sees; with one of these alone it does
not. -/
theorem script_iff (isspace : Int8 → Bool) (f₀ f₁ : List Line) :
    ∃ r script, run false isspace (text f₀) (text f₁) = some r ∧
      output .e r (text f₀) (text f₁) = some script ∧
      (ShortNew r f₁ →
        (NoPeriod r f₁ ∧ f₀.drop (seen f₀).length = f₁.drop (seen f₁).length →
          ed script (f₀.map Subtype.val) = some (f₁.map Subtype.val)) ∧
        (ed script (f₀.map Subtype.val) = some (f₁.map Subtype.val) →
          (NoPeriod r f₁ ↔ f₀.drop (seen f₀).length = f₁.drop (seen f₁).length))) := by
  obtain ⟨r, hr, hlen₀, hlen₁, hc⟩ := run_spec isspace f₀ f₁
  obtain ⟨cs, hcs, hchanges⟩ := calls_backward hc.vector
  have hle₀ := seen_length_le f₀
  have hle₁ := seen_length_le f₁
  refine ⟨r, cs.flatMap (change .e r (text f₀) (text f₁)), hr, ?_, fun hshort => ?_⟩
  · unfold output
    rw [hcs]
    rfl
  have hlines : linesFrom [] (cs.flatMap (change .e r (text f₀) (text f₁))) =
      cs.reverse.reverse.flatMap (hunkLines f₁) := by
    rw [List.reverse_reverse]
    exact linesFrom_script hc (by omega) hshort cs fun h hh =>
      hchanges.mem h (List.mem_reverse.mpr hh)
  -- without a period the result is what `prepare` sees of the second file, and the rest of the first
  have hexact : NoPeriod r f₁ → ed (cs.flatMap (change .e r (text f₀) (text f₁)))
      (f₀.map Subtype.val) = some ((f₁.take r.len₁ ++ f₀.drop r.len₀).map Subtype.val) := by
    intro hno
    have hper : ∀ h ∈ cs.reverse, period ∉ (slice f₁ h.c h.d).map Subtype.val :=
      fun h hh hmem => (noPeriod_iff hchanges).mp hno ⟨h, hh, hmem⟩
    unfold ed
    rw [hlines, run_changes (by omega) (by omega) hc.agree hchanges hper]
    simp [slice]
  rw [← hlen₀, ← hlen₁]
  refine ⟨fun ⟨hno, hrest⟩ => ?_, fun hed => ⟨fun hno => ?_, fun hrest => ?_⟩⟩
  · rw [hexact hno, hrest, List.take_append_drop]
  · rw [hexact hno, Option.some.injEq] at hed
    have h1 := List.map_injective_iff.mpr Subtype.val_injective hed
    nth_rewrite 2 [← List.take_append_drop r.len₁ f₁] at h1
    exact List.append_cancel_left h1
  · rw [noPeriod_iff hchanges]
    intro hper
    unfold ed at hed
    rw [hlines] at hed
    obtain ⟨e, he, hbuf⟩ := Option.map_eq_some_iff.mp hed
    have hshorter := (run_length (by omega) hchanges rfl he).2.2 hper
    have hsame := congrArg List.length hrest
    rw [hbuf] at hshorter
    simp only [List.length_map, List.length_drop] at hshorter hsame
    omega

/-- A file with a period as its only line, against an empty one. -/
theorem script_period :
    (diff false (fun _ => false) .e (text []) (text [⟨period, by decide⟩])).bind
      (fun script => ed script []) ≠ some [period] := by
  decide

end Venix.Diff
