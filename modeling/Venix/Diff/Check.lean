/-
  `check`: the vector of matches against the files.

  At line `i` of the first file the two streams are at the starts of lines `i` and `j`, and every
  match that is left is with line `j` or a later one. So the comparison is of the two lines that the
  vector matches, and a match that stays is one of equal lines. The index of the second file is
  right as long as `skipline`, whose count is an `int`, skips lines of less than 32768 characters
  only.
-/
import Venix.Diff.Stone

namespace Venix.Diff

open Venix.Lib Function

/-! ## One line -/

theorem skiplineTurn_cons (n : Int16) (c : UInt8) (f : List UInt8) :
    skiplineTurn (n, c :: f) =
      some (if (c.toNat : Int) = 10 then .done (n, f) else .more (n + 1, f)) := rfl

theorem skipline_line (l : Line) (f : List UInt8) :
    skipline (l.val ++ 10 :: f) = some (Int16.ofNat (l.val.length + 1), f) := by
  let Inv (s : Int16 × List UInt8) : Prop :=
    ∃ l₁ l₂, l.val = l₁ ++ l₂ ∧ s = (Int16.ofNat (l₁.length + 1), l₂ ++ 10 :: f)
  have hturn : ∀ s, Inv s →
      (∃ s', skiplineTurn s = some (.more s') ∧ Inv s' ∧ s'.2.length < s.2.length) ∨
      ∃ r, skiplineTurn s = some (.done r) ∧ r = (Int16.ofNat (l.val.length + 1), f) := by
    rintro s ⟨l₁, l₂, hl, rfl⟩
    cases l₂ with
    | nil =>
      refine Or.inr ⟨_, rfl, ?_⟩
      rw [hl, List.append_nil]
    | cons c l₂ =>
      have hc : c ≠ 10 := by
        rintro rfl
        exact l.property (by rw [hl]; simp)
      have hc' : ((c.toNat : Nat) : Int) ≠ 10 := by
        intro h
        refine hc (UInt8.toNat_inj.mp ?_)
        change c.toNat = 10
        omega
      refine Or.inl ⟨(Int16.ofNat (l₁.length + 1) + 1, l₂ ++ 10 :: f), ?_,
        ⟨l₁ ++ [c], l₂, by simp [hl], ?_⟩, ?_⟩
      · rw [List.cons_append, skiplineTurn_cons, if_neg hc']
      · simp
      · simp
  obtain ⟨r, h1, rfl⟩ := loop_spec Inv _ (fun s => s.2.length) hturn
    (show Inv (1, l.val ++ 10 :: f) from ⟨[], l.val, rfl, rfl⟩) (Nat.lt_succ_self _)
  exact h1

/-- A line that `skipline` counts right. -/
def Short (l : Line) : Prop := l.val.length + 1 < 32768

theorem Short.toInt {l : Line} (h : Short l) :
    (Int16.ofNat (l.val.length + 1)).toInt = l.val.length + 1 := by
  rw [Int16.toInt_ofNat_of_lt h]
  push_cast
  rfl

theorem toInt8_eq {a b : UInt8} : a.toInt8 = b.toInt8 ↔ a = b := by
  constructor
  · intro h
    have := congrArg Int8.toUInt8 h
    simpa using this
  · rintro rfl
    rfl

/-- The rest of two lines. -/
structure Same (l l' : Line) (f f' : List UInt8) (ct : Int) (p : Pair) (l₀ l₁ : List UInt8) :
    Prop where
  in₀ : p.in₀ = l₀ ++ 10 :: f
  in₁ : p.in₁ = l₁ ++ 10 :: f'
  nl₀ : 10 ∉ l₀
  nl₁ : 10 ∉ l₁
  iff : l = l' ↔ l₀ = l₁
  le : l₁.length ≤ l'.val.length
  ct : p.ctnew + l₁.length = ct + l'.val.length

/-- What `sameLine` leaves. -/
structure SameEnd (l l' : Line) (f f' : List UInt8) (ct : Int) (r : Bool × Pair) : Prop where
  iff : r.1 = true ↔ l = l'
  in₀ : r.2.in₀ = f
  in₁ : r.2.in₁ = f'
  ct : (l = l' ∨ Short l') → r.2.ctnew = ct + l'.val.length + 1

variable {l l' : Line} {f f' : List UInt8} {ct : Int} {isspace : Int8 → Bool}

theorem Same.turn {p : Pair} {l₀ l₁ : List UInt8} (h : Same l l' f f' ct p l₀ l₁) :
    (∃ p', sameTurn false isspace p = some (.more p') ∧ (∃ l₀ l₁, Same l l' f f' ct p' l₀ l₁) ∧
      p'.in₀.length < p.in₀.length) ∨
    ∃ r, sameTurn false isspace p = some (.done r) ∧ SameEnd l l' f f' ct r := by
  obtain ⟨ctold, ctnew, in₀, in₁⟩ := p
  obtain ⟨h0, h1, hn0, hn1, hiff, hle, hct⟩ := h
  dsimp only at h0 h1 hct
  subst h0 h1
  have hshort : ∀ l₂ : List UInt8, l₂.length < l'.val.length → Short l' →
      (Int16.ofNat (l₂.length + 1)).toInt = l₂.length + 1 := by
    intro l₂ hl hs
    unfold Short at hs
    rw [Int16.toInt_ofNat_of_lt (by omega)]
    push_cast
    rfl
  cases l₀ with
  | nil =>
    cases l₁ with
    | nil =>
      refine Or.inr ⟨(true, ⟨ctold + 1, ctnew + 1, f, f'⟩), rfl, iff_of_true rfl (hiff.mpr rfl), rfl,
        rfl, fun _ => ?_⟩
      simp only [List.length_nil] at hct
      dsimp only
      omega
    | cons y l₁ =>
      rw [List.mem_cons, not_or] at hn1
      have hy : y.toInt8 ≠ 10 := fun h => hn1.1 (toInt8_eq.mp h).symm
      have hskip := skipline_line ⟨l₁, hn1.2⟩ f'
      refine Or.inr ⟨(false, ⟨ctold + 1, ctnew + 1 + (Int16.ofNat (l₁.length + 1)).toInt, f, f'⟩), ?_,
        ?_, rfl, rfl, fun hs => ?_⟩
      · simp only [sameTurn, getch, List.nil_append, List.cons_append, Bool.false_and,
          Bool.false_eq_true, if_false, Option.pure_def, Option.bind_eq_bind, Option.bind_some]
        rw [if_pos (show UInt8.toInt8 10 ≠ y.toInt8 from Ne.symm hy),
          if_neg (show ¬UInt8.toInt8 10 ≠ 10 by decide), if_pos hy]
        simp only [hskip, Option.bind_some]
      · refine iff_of_false Bool.false_ne_true fun h => ?_
        cases hiff.mp h
      · rcases hs with hs | hs
        · cases hiff.mp hs
        · have hlen := hshort l₁
          simp only [List.length_cons] at hct hle
          rw [hlen (by omega) hs]
          dsimp only
          omega
  | cons x l₀ =>
    rw [List.mem_cons, not_or] at hn0
    have hx : x.toInt8 ≠ 10 := fun h => hn0.1 (toInt8_eq.mp h).symm
    have hskip₀ := skipline_line ⟨l₀, hn0.2⟩ f
    cases l₁ with
    | nil =>
      refine Or.inr ⟨(false, ⟨ctold + 1 + (Int16.ofNat (l₀.length + 1)).toInt, ctnew + 1, f, f'⟩), ?_,
        ?_, rfl, rfl, fun hs => ?_⟩
      · simp only [sameTurn, getch, List.nil_append, List.cons_append, Bool.false_and,
          Bool.false_eq_true, if_false, Option.pure_def, Option.bind_eq_bind, Option.bind_some]
        rw [if_pos (show x.toInt8 ≠ UInt8.toInt8 10 from hx), if_pos hx]
        simp only [hskip₀, Option.bind_some]
        rw [if_neg (show ¬UInt8.toInt8 10 ≠ 10 by decide)]
      · refine iff_of_false Bool.false_ne_true fun h => ?_
        cases hiff.mp h
      · simp only [List.length_nil] at hct
        dsimp only
        omega
    | cons y l₁ =>
      rw [List.mem_cons, not_or] at hn1
      have hy : y.toInt8 ≠ 10 := fun h => hn1.1 (toInt8_eq.mp h).symm
      have hskip₁ := skipline_line ⟨l₁, hn1.2⟩ f'
      simp only [List.length_cons] at hct hle
      by_cases hxy : x = y
      · subst hxy
        refine Or.inl ⟨⟨ctold + 1, ctnew + 1, l₀ ++ 10 :: f, l₁ ++ 10 :: f'⟩, ?_,
          ⟨l₀, l₁, rfl, rfl, hn0.2, hn1.2, ?_, by omega, ?_⟩, ?_⟩
        · simp only [sameTurn, getch, List.cons_append, Bool.false_and, Bool.false_eq_true, if_false,
            Option.pure_def, Option.bind_eq_bind, Option.bind_some]
          rw [if_neg (not_not.mpr rfl), if_neg hx]
        · rw [hiff, List.cons_inj_right]
        · dsimp only
          omega
        · simp
      · have hne : x.toInt8 ≠ y.toInt8 := fun h => hxy (toInt8_eq.mp h)
        refine Or.inr ⟨(false, ⟨ctold + 1 + (Int16.ofNat (l₀.length + 1)).toInt,
          ctnew + 1 + (Int16.ofNat (l₁.length + 1)).toInt, f, f'⟩), ?_, ?_, rfl, rfl, fun hs => ?_⟩
        · simp only [sameTurn, getch, List.cons_append, Bool.false_and, Bool.false_eq_true, if_false,
            Option.pure_def, Option.bind_eq_bind, Option.bind_some]
          rw [if_pos hne, if_pos hx]
          simp only [hskip₀, Option.bind_some]
          rw [if_pos hy]
          simp only [hskip₁, Option.bind_some]
        · refine iff_of_false Bool.false_ne_true fun h => ?_
          cases hiff.mp h
          exact hxy rfl
        · rcases hs with hs | hs
          · cases hiff.mp hs
            exact absurd rfl hxy
          · rw [hshort l₁ (by omega) hs]
            dsimp only
            omega

theorem sameLine_spec (isspace : Int8 → Bool) (l l' : Line) (f f' : List UInt8) (ctold ct : Int) :
    ∃ r, sameLine false isspace ⟨ctold, ct, l.val ++ 10 :: f, l'.val ++ 10 :: f'⟩ = some r ∧
      SameEnd l l' f f' ct r :=
  loop_spec (fun p => ∃ l₀ l₁, Same l l' f f' ct p l₀ l₁) (SameEnd l l' f f' ct)
    (fun p => p.in₀.length) (fun p ⟨_, _, h⟩ => h.turn)
    ⟨l.val, l'.val, rfl, rfl, l.property, l'.property, Subtype.ext_iff, le_refl _, rfl⟩
    (by dsimp only; omega)

/-! ## All lines -/

/-- Where line `j + 1` starts. -/
def off (ls : List Line) (j : Nat) : Int := (text (ls.take j)).length

theorem text_drop {ls : List Line} {j : Nat} (h : j < ls.length) :
    text (ls.drop j) = (ls.get ⟨j, h⟩).val ++ 10 :: text (ls.drop (j + 1)) := by
  rw [List.drop_eq_getElem_cons h, text_cons]
  rfl

theorem off_succ {ls : List Line} {j : Nat} (h : j < ls.length) :
    off ls (j + 1) = off ls j + ((ls.get ⟨j, h⟩).val.length + 1) := by
  unfold off
  rw [List.take_succ_eq_append_getElem h, text_append, List.length_append, text_cons, text_nil,
    List.length_append, List.length_cons, List.length_nil]
  push_cast
  rfl

/-- Line `j` is counted right. -/
def ShortAt (ls : List Line) (j : Nat) : Prop := ∀ l, ls[j - 1]? = some l → Short l

/-- The state of `check` before line `i` of the first file. -/
structure Checking (f₀ f₁ : List Line) (J₀ : Nat → Nat) (len₀ len₁ i : Nat) (s : Check) :
    Prop where
  j : 1 ≤ s.j ∧ s.j ≤ len₁ + 1
  in₀ : s.p.in₀ = text (f₀.drop (i - 1))
  in₁ : s.p.in₁ = text (f₁.drop (s.j - 1))
  sub : ∀ k, s.J k = 0 ∨ s.J k = J₀ k
  rest : ∀ k, i ≤ k → s.J k = J₀ k
  ahead : ∀ k, i ≤ k → k ≤ len₀ → J₀ k ≠ 0 → s.j ≤ J₀ k
  behind : ∀ k, 1 ≤ k → k < i → s.J k ≠ 0 → s.J k < s.j ∧ f₀[k - 1]? = f₁[s.J k - 1]?
  ix : (∀ j, 1 ≤ j → j < s.j → (∀ k, 1 ≤ k → k < i → s.J k ≠ j) → ShortAt f₁ j) →
    s.p.ctnew = off f₁ (s.j - 1) ∧ ∀ j, j < s.j → s.ixnew j = off f₁ j

variable {f₀ f₁ : List Line} {J₀ : Nat → Nat} {len₀ len₁ i : Nat} {s : Check}

/-- Line `j` of the second file has been read, by `skipline` or against line `i`. -/
theorem ix_step {j : Nat} {ix : Nat → Int} {ct : Int} (hj : 1 ≤ j) (hlen : j ≤ f₁.length)
    (h : ct = off f₁ (j - 1) ∧ ∀ j', j' < j → ix j' = off f₁ j') {ct' : Int}
    (hct : ct' = ct + (f₁.get ⟨j - 1, by omega⟩).val.length + 1) :
    ct' = off f₁ (j + 1 - 1) ∧ ∀ j', j' < j + 1 → update ix j ct' j' = off f₁ j' := by
  have hoff : ct' = off f₁ j := by
    obtain ⟨j, rfl⟩ : ∃ k, j = k + 1 := ⟨j - 1, by omega⟩
    simp only [Nat.add_sub_cancel] at hct h
    rw [off_succ (by omega), hct, h.1, add_assoc]
  refine ⟨by rw [Nat.add_sub_cancel]; exact hoff, fun j' hj' => ?_⟩
  by_cases heq : j' = j
  · rw [heq, update_self]
    exact hoff
  · rw [update_of_ne heq]
    exact h.2 j' (by omega)

theorem skipNew_line {l : Line} {f : List UInt8} (h : s.p.in₁ = l.val ++ 10 :: f) :
    skipNew s = some { s with
      j := s.j + 1
      ixnew := update s.ixnew s.j (s.p.ctnew + (Int16.ofNat (l.val.length + 1)).toInt)
      p := { s.p with
        ctnew := s.p.ctnew + (Int16.ofNat (l.val.length + 1)).toInt
        in₁ := f } } := by
  unfold skipNew
  rw [h, skipline_line]
  rfl

theorem Checking.skip (h : Checking f₀ f₁ J₀ len₀ len₁ i s) (hlen : len₁ ≤ f₁.length)
    (hj : s.j ≤ len₁) (hahead : ∀ k, i ≤ k → k ≤ len₀ → J₀ k ≠ 0 → s.j < J₀ k) :
    ∃ s', skipNew s = some s' ∧ Checking f₀ f₁ J₀ len₀ len₁ i s' ∧ s'.j = s.j + 1 ∧ s'.J = s.J := by
  have hj1 := h.j.1
  have hlt : s.j - 1 < f₁.length := by omega
  have hsucc : s.j - 1 + 1 = s.j + 1 - 1 := by omega
  have hin := h.in₁
  rw [text_drop hlt, hsucc] at hin
  refine ⟨_, skipNew_line hin, ⟨?_, h.in₀, rfl, h.sub, h.rest, ?_, fun k hk hki hne => ?_,
    fun hshort => ?_⟩, rfl, rfl⟩
  · exact ⟨Nat.le_add_left 1 s.j, Nat.succ_le_succ hj⟩
  · exact fun k hk hk' hne => hahead k hk hk' hne
  · have := h.behind k hk hki hne
    exact ⟨Nat.lt_succ_of_lt this.1, this.2⟩
  · dsimp only at hshort
    have hs : Short (f₁.get ⟨s.j - 1, hlt⟩) := by
      refine hshort s.j hj1 (Nat.lt_succ_self _) (fun k hk hki heq => ?_) _
        (List.getElem?_eq_getElem hlt)
      have := (h.behind k hk hki (by omega)).1
      omega
    have hix := h.ix fun j' hj' hlt' hne => hshort j' hj' (by omega) hne
    refine ix_step hj1 (by omega) hix ?_
    rw [hs.toInt, add_assoc]

/-- The lines `i` and `j`, which the vector matches, have been compared. -/
theorem Checking.matched (h : Checking f₀ f₁ J₀ len₀ len₁ i s) (hJ : Vector J₀ len₀ len₁)
    (hi : 1 ≤ i) (hi' : i ≤ len₀) (hj : s.j = J₀ i) (h0 : s.J i ≠ 0) {same : Bool} {p : Pair}
    {hlt₀ : i - 1 < f₀.length} {hlt₁ : s.j - 1 < f₁.length}
    (hsame : same = true ↔ f₀.get ⟨i - 1, hlt₀⟩ = f₁.get ⟨s.j - 1, hlt₁⟩)
    (hin₀ : p.in₀ = text (f₀.drop (i + 1 - 1))) (hin₁ : p.in₁ = text (f₁.drop (s.j + 1 - 1)))
    (hct : f₀.get ⟨i - 1, hlt₀⟩ = f₁.get ⟨s.j - 1, hlt₁⟩ ∨ Short (f₁.get ⟨s.j - 1, hlt₁⟩) →
      p.ctnew = s.p.ctnew + (f₁.get ⟨s.j - 1, hlt₁⟩).val.length + 1) :
    Checking f₀ f₁ J₀ len₀ len₁ (i + 1)
      { J := if same then s.J else update s.J i 0
        j := s.j + 1
        ixold := update s.ixold i p.ctold
        ixnew := update s.ixnew s.j p.ctnew
        p := p } := by
  have hj1 := h.j.1
  have hJi : s.J i = s.j := by
    rw [h.rest i (le_refl i), hj]
  -- the entry of line `i`, and all others as they were
  have hother : ∀ k, k ≠ i → (if same then s.J else update s.J i 0) k = s.J k := by
    intro k hk
    split
    · rfl
    · exact update_of_ne hk _ _
  have hself : (if same then s.J else update s.J i 0) i = if same then s.j else 0 := by
    split
    · exact hJi
    · exact update_self ..
  refine ⟨⟨Nat.le_add_left 1 s.j, Nat.succ_le_succ (hj ▸ hJ.le i hi hi')⟩, hin₀, hin₁, fun k => ?_,
    fun k hk => ?_, fun k hk hk' hne => ?_, fun k hk hki hne => ?_, fun hshort => ?_⟩
  · by_cases hk : k = i
    · subst hk
      dsimp only
      rw [hself]
      split
      · exact Or.inr hj
      · exact Or.inl rfl
    · dsimp only
      rw [hother k hk]
      exact h.sub k
  · dsimp only
    rw [hother k (by omega)]
    exact h.rest k (by omega)
  · have := hJ.incr i k hi (by omega) hk' (by omega) hne
    dsimp only
    omega
  · dsimp only at hne ⊢
    by_cases hk' : k = i
    · subst hk'
      rw [hself] at hne ⊢
      cases hs : same with
      | false =>
        rw [hs] at hne
        exact absurd rfl hne
      | true =>
        rw [if_pos rfl, List.getElem?_eq_getElem hlt₀, List.getElem?_eq_getElem hlt₁]
        exact ⟨Nat.lt_succ_self _, congrArg some (hsame.mp hs)⟩
    · rw [hother k hk'] at hne ⊢
      have := h.behind k hk (by omega) hne
      exact ⟨Nat.lt_succ_of_lt this.1, this.2⟩
  · dsimp only at hshort ⊢
    have hix := h.ix fun j' hj' hlt' hne => hshort j' hj' (by omega) fun k hk hki => by
      by_cases hk' : k = i
      · rw [hk', hself]
        split
        · omega
        · omega
      · rw [hother k hk']
        exact hne k hk (by omega)
    refine ix_step hj1 (by omega) hix (hct ?_)
    cases hs : same with
    | true => exact Or.inl (hsame.mp hs)
    | false =>
      refine Or.inr (hshort s.j hj1 (Nat.lt_succ_self _) (fun k hk hki heq => ?_) _
        (List.getElem?_eq_getElem hlt₁))
      by_cases hk' : k = i
      · rw [hk', hself, hs] at heq
        rw [if_neg Bool.false_ne_true] at heq
        omega
      · rw [hother k hk'] at heq
        have := (h.behind k hk (by omega) (by omega)).1
        omega

theorem Checking.line (h : Checking f₀ f₁ J₀ len₀ len₁ i s) (hJ : Vector J₀ len₀ len₁)
    (hlen₀ : len₀ ≤ f₀.length) (hlen₁ : len₁ ≤ f₁.length) (hi : 1 ≤ i) (hi' : i ≤ len₀) :
    ∃ s', checkLine false isspace len₁ s i = some s' ∧
      Checking f₀ f₁ J₀ len₀ len₁ (i + 1) s' := by
  have hlt₀ : i - 1 < f₀.length := by omega
  have hsucc₀ : i - 1 + 1 = i + 1 - 1 := by omega
  have hin₀ := h.in₀
  rw [text_drop hlt₀, hsucc₀] at hin₀
  unfold checkLine
  by_cases h0 : s.J i = 0
  · rw [if_pos h0]
    have hskip := skipline_line (f₀.get ⟨i - 1, hlt₀⟩) (text (f₀.drop (i + 1 - 1)))
    rw [← hin₀] at hskip
    refine ⟨{ s with
      ixold := update s.ixold i
        (s.p.ctold + (Int16.ofNat ((f₀.get ⟨i - 1, hlt₀⟩).val.length + 1)).toInt)
      p := { s.p with
        ctold := s.p.ctold + (Int16.ofNat ((f₀.get ⟨i - 1, hlt₀⟩).val.length + 1)).toInt
        in₀ := text (f₀.drop (i + 1 - 1)) } }, ?_, h.j, rfl, h.in₁, h.sub,
      fun k hk => h.rest k (by omega), fun k hk => h.ahead k (by omega), fun k hk hki hne => ?_,
      fun hshort => ?_⟩
    · rw [hskip]
      rfl
    · by_cases hk' : k = i
      · subst hk'
        exact absurd h0 hne
      · exact h.behind k hk (by omega) hne
    · refine h.ix fun j hj hjlt hne => hshort j hj hjlt fun k hk hki => ?_
      by_cases hk' : k = i
      · rw [hk']
        change s.J i ≠ j
        omega
      · exact hne k hk (by omega)
  · rw [if_neg h0]
    have hJi : s.J i = J₀ i := h.rest i (le_refl i)
    have hJle : J₀ i ≤ len₁ := hJ.le i hi hi'
    have hlater : ∀ k, i ≤ k → k ≤ len₀ → J₀ k ≠ 0 → J₀ i ≤ J₀ k := by
      intro k hk hk' hne
      by_cases hik : i = k
      · rw [hik]
      · exact (hJ.incr i k hi (by omega) hk' (by omega) hne).le
    have hbody : ∀ s', Checking f₀ f₁ J₀ len₀ len₁ i s' ∧ s'.J = s.J → decide (s'.j < s'.J i) = true →
        ∃ s'', skipNew s' = some s'' ∧ (Checking f₀ f₁ J₀ len₀ len₁ i s'' ∧ s''.J = s.J) ∧
          len₁ + 1 - s''.j < len₁ + 1 - s'.j := by
      rintro s' ⟨h', hs'⟩ hlt
      rw [decide_eq_true_eq, hs', hJi] at hlt
      obtain ⟨s'', h1, h2, h3, h4⟩ := h'.skip hlen₁ (by omega) fun k hk hk' hne =>
        lt_of_lt_of_le hlt (hlater k hk hk' hne)
      exact ⟨s'', h1, ⟨h2, h4.trans hs'⟩, by omega⟩
    obtain ⟨s₁, h1, ⟨h2, hs₁⟩, h3⟩ := whileLoop_spec (n := len₁ + 1)
      (fun s' : Check => Checking f₀ f₁ J₀ len₀ len₁ i s' ∧ s'.J = s.J)
      (fun s' => len₁ + 1 - s'.j) hbody ⟨h, rfl⟩ (by have := h.j; omega)
    rw [decide_eq_false_iff_not, hs₁, hJi] at h3
    have hj : s₁.j = J₀ i := by
      have := h2.ahead i (le_refl i) hi' (by omega)
      omega
    have hlt₁ : s₁.j - 1 < f₁.length := by
      have := h2.j.1
      omega
    have hsucc₁ : s₁.j - 1 + 1 = s₁.j + 1 - 1 := by
      have := h2.j.1
      omega
    obtain ⟨⟨same, p⟩, h4, hsame, hin₀', hin₁', hct⟩ := sameLine_spec isspace
      (f₀.get ⟨i - 1, hlt₀⟩) (f₁.get ⟨s₁.j - 1, hlt₁⟩) (text (f₀.drop (i + 1 - 1)))
      (text (f₁.drop (s₁.j + 1 - 1))) s₁.p.ctold s₁.p.ctnew
    dsimp only at hsame hin₀' hin₁' hct
    have hpair : s₁.p = ⟨s₁.p.ctold, s₁.p.ctnew,
        (f₀.get ⟨i - 1, hlt₀⟩).val ++ 10 :: text (f₀.drop (i + 1 - 1)),
        (f₁.get ⟨s₁.j - 1, hlt₁⟩).val ++ 10 :: text (f₁.drop (s₁.j + 1 - 1))⟩ := by
      have hp₀ := h2.in₀
      have hp₁ := h2.in₁
      rw [text_drop hlt₀, hsucc₀] at hp₀
      rw [text_drop hlt₁, hsucc₁] at hp₁
      rw [← hp₀, ← hp₁]
    rw [← hpair] at h4
    refine ⟨_, by rw [h1]; simp only [Option.bind_eq_bind, Option.bind_some, h4]; rfl, ?_⟩
    refine h2.matched hJ hi hi' hj ?_ hsame hin₀' hin₁' hct
    rw [hs₁]
    exact h0

/-- The vector and the index of the second file after `check`. -/
structure Checked (f₀ f₁ : List Line) (len₀ len₁ : Nat) (J : Nat → Nat) (ixnew : Nat → Int) :
    Prop where
  vector : Vector J len₀ len₁
  agree : Agree J len₀ f₀ f₁
  ix : (∀ j, 1 ≤ j → j ≤ len₁ → (∀ k, 1 ≤ k → k ≤ len₀ → J k ≠ j) → ShortAt f₁ j) →
    ∀ j, j ≤ len₁ → ixnew j = off f₁ j

theorem check_spec (isspace : Int8 → Bool) (hJ : Vector J₀ len₀ len₁) (hlen₀ : len₀ ≤ f₀.length)
    (hlen₁ : len₁ ≤ f₁.length) :
    ∃ s, check false isspace J₀ len₀ len₁ (text f₀) (text f₁) = some s ∧
      Checked f₀ f₁ len₀ len₁ s.J s.ixnew := by
  have hstart : Checking f₀ f₁ J₀ len₀ len₁ 1
      ⟨J₀, 1, fun _ => 0, fun _ => 0, ⟨0, 0, text f₀, text f₁⟩⟩ := by
    refine ⟨⟨le_refl 1, by dsimp only; omega⟩, rfl, rfl, fun _ => Or.inr rfl, fun _ _ => rfl,
      fun k _ _ hne => Nat.pos_of_ne_zero hne, fun k hk hk' => by omega, fun _ => ⟨rfl, fun j hj => ?_⟩⟩
    dsimp only at hj
    obtain rfl : j = 0 := by omega
    rfl
  obtain ⟨s, h1, h2⟩ := foldlM_range'_spec (n := len₀)
    (fun i s => Checking f₀ f₁ J₀ len₀ len₁ i s)
    (fun i s hi hi' h => h.line hJ hlen₀ hlen₁ hi (by omega)) hstart
  rw [Nat.add_comm 1 len₀] at h2
  have hbody : ∀ s, Checking f₀ f₁ J₀ len₀ len₁ (len₀ + 1) s → decide (s.j ≤ len₁) = true →
      ∃ s', skipNew s = some s' ∧ Checking f₀ f₁ J₀ len₀ len₁ (len₀ + 1) s' ∧
        len₁ + 1 - s'.j < len₁ + 1 - s.j := by
    intro s h hlt
    rw [decide_eq_true_eq] at hlt
    obtain ⟨s', h3, h4, h5, -⟩ := h.skip hlen₁ hlt fun k hk hk' => by omega
    exact ⟨s', h3, h4, by omega⟩
  obtain ⟨s', h3, h4, h5⟩ := whileLoop_spec (n := len₁ + 1) (Checking f₀ f₁ J₀ len₀ len₁ (len₀ + 1))
    (fun s => len₁ + 1 - s.j) hbody h2 (by have := h2.j; omega)
  rw [decide_eq_false_iff_not] at h5
  have hj : s'.j = len₁ + 1 := by
    have := h4.j
    omega
  refine ⟨s', ?_, ⟨fun i i' hi hii hi' hne hne' => ?_, fun i hi hi' => ?_⟩, fun i hi hi' hne => ?_,
    fun hshort j hj' => ?_⟩
  · unfold check
    rw [h1]
    exact h3
  · have h6 := (h4.sub i).resolve_left hne
    have h7 := (h4.sub i').resolve_left hne'
    rw [h6] at hne ⊢
    rw [h7] at hne' ⊢
    exact hJ.incr i i' hi hii hi' hne hne'
  · rcases h4.sub i with h6 | h6
    · rw [h6]
      exact Nat.zero_le _
    · rw [h6]
      exact hJ.le i hi hi'
  · exact (h4.behind i hi (by omega) hne).2
  · refine (h4.ix fun j hj1 hlt hne => hshort j hj1 (by omega) fun k hk hk' => ?_).2 j (by omega)
    exact hne k hk (by omega)

end Venix.Diff
