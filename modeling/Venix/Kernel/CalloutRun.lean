/-
  Callouts over whole runs.

  The table is a list of rows (`Rows`), and the operations on it are operations on the list:
  `timeout` inserts a row (`insertRow`), a tick takes one off the first time that is left
  (`takeOne`) and, at low priority, drops the rows without time left. `Agenda` says what the times
  mean: the sum of them up to a row is what is left until its key, the tick of the call and its
  time together.
-/
import Venix.Kernel.Callout

namespace Venix.Kernel

open Venix.Lib

variable {F A : Type}

/-- A time and the call that the entry comes from. -/
abbrev Row (F A : Type) : Type := Int × Reg F A

/-- From `p` on the table has the rows `l` and ends there. -/
def Rows (c : Nat → Callo F A) : Nat → List (Row F A) → Prop
  | p, [] => (c p).func = none
  | p, x :: l => c p = ⟨x.1, some x.2.func, x.2.arg, x.2⟩ ∧ Rows c (p + 1) l

/-- Put in a row that has `t` left. -/
def insertRow (t : Int) (r : Reg F A) : List (Row F A) → List (Row F A)
  | [] => [(t, r)]
  | x :: l => if x.1 ≤ t then x :: insertRow (t - x.1) r l else (t, r) :: (x.1 - t, x.2) :: l

/-- Take one off the first time that is left. -/
def takeOne : List (Row F A) → List (Row F A)
  | [] => []
  | x :: l => if x.1 ≤ 0 then x :: takeOne l else (x.1 - 1, x.2) :: l

/-! ## The table as a list -/

section Table

variable {c c' : Nat → Callo F A} {l a b : List (Row F A)} {p n : Nat}

theorem Rows.move {q : Nat} (h : Rows c p l) (he : ∀ j, j ≤ l.length → c' (q + j) = c (p + j)) :
    Rows c' q l := by
  induction l generalizing p q with
  | nil =>
    have := he 0 (Nat.le_refl 0)
    unfold Rows at h ⊢
    rw [Nat.add_zero, Nat.add_zero] at this
    rw [this]
    exact h
  | cons x l ih =>
    rw [List.length_cons] at he
    refine ⟨?_, ih h.2 fun j hj => ?_⟩
    · have := he 0 (by omega)
      rw [Nat.add_zero, Nat.add_zero] at this
      rw [this]
      exact h.1
    · have := he (j + 1) (by omega)
      rw [show q + 1 + j = q + (j + 1) by omega, show p + 1 + j = p + (j + 1) by omega]
      exact this

theorem Rows.right (h : Rows c p (a ++ b)) : Rows c (p + a.length) b := by
  induction a generalizing p with
  | nil => exact h
  | cons x a ih =>
    have := ih h.2
    rw [List.length_cons, show p + (a.length + 1) = p + 1 + a.length by omega]
    exact this

/-- The rows from some row on are replaced. -/
theorem Rows.glue (h : Rows c p (a ++ b)) (he : ∀ i, i < p + a.length → c' i = c i)
    (hl : Rows c' (p + a.length) l) : Rows c' p (a ++ l) := by
  induction a generalizing p with
  | nil => exact hl
  | cons x a ih =>
    rw [List.length_cons, show p + (a.length + 1) = p + 1 + a.length by omega] at he hl
    refine ⟨?_, ih h.2 he hl⟩
    rw [he p (by omega)]
    exact h.1

/-- The rows that come after a new one, whose time counts from the new one. -/
def lessTime (t : Int) : List (Row F A) → List (Row F A)
  | [] => []
  | x :: l => (x.1 - t, x.2) :: l

theorem lessTime_length (t : Int) (l : List (Row F A)) : (lessTime t l).length = l.length := by
  cases l <;> rfl

theorem place_spec (h : Rows c p l) (hn : l.length < n) (t : Int) :
    ∃ a b t', l = a ++ b ∧ Clock.place c n p t = some (p + a.length, t') ∧
      ∀ r, insertRow t r l = a ++ (t', r) :: lessTime t' b := by
  induction l generalizing p n t with
  | nil =>
    obtain ⟨n, rfl⟩ : ∃ k, n = k + 1 := ⟨n - 1, by simp at hn; omega⟩
    have h0 : (c p).func = none := h
    refine ⟨[], [], t, rfl, ?_, fun r => rfl⟩
    rw [Clock.place, if_neg (by simp [h0])]
    rfl
  | cons x l ih =>
    obtain ⟨n, rfl⟩ : ∃ k, n = k + 1 := ⟨n - 1, by simp at hn; omega⟩
    obtain ⟨hx, hl⟩ := h
    rw [Clock.place, hx]
    dsimp only
    by_cases hle : x.1 ≤ t
    · obtain ⟨a, b, t', rfl, hp, hi⟩ := ih hl (Nat.lt_of_succ_lt_succ hn) (t - x.1)
      refine ⟨x :: a, b, t', rfl, ?_, fun r => ?_⟩
      · rw [if_pos ⟨rfl, hle⟩, hp, List.length_cons, show p + 1 + a.length = p + (a.length + 1) by omega]
      · rw [insertRow, if_pos hle, hi]
        rfl
    · refine ⟨[], x :: l, t, rfl, ?_, fun r => ?_⟩
      · rw [if_neg fun hh => hle hh.2]
        rfl
      · rw [insertRow, if_neg hle]
        rfl

theorem last_spec (h : Rows c p l) (hn : l.length < n) :
    Clock.last c n p = some (p + l.length) := by
  induction l generalizing p n with
  | nil =>
    obtain ⟨n, rfl⟩ : ∃ k, n = k + 1 := ⟨n - 1, by simp at hn; omega⟩
    have h0 : (c p).func = none := h
    rw [Clock.last, if_neg (by simp [h0])]
    rfl
  | cons x l ih =>
    obtain ⟨n, rfl⟩ : ∃ k, n = k + 1 := ⟨n - 1, by simp at hn; omega⟩
    obtain ⟨hx, hl⟩ := h
    rw [Clock.last, if_pos (by simp [hx]), ih hl (Nat.lt_of_succ_lt_succ hn), List.length_cons,
      show p + 1 + l.length = p + (l.length + 1) by omega]

theorem moveUp_eq (c : Nat → Callo F A) (p k i : Nat) :
    Clock.moveUp c p k i = if p < i ∧ i ≤ p + k then c (i - 1) else c i := by
  induction k generalizing c with
  | zero =>
    rw [Clock.moveUp, if_neg (by omega)]
  | succ k ih =>
    rw [Clock.moveUp, ih]
    by_cases hi : p < i ∧ i ≤ p + k
    · rw [if_pos hi, if_pos (by omega), Function.update_of_ne (by omega)]
    · rw [if_neg hi]
      by_cases hk : i = p + k + 1
      · subst hk
        rw [Function.update_self, if_pos (by omega)]
        rfl
      · rw [Function.update_of_ne hk, if_neg (by omega)]

theorem firstLeft_spec (h : Rows c p l) (hn : l.length < n) :
    ∃ q, Clock.firstLeft c n p = some q ∧ p ≤ q ∧
      Rows (Function.update c q { c q with time := (c q).time - 1 }) p (takeOne l) := by
  induction l generalizing p n with
  | nil =>
    obtain ⟨n, rfl⟩ : ∃ k, n = k + 1 := ⟨n - 1, by simp at hn; omega⟩
    have h0 : (c p).func = none := h
    refine ⟨p, ?_, Nat.le_refl p, ?_⟩
    · rw [Clock.firstLeft, if_neg (by simp [h0])]
    · unfold takeOne Rows
      rw [Function.update_self]
      exact h0
  | cons x l ih =>
    obtain ⟨n, rfl⟩ : ∃ k, n = k + 1 := ⟨n - 1, by simp at hn; omega⟩
    obtain ⟨hx, hl⟩ := h
    rw [Clock.firstLeft, hx]
    dsimp only
    rw [takeOne]
    by_cases hle : x.1 ≤ 0
    · obtain ⟨q, hq, hpq, hrows⟩ := ih hl (Nat.lt_of_succ_lt_succ hn)
      rw [if_pos ⟨hle, rfl⟩, if_pos hle]
      refine ⟨q, hq, by omega, ?_, hrows⟩
      rw [Function.update_of_ne (by omega)]
      exact hx
    · rw [if_neg fun hh => hle hh.1, if_neg hle]
      refine ⟨p, rfl, Nat.le_refl p, ?_, hl.move fun j _ => ?_⟩
      · rw [Function.update_self, hx]
      · rw [Function.update_of_ne (by omega)]

theorem moveDown_spec {q : Nat} (h : Rows c p l) (hn : l.length < n) (hq : q ≤ p) :
    ∃ c', Clock.moveDown c n p q = some c' ∧ Rows c' q l ∧ ∀ i, i < q → c' i = c i := by
  induction l generalizing c p q n with
  | nil =>
    obtain ⟨n, rfl⟩ : ∃ k, n = k + 1 := ⟨n - 1, by simp at hn; omega⟩
    have h0 : (c p).func = none := h
    refine ⟨_, by rw [Clock.moveDown, h0], ?_, fun i hi => ?_⟩
    · unfold Rows
      rw [Function.update_self]
    · rw [Function.update_of_ne (by omega)]
  | cons x l ih =>
    obtain ⟨n, rfl⟩ : ∃ k, n = k + 1 := ⟨n - 1, by simp at hn; omega⟩
    obtain ⟨hx, hl⟩ := h
    have hl' : Rows (Function.update c q (c p)) (p + 1) l :=
      hl.move fun j _ => Function.update_of_ne (by omega) _ _
    obtain ⟨c', hc', hrows, hlow⟩ := ih hl' (Nat.lt_of_succ_lt_succ hn) (q := q + 1) (by omega)
    refine ⟨c', ?_, ⟨?_, hrows⟩, fun i hi => ?_⟩
    · rw [Clock.moveDown, hx]
      dsimp only
      rw [← hx]
      exact hc'
    · rw [hlow q (by omega), Function.update_self]
      exact hx
    · rw [hlow i (by omega), Function.update_of_ne (by omega)]

/-- `timeout` inserts a row, where the table is not full. -/
theorem timeout_spec {s : Clock F A} (h : Rows s.callout 0 l) (hn : l.length < ncall)
    (x : Call F A) :
    if l.length + 1 < ncall then
      ∃ c', s.timeout x = .ok { s with callout := c', regs := s.regs ++ [s.newReg x] } ∧
        Rows c' 0 (insertRow x.2.2 (s.newReg x) l)
    else ∃ e, s.timeout x = .error e := by
  obtain ⟨a, b, t, rfl, hplace, hins⟩ := place_spec h hn x.2.2
  rw [Nat.zero_add] at hplace
  rw [List.length_append] at hn ⊢
  unfold Clock.timeout
  rw [hplace]
  dsimp only
  by_cases hp : a.length ≥ ncall - 1
  · rw [if_pos hp, if_neg (by omega)]
    exact ⟨_, rfl⟩
  rw [if_neg hp]
  have hb := h.right
  rw [Nat.zero_add] at hb
  let c₁ := Function.update s.callout a.length
    { s.callout a.length with time := (s.callout a.length).time - t }
  have hb₁ : Rows c₁ a.length (lessTime t b) := by
    cases b with
    | nil =>
      have h0 : (s.callout a.length).func = none := hb
      unfold lessTime Rows
      dsimp only [c₁]
      rw [Function.update_self]
      exact h0
    | cons y b =>
      refine ⟨?_, hb.2.move fun j _ => Function.update_of_ne (by omega) _ _⟩
      dsimp only [c₁]
      rw [Function.update_self, hb.1]
  have hlast : Clock.last c₁ ncall a.length = some (a.length + b.length) := by
    rw [last_spec hb₁ (by rw [lessTime_length]; omega), lessTime_length]
  rw [hlast]
  dsimp only
  by_cases hfull : a.length + b.length + 1 ≥ ncall
  · rw [if_pos hfull, if_neg (by omega)]
    exact ⟨_, rfl⟩
  rw [if_neg hfull, if_pos (by omega)]
  refine ⟨_, rfl, ?_⟩
  rw [hins]
  refine h.glue (fun i hi => ?_) ⟨?_, ?_⟩
  · rw [Nat.zero_add] at hi
    rw [Function.update_of_ne (by omega), moveUp_eq, if_neg (by omega)]
    exact Function.update_of_ne (by omega) _ _
  · rw [Nat.zero_add, Function.update_self]
    rfl
  · refine hb₁.move fun j hj => ?_
    rw [lessTime_length] at hj
    rw [Function.update_of_ne (by omega), moveUp_eq, if_pos (by omega)]
    rw [show 0 + a.length + 1 + j - 1 = a.length + j by omega]

end Table

/-! ## What the times mean -/

/-- The tick that the time of the call leads to. -/
def Reg.key (r : Reg F A) : Int := r.since + r.t

/-- The first tick at which the callout may run. -/
def Reg.due (r : Reg F A) : Int := r.since + max r.t 1

/-- The order of the table. -/
def Before (r r' : Reg F A) : Prop := r.key < r'.key ∨ r.key = r'.key ∧ r.since ≤ r'.since

/-- The times of the rows, after `prev` ticks that are left before them. -/
def Agenda (now : Nat) : Int → List (Row F A) → Prop
  | _, [] => True
  | prev, x :: l => 0 ≤ x.1 ∧ prev + x.1 = max (x.2.key - now) 0 ∧ x.2.since ≤ now ∧ 0 ≤ x.2.t ∧
      (∀ y ∈ l, Before x.2 y.2) ∧ Agenda now (prev + x.1) l

section Times

variable {now : Nat} {prev : Int} {l D L : List (Row F A)}

theorem Before.due_le {r r' : Reg F A} (h : Before r r') (ht : 0 ≤ r.t) (ht' : 0 ≤ r'.t) :
    r.due ≤ r'.due := by
  unfold Before Reg.key at h
  unfold Reg.due
  omega

theorem insertRow_perm (t : Int) (r : Reg F A) (l : List (Row F A)) :
    ((insertRow t r l).map Prod.snd).Perm (r :: l.map Prod.snd) := by
  induction l generalizing t with
  | nil => exact List.Perm.refl _
  | cons x l ih =>
    rw [insertRow]
    split
    · rw [List.map_cons, List.map_cons]
      exact ((ih _).cons _).trans (List.Perm.swap _ _ _)
    · exact List.Perm.refl _

theorem mem_insertRow {t : Int} {r : Reg F A} {y : Row F A} (hy : y ∈ insertRow t r l) :
    y.2 = r ∨ y.2 ∈ l.map Prod.snd := by
  have h1 := (insertRow_perm t r l).mem_iff.mp (List.mem_map_of_mem hy)
  exact List.mem_cons.mp h1

/-- A new row with `t` left after `prev` is put in its place. -/
theorem Agenda.insertRow {t : Int} {r : Reg F A} (h : Agenda now prev l) (hprev : 0 ≤ prev)
    (ht : 0 ≤ t) (hkey : r.key = now + prev + t) (hsince : r.since = now) (hrt : 0 ≤ r.t) :
    Agenda now prev (insertRow t r l) := by
  induction l generalizing prev t with
  | nil =>
    refine ⟨ht, by dsimp only; omega, by dsimp only; omega, hrt, by simp, trivial⟩
  | cons x l ih =>
    obtain ⟨h0, hsum, hx, hxt, hall, hrest⟩ := h
    rw [Kernel.insertRow]
    split
    · rename_i hle
      refine ⟨h0, hsum, hx, hxt, fun y hy => ?_, ih hrest (by omega) (by omega) (by omega)⟩
      rcases mem_insertRow hy with hy | hy
      · rw [hy]
        unfold Before
        omega
      · obtain ⟨z, hz, hzy⟩ := List.mem_map.mp hy
        rw [← hzy]
        exact hall z hz
    · rename_i hgt
      have hrx : r.key < x.2.key := by omega
      refine ⟨ht, by dsimp only; omega, by dsimp only; omega, hrt, fun y hy => ?_, ?_⟩
      · rcases List.mem_cons.mp hy with rfl | hy
        · exact .inl hrx
        · have := hall y hy
          unfold Before at this ⊢
          dsimp only
          omega
      · refine ⟨by dsimp only; omega, by dsimp only; omega, hx, hxt, hall, ?_⟩
        rw [show prev + (t, r).1 + (x.1 - t, x.2).1 = prev + x.1 by dsimp only; omega]
        exact hrest

/-- All rows come after the tick `now` where some time is left before them. -/
theorem Agenda.tick_of_pos (h : Agenda now prev l) (hprev : 0 < prev) :
    Agenda (now + 1) (prev - 1) l := by
  induction l generalizing prev with
  | nil => trivial
  | cons x l ih =>
    obtain ⟨h0, hsum, hx, hxt, hall, hrest⟩ := h
    refine ⟨h0, by push_cast; omega, by omega, hxt, hall, ?_⟩
    have := ih hrest (by omega)
    rw [show prev - 1 + x.1 = prev + x.1 - 1 by omega]
    exact this

theorem takeOne_map (l : List (Row F A)) : (takeOne l).map Prod.snd = l.map Prod.snd := by
  induction l with
  | nil => rfl
  | cons z l ih =>
    rw [takeOne]
    split
    · rw [List.map_cons, List.map_cons, ih]
    · rfl

theorem Agenda.takeOne (h : Agenda now 0 l) : Agenda (now + 1) 0 (takeOne l) := by
  induction l with
  | nil => trivial
  | cons x l ih =>
    obtain ⟨h0, hsum, hx, hxt, hall, hrest⟩ := h
    rw [Kernel.takeOne]
    split
    · rename_i hle
      have hz : x.1 = 0 := by omega
      refine ⟨h0, by push_cast; omega, by omega, hxt, fun y hy => ?_, ?_⟩
      · have hy' := List.mem_map_of_mem (f := Prod.snd) hy
        rw [takeOne_map] at hy'
        obtain ⟨z, hz, hzy⟩ := List.mem_map.mp hy'
        rw [← hzy]
        exact hall z hz
      · rw [hz] at hrest ⊢
        exact ih hrest
    · rename_i hgt
      refine ⟨by dsimp only; omega, by push_cast; omega, by dsimp only; omega, hxt, hall, ?_⟩
      have := hrest.tick_of_pos (by omega)
      rw [show 0 + (x.1 - 1, x.2).1 = 0 + x.1 - 1 by dsimp only; omega]
      exact this

theorem insertRow_append {t : Int} {r : Reg F A} (hD : ∀ x ∈ D, x.1 = 0) (ht : 0 ≤ t) :
    insertRow t r (D ++ L) = D ++ insertRow t r L := by
  induction D with
  | nil => rfl
  | cons x D ih =>
    have hx := hD x (by simp)
    rw [List.cons_append, insertRow, if_pos (by omega), hx, Int.sub_zero,
      ih fun y hy => hD y (by simp [hy])]
    rfl

theorem insertRow_length (t : Int) (r : Reg F A) (l : List (Row F A)) :
    (insertRow t r l).length = l.length + 1 := by
  have := (insertRow_perm t r l).length_eq
  simpa using this

theorem Agenda.mem (h : Agenda now prev l) {x : Row F A} (hx : x ∈ l) :
    0 ≤ x.1 ∧ x.2.since ≤ now ∧ 0 ≤ x.2.t := by
  induction l generalizing prev with
  | nil => cases hx
  | cons y l ih =>
    rcases List.mem_cons.mp hx with rfl | hx
    · exact ⟨h.1, h.2.2.1, h.2.2.2.1⟩
    · exact ih h.2.2.2.2.2 hx

theorem Agenda.pairwise (h : Agenda now prev l) :
    (l.map Prod.snd).Pairwise fun r r' => r.due ≤ r'.due := by
  induction l generalizing prev with
  | nil => exact List.Pairwise.nil
  | cons x l ih =>
    refine List.Pairwise.cons (fun r hr => ?_) (ih h.2.2.2.2.2)
    obtain ⟨y, hy, rfl⟩ := List.mem_map.mp hr
    exact (h.2.2.2.2.1 y hy).due_le h.2.2.2.1 (h.2.2.2.2.2.mem hy).2.2

/-- The rows without time left are the first ones. -/
theorem Agenda.split (h : Agenda now 0 l) :
    ∃ D L, l = D ++ L ∧ (∀ x ∈ D, x.1 = 0 ∧ x.2.key ≤ now) ∧ Agenda now 0 L ∧
      ∀ x ∈ L, (now : Int) < x.2.key := by
  induction l with
  | nil => exact ⟨[], [], rfl, by simp, trivial, by simp⟩
  | cons x l ih =>
    have hfull := h
    obtain ⟨h0, hsum, hx, hxt, hall, hrest⟩ := h
    by_cases hle : x.1 ≤ 0
    · have hz : x.1 = 0 := by omega
      rw [hz] at hrest
      obtain ⟨D, L, rfl, hD, hL, hkey⟩ := ih hrest
      refine ⟨x :: D, L, rfl, fun y hy => ?_, hL, hkey⟩
      rcases List.mem_cons.mp hy with rfl | hy
      · exact ⟨hz, by omega⟩
      · exact hD y hy
    · refine ⟨[], x :: l, rfl, by simp, hfull, fun y hy => ?_⟩
      have hxk : (now : Int) < x.2.key := by omega
      rcases List.mem_cons.mp hy with rfl | hy
      · exact hxk
      · have := hall y hy
        unfold Before at this
        omega

end Times

/-! ## Callouts that make callouts -/

/-- The calls made from inside a callout: their numbers, their tick and their times. -/
structure New (now n : Nat) (new : List (Reg F A)) : Prop where
  ids : new.map Reg.id = List.range' n new.length
  since : ∀ r ∈ new, r.since = now ∧ 1 ≤ r.t

theorem New.nil (now n : Nat) : New now n ([] : List (Reg F A)) := ⟨rfl, by simp⟩

theorem New.cons {now n : Nat} {new : List (Reg F A)} {r : Reg F A} (h : New now (n + 1) new)
    (hid : r.id = n) (hs : r.since = now) (ht : 1 ≤ r.t) : New now n (r :: new) := by
  refine ⟨?_, fun x hx => ?_⟩
  · rw [List.map_cons, List.length_cons, List.range'_succ, hid, h.ids]
  · rcases List.mem_cons.mp hx with rfl | hx
    · exact ⟨hs, ht⟩
    · exact h.since x hx

theorem New.append {now n : Nat} {new new' : List (Reg F A)} (h : New now n new)
    (h' : New now (n + new.length) new') : New now n (new ++ new') := by
  refine ⟨?_, fun x hx => ?_⟩
  · rw [List.map_append, h.ids, h'.ids, List.length_append, List.range'_append_1]
  · rcases List.mem_append.mp hx with hx | hx
    · exact h.since x hx
    · exact h'.since x hx

/-- In the table: the rows `D` that are run at this tick, and the rows `L` that come later. -/
structure Later (s : Clock F A) (D L : List (Row F A)) : Prop where
  rows : Rows s.callout 0 (D ++ L)
  short : (D ++ L).length < ncall
  done : ∀ x ∈ D, x.1 = 0
  agenda : Agenda s.now 0 L
  later : ∀ x ∈ L, (s.now : Int) < x.2.key

section Run

variable {s s' : Clock F A} {D L : List (Row F A)}

/-- What calls from inside callouts change. -/
structure Added (s s' : Clock F A) (D L L' : List (Row F A)) (ran : List (Ran F A))
    (new : List (Reg F A)) : Prop where
  eq : ∃ c, s' = { s with callout := c, regs := s.regs ++ new, ran := s.ran ++ ran }
  later : Later s' D L'
  perm : (L'.map Prod.snd).Perm (L.map Prod.snd ++ new)
  new : New s.now s.regs.length new

theorem timeout_later (h : Later s D L) {x : Call F A} (hx : 1 ≤ x.2.2) (hok : s.timeout x = .ok s') :
    ∃ L' r, Added s s' D L L' [] [r] := by
  have hspec := timeout_spec h.rows h.short x
  split at hspec
  · rename_i hlen
    obtain ⟨c, hc, hrows⟩ := hspec
    rw [hc] at hok
    rw [insertRow_append h.done (by omega)] at hrows
    have hs' := Except.ok.inj hok
    have hkey : (s.newReg x).key = s.now + 0 + x.2.2 := by
      unfold Reg.key Clock.newReg
      dsimp only
      omega
    refine ⟨insertRow x.2.2 (s.newReg x) L, s.newReg x, ⟨c, ?_⟩, ⟨?_, ?_, h.done, ?_, ?_⟩, ?_, ?_⟩
    · rw [← hs', List.append_nil]
    · rw [← hs']
      exact hrows
    · rw [List.length_append, insertRow_length]
      rw [List.length_append] at hlen
      omega
    · rw [← hs']
      exact h.agenda.insertRow (Int.le_refl 0) (by omega) hkey rfl (le_trans (by decide) hx)
    · intro y hy
      rw [← hs']
      dsimp only
      rcases mem_insertRow hy with hy | hy
      · rw [hy, hkey]
        omega
      · obtain ⟨z, hz, hzy⟩ := List.mem_map.mp hy
        rw [← hzy]
        exact h.later z hz
    · refine (insertRow_perm _ _ L).trans ?_
      exact (List.perm_append_singleton _ _).symm
    · exact (New.nil _ _).cons rfl rfl hx
  · obtain ⟨e, he⟩ := hspec
    rw [he] at hok
    cases hok

theorem Added.trans {s'' : Clock F A} {L' L'' : List (Row F A)} {ran ran' : List (Ran F A)}
    {new new' : List (Reg F A)} (h : Added s s' D L L' ran new)
    (h' : Added s' s'' D L' L'' ran' new') :
    Added s s'' D L L'' (ran ++ ran') (new ++ new') := by
  obtain ⟨c, rfl⟩ := h.eq
  obtain ⟨c', rfl⟩ := h'.eq
  refine ⟨⟨c', ?_⟩, h'.later, ?_, ?_⟩
  · dsimp only
    rw [List.append_assoc, List.append_assoc]
  · refine h'.perm.trans ?_
    rw [← List.append_assoc]
    exact h.perm.append_right new'
  · have := h'.new
    dsimp only at this
    rw [List.length_append] at this
    exact h.new.append this

theorem timeouts_later (h : Later s D L) {xs : List (Call F A)} (hx : ∀ x ∈ xs, 1 ≤ x.2.2)
    (hok : s.timeouts xs = .ok s') :
    ∃ L' new, Added s s' D L L' [] new ∧ new.length = xs.length := by
  induction xs generalizing s L with
  | nil =>
    cases hok
    refine ⟨L, [], ⟨⟨s'.callout, ?_⟩, h, ?_, New.nil _ _⟩, rfl⟩
    · rw [List.append_nil, List.append_nil]
    · rw [List.append_nil]
  | cons x xs ih =>
    rw [Clock.timeouts] at hok
    split at hok
    · cases hok
    · rename_i s₁ h₁
      obtain ⟨L₁, r, hadd⟩ := timeout_later h (hx x (by simp)) h₁
      obtain ⟨L', new, hadd', hlen⟩ := ih hadd.later (fun y hy => hx y (by simp [hy])) hok
      exact ⟨L', [r] ++ new, hadd.trans hadd', by simp [hlen]⟩

theorem Added.length {L' : List (Row F A)} {ran : List (Ran F A)} {new : List (Reg F A)}
    (h : Added s s' D L L' ran new) : (D ++ L').length = (D ++ L).length + new.length := by
  have := h.perm.length_eq
  rw [List.length_map, List.length_append, List.length_map] at this
  rw [List.length_append, List.length_append]
  omega

/-- The log of a row that is run. -/
def Row.ran (tick : Nat) (x : Row F A) : Ran F A := ⟨tick, x.2.func, x.2.arg, x.2⟩

theorem callouts_stop (h : Later s D L) (n : Nat) (calls : List (List (Call F A))) :
    Clock.callouts (n + 1) D.length calls s = .ok (D.length, s) := by
  have hL := h.rows.right
  rw [Nat.zero_add] at hL
  rw [Clock.callouts]
  cases L with
  | nil =>
    have h0 : (s.callout D.length).func = none := hL
    rw [h0]
  | cons x L =>
    have hpos : 0 < x.1 := by
      have h1 := h.agenda.2.1
      have h2 := h.later x (by simp)
      omega
    rw [hL.1]
    dsimp only
    rw [if_neg (by omega)]

theorem callouts_row {D₁ D₂ : List (Row F A)} {x : Row F A} {n : Nat}
    {calls : List (List (Call F A))} (h : Later s (D₁ ++ x :: D₂) L) :
    Clock.callouts (n + 1) D₁.length calls s =
      match Clock.timeouts { s with ran := s.ran ++ [Row.ran s.now x] }
        calls.head?.toList.flatten with
      | .error e => .error e
      | .ok s => Clock.callouts n (D₁.length + 1) calls.tail s := by
  have hx : s.callout D₁.length = ⟨x.1, some x.2.func, x.2.arg, x.2⟩ := by
    have hrows := h.rows
    rw [List.append_assoc] at hrows
    have := hrows.right.1
    rw [Nat.zero_add] at this
    exact this
  have hzero := h.done x (by simp)
  rw [Clock.callouts, hx]
  dsimp only
  rw [if_pos (by omega)]
  rfl

theorem mem_head_calls {calls : List (List (Call F A))}
    (hcalls : ∀ xs ∈ calls, ∀ x ∈ xs, 1 ≤ x.2.2) :
    ∀ y ∈ calls.head?.toList.flatten, 1 ≤ y.2.2 := by
  intro y hy
  obtain ⟨xs, hxs, hy⟩ := List.mem_flatten.mp hy
  rw [Option.mem_toList] at hxs
  exact hcalls xs (List.mem_of_mem_head? hxs) y hy

/-- The loop runs the rows without time left, in order, and stops before the others. -/
theorem callouts_later {D₁ D₂ : List (Row F A)} {n : Nat} {calls : List (List (Call F A))}
    {r : Nat × Clock F A} (h : Later s (D₁ ++ D₂) L) (hn : D₂.length < n)
    (hcalls : ∀ xs ∈ calls, ∀ x ∈ xs, 1 ≤ x.2.2)
    (hok : Clock.callouts n D₁.length calls s = .ok r) :
    r.1 = (D₁ ++ D₂).length ∧
      ∃ L' new, Added s r.2 (D₁ ++ D₂) L L' (D₂.map (Row.ran s.now)) new := by
  induction D₂ generalizing s D₁ L n calls with
  | nil =>
    rw [List.append_nil] at h ⊢
    obtain ⟨n, rfl⟩ : ∃ k, n = k + 1 := ⟨n - 1, by simp at hn; omega⟩
    rw [callouts_stop h] at hok
    cases hok
    refine ⟨rfl, L, [], ⟨s.callout, ?_⟩, h, ?_, New.nil _ _⟩
    · simp
    · rw [List.append_nil]
  | cons x D₂ ih =>
    obtain ⟨n, rfl⟩ : ∃ k, n = k + 1 := ⟨n - 1, by simp at hn; omega⟩
    have happ : D₁ ++ x :: D₂ = (D₁ ++ [x]) ++ D₂ := by simp
    rw [callouts_row h] at hok
    split at hok
    · cases hok
    · rename_i s₁ h₁
      have hlog : Later { s with ran := s.ran ++ [Row.ran s.now x] } (D₁ ++ x :: D₂) L :=
        ⟨h.rows, h.short, h.done, h.agenda, h.later⟩
      obtain ⟨L₁, new₁, hadd₁, -⟩ := timeouts_later hlog (mem_head_calls hcalls) h₁
      obtain ⟨c₁, hs₁⟩ := hadd₁.eq
      have hlen : D₁.length + 1 = (D₁ ++ [x]).length := by simp
      rw [hlen] at hok
      have hlater := hadd₁.later
      rw [happ] at hlater
      obtain ⟨hr, L', new, hadd⟩ := ih hlater (Nat.lt_of_succ_lt_succ hn)
        (fun xs hxs => hcalls xs (List.mem_of_mem_tail hxs)) hok
      rw [happ]
      refine ⟨hr, L', new₁ ++ new, ?_⟩
      obtain ⟨c, hc⟩ := hadd.eq
      refine ⟨⟨c, ?_⟩, hadd.later, ?_, ?_⟩
      · rw [hc, hs₁]
        simp
      · refine hadd.perm.trans ?_
        rw [← List.append_assoc]
        exact hadd₁.perm.append_right new
      · have h2 := hadd.new
        rw [hs₁] at h2
        dsimp only at h2
        rw [List.length_append] at h2
        exact hadd₁.new.append h2

end Run

/-! ## Runs -/

/-- The table has the rows `l`; what was registered was run or is in the table, and it was run at
    the first tick at low priority from its due tick on. -/
structure Sched (s : Clock F A) (l : List (Row F A)) : Prop where
  rows : Rows s.callout 0 l
  short : l.length < ncall
  agenda : Agenda s.now 0 l
  perm : s.regs.Perm (s.ran.map Ran.reg ++ l.map Prod.snd)
  ids : s.regs.map Reg.id = List.range s.regs.length
  waits : ∀ x ∈ l, ∀ m ∈ s.lows, (m : Int) < x.2.due
  ran : ∀ e ∈ s.ran, e.func = e.reg.func ∧ e.arg = e.reg.arg ∧ e.tick ∈ s.lows ∧
    e.reg.due ≤ e.tick ∧ ∀ m ∈ s.lows, e.reg.due ≤ m → e.tick ≤ m
  order : (s.ran.map Ran.reg).Pairwise fun r r' => r.due ≤ r'.due
  lows : ∀ m ∈ s.lows, m ≤ s.now

section Step

variable {s s' : Clock F A} {l D L L' : List (Row F A)}

theorem key_le_due (r : Reg F A) : r.key ≤ r.due := by
  unfold Reg.key Reg.due
  omega

theorem range_ids {n : Nat} {new : List (Reg F A)} {regs : List (Reg F A)}
    (h : regs.map Reg.id = List.range regs.length) (hnew : New n regs.length new) :
    (regs ++ new).map Reg.id = List.range (regs ++ new).length := by
  rw [List.map_append, h, hnew.ids, List.length_append, List.range_eq_range',
    List.range_eq_range', ← List.range'_append_1, Nat.zero_add]

/-- A tick at high priority, or before the first row of the table. -/
theorem Sched.high {c : Nat → Callo F A} (h : Sched s l) (hc : Rows c 0 (takeOne l)) :
    Sched { s with callout := c, now := s.now + 1 } (takeOne l) := by
  have hlen : (takeOne l).length = l.length := by
    have := congrArg List.length (takeOne_map l)
    simpa using this
  refine ⟨hc, hlen ▸ h.short, h.agenda.takeOne, ?_, h.ids, fun x hx m hm => ?_, h.ran, h.order,
    fun m hm => Nat.le_succ_of_le (h.lows m hm)⟩
  · rw [takeOne_map]
    exact h.perm
  · have hx' := List.mem_map_of_mem (f := Prod.snd) hx
    rw [takeOne_map] at hx'
    obtain ⟨y, hy, hyx⟩ := List.mem_map.mp hx'
    rw [← hyx]
    exact h.waits y hy m hm

/-- A tick at low priority: the rows `D` are run, and `new` is what they register. -/
theorem Sched.low {c : Nat → Callo F A} {new : List (Reg F A)} (h : Sched s l)
    (hl : takeOne l = D ++ L) (hD : ∀ x ∈ D, x.2.key ≤ (s.now + 1 : Nat)) (hc : Rows c 0 L')
    (hshort : L'.length < ncall) (hagenda : Agenda (s.now + 1) 0 L')
    (hlater : ∀ x ∈ L', ((s.now + 1 : Nat) : Int) < x.2.key)
    (hperm : (L'.map Prod.snd).Perm (L.map Prod.snd ++ new))
    (hnew : New (s.now + 1) s.regs.length new) :
    Sched { s with
      callout := c
      now := s.now + 1
      regs := s.regs ++ new
      lows := s.lows ++ [s.now + 1]
      ran := s.ran ++ D.map (Row.ran (s.now + 1)) } L' := by
  have hmap : l.map Prod.snd = D.map Prod.snd ++ L.map Prod.snd := by
    rw [← takeOne_map, hl, List.map_append]
  have hrans : (D.map (Row.ran (s.now + 1))).map Ran.reg = D.map Prod.snd := by
    rw [List.map_map]
    rfl
  -- the rows of `D` were in the table before
  have hDl : ∀ x ∈ D, ∃ y ∈ l, y.2 = x.2 := by
    intro x hx
    have hx' : x.2 ∈ l.map Prod.snd := by
      rw [hmap]
      exact List.mem_append_left _ (List.mem_map_of_mem hx)
    obtain ⟨y, hy, hyx⟩ := List.mem_map.mp hx'
    exact ⟨y, hy, hyx⟩
  refine ⟨hc, hshort, hagenda, ?_, range_ids h.ids hnew, fun x hx m hm => ?_, fun e he => ?_, ?_,
    fun m hm => ?_⟩
  · dsimp only
    rw [List.map_append, hrans]
    have h1 := h.perm
    rw [hmap] at h1
    refine (h1.append_right new).trans ?_
    rw [List.append_assoc, List.append_assoc, List.append_assoc]
    exact (hperm.symm.append_left _).append_left _
  · have h1 := hlater x hx
    have h2 := key_le_due x.2
    rcases List.mem_append.mp hm with hm | hm
    · have := h.lows m hm
      omega
    · rw [List.mem_singleton.mp hm]
      omega
  · rcases List.mem_append.mp he with he | he
    · obtain ⟨h1, h2, h3, h4, h5⟩ := h.ran e he
      refine ⟨h1, h2, List.mem_append_left _ h3, h4, fun m hm hle => ?_⟩
      rcases List.mem_append.mp hm with hm | hm
      · exact h5 m hm hle
      · rw [List.mem_singleton.mp hm]
        exact Nat.le_succ_of_le (h.lows _ h3)
    · obtain ⟨x, hx, rfl⟩ := List.mem_map.mp he
      obtain ⟨y, hy, hyx⟩ := hDl x hx
      have hmem := h.agenda.mem hy
      have hkey := hD x hx
      rw [hyx] at hmem
      refine ⟨rfl, rfl, by simp [Row.ran], ?_, fun m hm hle => ?_⟩
      · unfold Row.ran Reg.due
        unfold Reg.key at hkey
        dsimp only
        push_cast at hkey ⊢
        omega
      · rcases List.mem_append.mp hm with hm | hm
        · have hw := h.waits y hy m hm
          rw [hyx] at hw
          exact absurd (lt_of_lt_of_le hw hle) (lt_irrefl _)
        · rw [List.mem_singleton.mp hm]
          exact Nat.le_refl _
  · rw [List.map_append, hrans]
    refine List.pairwise_append.mpr ⟨h.order, ?_, fun r hr r' hr' => ?_⟩
    · have := h.agenda.takeOne.pairwise
      rw [hl, List.map_append] at this
      exact (List.pairwise_append.mp this).1
    · obtain ⟨e, he, rfl⟩ := List.mem_map.mp hr
      obtain ⟨x, hx, rfl⟩ := List.mem_map.mp hr'
      obtain ⟨y, hy, hyx⟩ := hDl x hx
      have h1 := h.ran e he
      have h2 := h.waits y hy e.tick h1.2.2.1
      rw [hyx] at h2
      exact le_of_lt (lt_of_le_of_lt h1.2.2.2.1 h2)
  · rcases List.mem_append.mp hm with hm | hm
    · exact Nat.le_succ_of_le (h.lows m hm)
    · rw [List.mem_singleton.mp hm]

theorem Sched.timeout (h : Sched s l) {x : Call F A} (hx : 0 ≤ x.2.2)
    (hok : s.timeout x = .ok s') : ∃ l', Sched s' l' := by
  have hspec := timeout_spec h.rows h.short x
  split at hspec
  · rename_i hlen
    obtain ⟨c, hc, hrows⟩ := hspec
    rw [hc] at hok
    cases hok
    have hmem : ∀ y ∈ insertRow x.2.2 (s.newReg x) l, y.2 = s.newReg x ∨ ∃ z ∈ l, z.2 = y.2 := by
      intro y hy
      rcases mem_insertRow hy with hy | hy
      · exact .inl hy
      · obtain ⟨z, hz, hzy⟩ := List.mem_map.mp hy
        exact .inr ⟨z, hz, hzy⟩
    refine ⟨_, hrows, by rw [insertRow_length]; exact hlen, ?_, ?_, ?_, fun y hy m hm => ?_, h.ran,
      h.order, h.lows⟩
    · refine h.agenda.insertRow (Int.le_refl 0) hx ?_ rfl hx
      unfold Reg.key Clock.newReg
      dsimp only
      omega
    · refine (h.perm.append_right [s.newReg x]).trans ?_
      rw [List.append_assoc]
      refine List.Perm.append_left _ ?_
      exact (List.perm_append_singleton _ _).trans (insertRow_perm _ _ l).symm
    · rw [List.map_append, h.ids, List.length_append, List.length_singleton, List.range_succ]
      rfl
    · rcases hmem y hy with hy | ⟨z, hz, hzy⟩
      · have := h.lows m hm
        rw [hy]
        unfold Reg.due Clock.newReg
        dsimp only
        omega
      · rw [← hzy]
        exact h.waits z hz m hm
  · obtain ⟨e, he⟩ := hspec
    rw [he] at hok
    cases hok

/-- The state at a tick at low priority, before anything is run. -/
def ticked (s : Clock F A) (q : Nat) : Clock F A :=
  { s with
    callout := Function.update s.callout q { s.callout q with time := (s.callout q).time - 1 }
    now := s.now + 1
    lows := s.lows ++ [s.now + 1] }

theorem Sched.ticked (h : Sched s l) : ∃ q D L, Clock.firstLeft s.callout ncall 0 = some q ∧
    takeOne l = D ++ L ∧ (D ++ L).length = l.length ∧
    (∀ x ∈ D, x.2.key ≤ ((s.now + 1 : Nat) : Int)) ∧ Later (ticked s q) D L := by
  obtain ⟨q, hq, -, hrows⟩ := firstLeft_spec h.rows h.short
  obtain ⟨D, L, hl, hD, hL, hkey⟩ := h.agenda.takeOne.split
  have hlen := congrArg List.length (takeOne_map l)
  rw [List.length_map, List.length_map, hl] at hlen
  rw [hl] at hrows
  exact ⟨q, D, L, hq, hl, hlen, fun x hx => (hD x hx).2, hrows, hlen ▸ h.short,
    fun x hx => (hD x hx).1, hL, hkey⟩

/-- `clock` at low priority with something in the table. -/
theorem clock_low {q : Nat} (hq : Clock.firstLeft s.callout ncall 0 = some q)
    (h0 : (s.callout 0).func.isSome) (calls : List (List (Call F A))) :
    Clock.clock true calls s =
      if ((ticked s q).callout 0).time ≤ 0 then
        match Clock.callouts ncall 0 calls (ticked s q) with
        | .error e => .error e
        | .ok (p1, s) =>
          match Clock.moveDown s.callout ncall p1 0 with
          | none => .error .overflow
          | some c => .ok { s with callout := c }
      else .ok (ticked s q) := by
  have hnone : (s.callout 0).func.isNone = false := by
    cases hf : (s.callout 0).func with
    | none => simp [hf] at h0
    | some f => rfl
  unfold Clock.clock
  dsimp only
  rw [if_neg (by simp [hnone]), hq]
  simp only [if_true, true_and]
  rfl

theorem Sched.clock (h : Sched s l) {low : Bool} {calls : List (List (Call F A))}
    (hcalls : ∀ xs ∈ calls, ∀ x ∈ xs, 1 ≤ x.2.2) (hok : Clock.clock low calls s = .ok s') :
    ∃ l', Sched s' l' := by
  obtain ⟨q, D, L, hq, hl, -, hD, hlater⟩ := h.ticked
  cases l with
  | nil =>
    have h0 : (s.callout 0).func = none := h.rows
    unfold Clock.clock at hok
    dsimp only at hok
    rw [if_pos (by simp [h0])] at hok
    cases hok
    cases low with
    | true =>
      have hlater : ∀ x ∈ ([] : List (Row F A)), ((s.now + 1 : Nat) : Int) < x.2.key := by simp
      have := h.low (D := []) (L := []) rfl (by simp) h.rows h.short trivial hlater
        (List.Perm.refl _) (New.nil _ _)
      rw [List.append_nil, List.map_nil, List.append_nil] at this
      exact ⟨[], this⟩
    | false => exact ⟨[], h.high h.rows⟩
  | cons x l =>
    have h0 : (s.callout 0).func.isSome := by simp [h.rows.1]
    cases low with
    | false =>
      unfold Clock.clock at hok
      dsimp only at hok
      rw [if_neg (by simp [h.rows.1]), hq] at hok
      dsimp only at hok
      rw [if_neg (by simp)] at hok
      cases hok
      have hrows := hlater.rows
      rw [← hl] at hrows
      exact ⟨_, h.high hrows⟩
    | true =>
      rw [clock_low hq h0] at hok
      split at hok
      · split at hok
        · cases hok
        · rename_i p s₁ h₁
          have hshort := hlater.short
          rw [List.length_append] at hshort
          have hlater' : Later (Kernel.ticked s q) ([] ++ D) L := hlater
          obtain ⟨hp, L', new, hadd⟩ := callouts_later hlater' (by omega) hcalls h₁
          obtain ⟨c₁, hs₁⟩ := hadd.eq
          have hrows₁ := hadd.later.rows.right
          have hshort₁ : L'.length < ncall := by
            have := hadd.later.short
            rw [List.length_append] at this
            omega
          rw [Nat.zero_add, ← hp] at hrows₁
          obtain ⟨c₂, hc₂, hrows₂, -⟩ := moveDown_spec hrows₁ hshort₁ (Nat.zero_le _)
          dsimp only at hs₁ hc₂
          rw [hc₂] at hok
          dsimp only at hok
          cases hok
          have hagenda := hadd.later.agenda
          have hkey := hadd.later.later
          dsimp only at hagenda hkey
          rw [hs₁] at hagenda hkey ⊢
          exact ⟨L', h.low hl hD hrows₂ hshort₁ hagenda hkey hadd.perm hadd.new⟩
      · rename_i hnot
        cases hok
        -- nothing is due
        cases D with
        | nil =>
          have := h.low (D := []) hl (by simp) hlater.rows hlater.short hlater.agenda hlater.later
            (by simp) (New.nil _ _)
          rw [List.append_nil, List.map_nil, List.append_nil] at this
          exact ⟨_, this⟩
        | cons y D =>
          refine absurd ?_ hnot
          rw [hlater.rows.1]
          exact le_of_eq (hlater.done y (by simp))

end Step

/-- Times are not negative, and those given from inside a callout are positive. -/
def Clock.Permitted (_ : Clock F A) : Clock.Act F A → Prop
  | .timeout x => 0 ≤ x.2.2
  | .clock _ calls => ∀ xs ∈ calls, ∀ x ∈ xs, 1 ≤ x.2.2

/-- The most calls of `timeout` that a step makes. -/
def Clock.Act.size : Clock.Act F A → Nat
  | .timeout _ => 1
  | .clock _ calls => calls.flatten.length

/-- Nothing was registered yet. -/
structure Clock.Start (s : Clock F A) : Prop where
  callout : (s.callout 0).func = none
  regs : s.regs = []
  lows : s.lows = []
  ran : s.ran = []

end Venix.Kernel
