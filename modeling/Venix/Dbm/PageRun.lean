/-
  A page holds a list of items: `additem` puts one behind them, `delitem` takes one out, `makdatum`
  finds one.
-/
import Mathlib.Tactic
import Venix.Dbm.Page

namespace Venix.Dbm

open Venix.Lib

/-! ## Steps -/

theorem bind_of_ok {α β : Type} {x : Except Fault α} {a : α} {f : α → Except Fault β}
    {r : Except Fault β} (hx : x = .ok a) (hf : f a = r) : (x >>= f) = r := by
  rw [hx]
  exact hf

theorem ok_of_bind {α β : Type} {x : Except Fault α} {f : α → Except Fault β} {b : β}
    (h : (x >>= f) = .ok b) : ∃ a, x = .ok a ∧ f a = .ok b := by
  cases x with
  | error e => cases h
  | ok a => exact ⟨a, rfl, h⟩

/-! ## Words -/

theorem int16_add {x y : Int16} (h1 : -32768 ≤ x.toInt + y.toInt) (h2 : x.toInt + y.toInt < 32768) :
    (x + y).toInt = x.toInt + y.toInt := by
  rw [Int16.toInt_add, Int.bmod_eq_of_le] <;> omega

theorem int16_sub {x y : Int16} (h1 : -32768 ≤ x.toInt - y.toInt) (h2 : x.toInt - y.toInt < 32768) :
    (x - y).toInt = x.toInt - y.toInt := by
  rw [Int16.toInt_sub, Int.bmod_eq_of_le] <;> omega

theorem int16_succ {x : Int16} {k : Nat} (hx : x.toInt = k) (hk : k < 32767) :
    (x + 1).toInt = (k + 1 : Nat) := by
  have h1 : (1 : Int16).toInt = 1 := rfl
  rw [int16_add (by omega) (by omega), hx, h1, Nat.cast_succ]

namespace Page

variable {p : Page} {i k j : Nat} {v : Int16} {x : Byte}

theorem word_put (h : 2 * k + 2 ≤ j) : word (Arr.put p j x) k = p.word k := by
  unfold word Bytes.getWord
  rw [Arr.get_put_ne _ _ (by omega), Arr.get_put_ne _ _ (by omega)]

theorem sp_eq {n : Int16} (hn : n.toInt = k) (hk : k < 256) : p.sp n = .ok (p.word k) := by
  unfold sp
  rw [if_pos (by omega), hn, Int.toNat_natCast]

theorem sp_zero : p.sp 0 = .ok (p.word 0) := rfl

theorem buf_eq {n : Int16} (hn : n.toInt = k) (hk : k < 512) : p.buf n = .ok (p.get k) := by
  unfold buf
  rw [if_pos (by omega), hn, Int.toNat_natCast]

end Page

/-! ## Items -/

/-- The bytes of all items. -/
def total (items : List (List Byte)) : Nat := (items.map List.length).sum

variable {p : Page} {items : List (List Byte)} {n k : Nat}

theorem total_append (a b : List (List Byte)) : total (a ++ b) = total a + total b := by
  simp [total]

theorem total_singleton (a : List Byte) : total [a] = a.length := by
  simp [total]

theorem total_take_succ (hk : k < items.length) :
    total (items.take (k + 1)) = total (items.take k) + items[k].length := by
  rw [← List.take_concat_get' items k hk, total_append, total_singleton]

theorem total_take_le (k : Nat) : total (items.take k) ≤ total items := by
  conv_rhs => rw [← List.take_append_drop k items]
  rw [total_append]
  exact Nat.le_add_right _ _

/-- Where item `k` begins. -/
def start (items : List (List Byte)) (k : Nat) : Nat := 512 - total (items.take (k + 1))

/-- An item ends where the one before it begins. -/
theorem start_add (hroom : total items ≤ 512) (hk : k < items.length) :
    start items k + items[k].length = 512 - total (items.take k) := by
  have h1 := total_take_succ hk
  have h2 : total (items.take (k + 1)) ≤ total items := total_take_le (k + 1)
  unfold start
  omega

/-- A page with these items. -/
structure Holds (p : Page) (items : List (List Byte)) : Prop where
  count : (p.word 0).toInt = items.length
  room : 2 * (items.length + 1) + total items ≤ 512
  off : ∀ k < items.length, (p.word (k + 1)).toInt = start items k
  bytes : ∀ k (hk : k < items.length) j (hj : j < items[k].length), p.get (start items k + j) = items[k][j]

theorem Holds.length_lt (h : Holds p items) : items.length < 256 := by
  have := h.room
  omega

/-- The offset of the last item, or the end of the page. -/
theorem Holds.last (h : Holds p items) (hne : items ≠ []) :
    (p.word items.length).toInt = 512 - total items := by
  have hpos := List.length_pos_iff.mpr hne
  have hroom := h.room
  have hoff := h.off (items.length - 1) (by omega)
  unfold start at hoff
  rw [Nat.sub_add_cancel hpos, List.take_length] at hoff
  omega

theorem total_take_last (hk : k + 1 = items.length) : total (items.take (k + 1)) = total items := by
  rw [hk, List.take_length]

/-! ## `additem` -/

theorem Holds.endOf (h : Holds p items) {m : Int16} (hm : m.toInt = k) (hk : k ≤ items.length) :
    ∃ t, p.endOf m = .ok t ∧ t.toInt = (512 - total (items.take k) : Nat) := by
  have h0 : (0 : Int16).toInt = 0 := rfl
  have hlt := h.length_lt
  have hpos : m > 0 ↔ 0 < k := by
    rw [gt_iff_lt, Int16.lt_iff_toInt_lt, h0, hm]
    exact Int.natCast_pos
  unfold Page.endOf
  cases k with
  | zero => exact ⟨PBLKSIZ, if_neg (mt hpos.mp (lt_irrefl _)), rfl⟩
  | succ k =>
    refine ⟨p.word (k + 1), ?_, h.off k hk⟩
    rw [if_pos (hpos.mpr (Nat.succ_pos k)), Int16.add_sub_cancel, Page.sp_eq hm (by omega)]

theorem readBytes_eq {m a : Nat} {i : Int16} (hi : i.toInt = a) (ha : a + m ≤ 512) :
    readBytes p m i = .ok ((List.range m).map fun j => p.get (a + j)) := by
  induction m generalizing a i with
  | zero => rfl
  | succ m ih =>
    refine bind_of_ok (Page.buf_eq hi (by omega)) <|
      bind_of_ok (ih (int16_succ hi (by omega)) (by omega)) ?_
    rw [List.range_succ_eq_map, List.map_cons, List.map_map]
    refine congrArg (fun l => Except.ok (p.get a :: l)) (List.map_congr_left fun j _ => ?_)
    rw [Function.comp_apply, show a + 1 + j = a + (j + 1) by omega]

theorem makdatum_none {m : Int16} (hm : m < 0 ∨ m ≥ p.word 0) : makdatum p m = .ok none :=
  bind_of_ok Page.sp_zero (if_pos hm)

theorem makdatum_holds (h : Holds p items) {m : Int16} (hm : m.toInt = k) (hk : k < items.length) :
    ∃ item, makdatum p m = .ok (some item) ∧ item.bytes p = .ok items[k] := by
  have h0 : (0 : Int16).toInt = 0 := rfl
  have hlt := h.length_lt
  have hroom := h.room
  have hsucc : (m + 1).toInt = (k + 1 : Nat) := int16_succ hm (by omega)
  have hin : ¬(m < 0 ∨ m ≥ p.word 0) := by
    rw [Int16.lt_iff_toInt_lt, ge_iff_le, Int16.le_iff_toInt_le, h.count, h0]
    omega
  obtain ⟨t, hend, ht⟩ := h.endOf hm hk.le
  have hadd := start_add (by omega) hk
  have hoff := h.off k hk
  rw [← hadd] at ht
  have hsize : (t - p.word (k + 1)).toInt = items[k].length := by
    rw [int16_sub (by omega) (by omega)]
    omega
  refine ⟨⟨p.word (k + 1), t - p.word (k + 1)⟩, ?_, ?_⟩
  · exact bind_of_ok Page.sp_zero <| (if_neg hin).trans <| bind_of_ok hend <|
      bind_of_ok (Page.sp_eq hsucc (by omega)) rfl
  · unfold Item.bytes
    rw [hsize, Int.toNat_natCast, readBytes_eq hoff (by omega)]
    refine congrArg Except.ok (List.ext_getElem (by simp) fun j h1 h2 => ?_)
    rw [List.getElem_map, List.getElem_range, h.bytes k hk j h2]

/-! ## `chkblk` -/

/-- Where item `r` from `q` on ends, if the first of them ends at `t`. -/
def ends (p : Page) (q : Nat) (t : Int16) (r : Nat) : Int16 := if r = 0 then t else p.word (q + r)

theorem ends_succ {q : Nat} {t : Int16} (r : Nat) :
    ends p (q + 1) (p.word (q + 1)) r = ends p q t (r + 1) := by
  unfold ends
  rw [if_neg (Nat.succ_ne_zero r)]
  split
  · next h => rw [h]
  · rw [show q + 1 + r = q + (r + 1) by omega]

/-- The loop comes to its end if and only if the offsets are in the page and do not rise. -/
theorem chkLoop_iff {m q : Nat} {i t s : Int16} (hi : i.toInt = q) :
    chkLoop p m i t = .ok s ↔ (m = 0 ∨ q + m < 256) ∧
      (∀ r < m, p.word (q + r + 1) ≤ ends p q t r) ∧ s = ends p q t m := by
  induction m generalizing q i t with
  | zero =>
    refine ⟨fun h => ?_, fun h => ?_⟩
    · cases h
      exact ⟨.inl rfl, fun r hr => absurd hr (Nat.not_lt_zero r), rfl⟩
    · rw [h.2.2]
      rfl
  | succ m ih =>
    by_cases hq : q + 1 < 256
    · have hnext := int16_succ hi (by omega)
      have hstep : chkLoop p (m + 1) i t =
          if p.word (q + 1) > t then .error .abort else chkLoop p m (i + 1) (p.word (q + 1)) := by
        rw [chkLoop]
        exact bind_of_ok (Page.sp_eq hnext hq) rfl
      rw [hstep]
      by_cases hgt : p.word (q + 1) > t
      · rw [if_pos hgt]
        refine ⟨fun h => (nomatch h), fun h => ?_⟩
        exact absurd (h.2.1 0 (Nat.succ_pos m)) (Int16.not_le.mpr hgt)
      · rw [if_neg hgt, ih hnext]
        refine ⟨fun ⟨h1, h2, h3⟩ => ⟨.inr (by omega), fun r hr => ?_, ?_⟩,
          fun ⟨h1, h2, h3⟩ => ⟨.inr (by omega), fun r hr => ?_, ?_⟩⟩
        · cases r with
          | zero => exact Int16.not_lt.mp hgt
          | succ r =>
            have := h2 r (by omega)
            rwa [ends_succ, show q + 1 + r + 1 = q + (r + 1) + 1 by omega] at this
        · rw [h3, ends_succ]
        · rw [ends_succ, show q + 1 + r + 1 = q + (r + 1) + 1 by omega]
          exact h2 (r + 1) (by omega)
        · rw [h3, ends_succ]
    · refine ⟨fun h => ?_, fun h => absurd h.1 (by omega)⟩
      rw [chkLoop] at h
      obtain ⟨a, ha, -⟩ := ok_of_bind h
      unfold Page.sp at ha
      have h1 : (1 : Int16).toInt = 1 := rfl
      have hlt := i.toInt_lt
      rw [if_neg] at ha
      · cases ha
      · rw [Int16.toInt_add, hi, h1]
        rcases Nat.lt_or_ge q 32767 with hsmall | hbig
        · rw [Int.bmod_eq_of_le (by omega) (by omega)]
          omega
        · obtain rfl : q = 32767 := by omega
          decide

theorem Holds.ends_eq (h : Holds p items) {r : Nat} (hr : r ≤ items.length) :
    (ends p 0 PBLKSIZ r).toInt = (512 - total (items.take r) : Nat) := by
  unfold ends
  cases r with
  | zero => rfl
  | succ r =>
    rw [if_neg (Nat.succ_ne_zero r), Nat.zero_add]
    exact h.off r hr

theorem chkblk_iff : chkblk p = .ok () ↔
    ∃ t, chkLoop p (p.word 0).toInt.toNat 0 PBLKSIZ = .ok t ∧ ¬t < (p.word 0 + 1) * 2 := by
  constructor
  · intro h
    unfold chkblk at h
    rw [Page.sp_zero] at h
    obtain ⟨t, hloop, h⟩ := ok_of_bind (x := chkLoop p (p.word 0).toInt.toNat 0 PBLKSIZ) h
    refine ⟨t, hloop, fun hlt => ?_⟩
    rw [if_pos hlt] at h
    cases h
  · rintro ⟨t, hloop, hlt⟩
    exact bind_of_ok Page.sp_zero (bind_of_ok hloop (if_neg hlt))

theorem chkblk_holds (h : Holds p items) : chkblk p = .ok () := by
  have hroom := h.room
  have hlt := h.length_lt
  have hturns : (p.word 0).toInt.toNat = items.length := by
    rw [h.count, Int.toNat_natCast]
  have hloop : chkLoop p items.length 0 PBLKSIZ = .ok (ends p 0 PBLKSIZ items.length) := by
    refine (chkLoop_iff (q := 0) rfl).mpr ⟨.inr (by omega), fun r hr => ?_, rfl⟩
    have hadd := start_add (by omega) hr
    rw [Int16.le_iff_toInt_le, h.ends_eq hr.le, Nat.zero_add, h.off r hr]
    omega
  have h2 : ((p.word 0 + 1) * 2).toInt = (2 * (items.length + 1) : Nat) := by
    have h2 : (2 : Int16).toInt = 2 := rfl
    rw [Int16.toInt_mul, int16_succ h.count (by omega), h2, Int.bmod_eq_of_le (by omega) (by omega)]
    omega
  refine chkblk_iff.mpr ⟨_, (congrArg (chkLoop p · 0 PBLKSIZ) hturns).trans hloop, ?_⟩
  rw [Int16.lt_iff_toInt_lt, h.ends_eq (le_refl _), List.take_length, h2]
  omega

/-- `chkblk` lets the page pass, and `makdatum` gives these items. -/
structure Shows (p : Page) (items : List (List Byte)) : Prop where
  checked : chkblk p = .ok ()
  item : ∀ (n : Int16) (k : Nat), n.toInt = k → ∀ hk : k < items.length,
    ∃ item, makdatum p n = .ok (some item) ∧ item.bytes p = .ok items[k]
  null : ∀ n : Int16, n.toInt < 0 ∨ items.length ≤ n.toInt → makdatum p n = .ok none

theorem not_item {m : Int16} (h : m.toInt < 0 ∨ (p.word 0).toInt ≤ m.toInt) : m < 0 ∨ m ≥ p.word 0 := by
  have h0 : (0 : Int16).toInt = 0 := rfl
  rw [Int16.lt_iff_toInt_lt, ge_iff_le, Int16.le_iff_toInt_le, h0]
  exact h

theorem Holds.shows (h : Holds p items) : Shows p items :=
  ⟨chkblk_holds h, fun _ _ hn hk => makdatum_holds h hn hk,
    fun _ hn => makdatum_none (not_item (by rwa [h.count]))⟩

end Venix.Dbm
