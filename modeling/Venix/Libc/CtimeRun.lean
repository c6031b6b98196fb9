/-
  `gmtime` tells the time (`gmtime_spec`).

  `instant` takes a date, an hour, a minute and a second to the second since the epoch that they
  denote. The loops of `gmtime` keep the sum of the days that are left and of the days before the
  year, or month, they have come to. In the years that 32 bits reach, every fourth year is a leap
  year.
-/
import Venix.Lib.Gregorian
import Venix.Libc.Ctime

namespace Venix.Libc

open Venix.Lib

/-! ## Arithmetic -/

theorem int?_eq {n : Int} (h1 : -32768 ≤ n) (h2 : n < 32768) : int? n = some n :=
  if_pos ⟨h1, h2⟩

theorem long?_eq {n : Int} (h1 : -2147483648 ≤ n) (h2 : n < 2147483648) : long? n = some n :=
  if_pos ⟨h1, h2⟩

theorem tdiv_nonneg {n d : Int} (h : 0 ≤ n) : n.tdiv d = n / d :=
  Int.tdiv_eq_ediv_of_nonneg h

theorem tmod_nonneg {n d : Int} (h : 0 ≤ n) : n.tmod d = n % d :=
  Int.tmod_eq_emod_of_nonneg h

/-- The remainder of a negative time is negative, or 0. -/
theorem split_neg {t : Int} (h : t < 0) :
    t.tmod 86400 = -(-t % 86400) ∧ t.tdiv 86400 = -(-t / 86400) := by
  obtain ⟨u, rfl⟩ : ∃ u, t = -u := ⟨-t, by omega⟩
  rw [Int.neg_neg, Int.neg_tmod, Int.neg_tdiv, tmod_nonneg (by omega), tdiv_nonneg (by omega)]
  exact ⟨rfl, rfl⟩

/-! ## Years -/

/-- In the years that are reached every fourth year is a leap year. -/
theorem dysize_eq {y : Nat} (h1 : 1 ≤ y) (h2 : y < 200) :
    dysize y = yearLength (1900 + y) := by
  unfold dysize
  rw [tmod_nonneg (by omega), yearLength_eq]
  split <;> split <;> first | rfl | omega

/-- The days before a year of this era. -/
theorem daysToYear_eq (y : Nat) : daysToYear (1900 + y) + (1899 + y) / 100 =
    365 * (1900 + y) + (1899 + y) / 4 + (1899 + y) / 400 + 1 := by
  have := daysToYear_succ_eq (1899 + y)
  rwa [show 1899 + y + 1 = 1900 + y by omega] at this

theorem daysToYear_next (y : Nat) :
    daysToYear (1900 + (y + 1)) = daysToYear (1900 + y) + yearLength (1900 + y) := rfl

/-- The number of January 1st, 1970. -/
theorem epoch_eq : daysToYear (1900 + 70) = 719528 := by
  have := daysToYear_eq 70
  omega

/-- The day is in the year. -/
def InYear (n : Int) (s : Int × Int) : Prop :=
  ∃ y : Nat, s.1 = (y : Int) ∧ 1 ≤ y ∧ y ≤ 138 ∧ s.2 + (daysToYear (1900 + y) : Int) = n ∧
    0 ≤ s.2 ∧ s.2 < (yearLength (1900 + y) : Int)

/-- The day is in the year or in a later one. -/
def FromYear (n : Int) (s : Int × Int) : Prop :=
  ∃ y : Nat, s.1 = (y : Int) ∧ 70 ≤ y ∧ s.2 + (daysToYear (1900 + y) : Int) = n ∧ 0 ≤ s.2

/-- The day is in the year or in an earlier one. -/
def ToYear (n : Int) (s : Int × Int) : Prop :=
  ∃ y : Nat, s.1 = (y : Int) ∧ 1 ≤ y ∧ y ≤ 70 ∧ s.2 + (daysToYear (1900 + y) : Int) = n ∧
    s.2 < (yearLength (1900 + y) : Int)

theorem yearsUp_spec {n day : Int} (h : day + 719528 = n) (h0 : 0 ≤ day) (hmax : day ≤ 24855) :
    ∃ s, yearsUp (70, day) = some s ∧ InYear n s := by
  have hlate : ∀ y : Nat, (daysToYear (1900 + y) : Int) ≤ n → y ≤ 138 := by
    intro y hy
    have := daysToYear_eq y
    omega
  have hbody : ∀ s, FromYear n s → decide (s.2 ≥ dysize s.1) = true →
      ∃ s', upTurn s = some s' ∧ FromYear n s' ∧ s'.2.toNat < s.2.toNat := by
    rintro ⟨d1, day⟩ ⟨y, hy, h1, h2, h3⟩ hmore
    dsimp only at hy h2 h3 hmore
    subst hy
    have h138 := hlate y (by omega)
    rw [decide_eq_true_eq, dysize_eq (by omega) (by omega)] at hmore
    have hpos : 0 < yearLength (1900 + y) := by
      rw [yearLength_eq]
      split <;> omega
    have hnext := daysToYear_next y
    refine ⟨(y + 1, day - yearLength (1900 + y)), ?_, ⟨y + 1, by omega, by omega, ?_, ?_⟩, ?_⟩
    · unfold upTurn
      rw [dysize_eq (by omega) (by omega), long?_eq (by omega) (by omega),
        int?_eq (by omega) (by omega)]
      rfl
    · rw [hnext]
      dsimp only
      omega
    · dsimp only
      omega
    · dsimp only
      omega
  have hstart : FromYear n (70, day) := by
    exact ⟨70, rfl, by omega, by rw [epoch_eq]; exact h, h0⟩
  obtain ⟨⟨d1, day'⟩, hrun, hinv, hdone⟩ := whileLoop_spec (c := fun s => s.2 ≥ dysize s.1) (FromYear n)
    (fun s => s.2.toNat) hbody (n := maxLoops) hstart (by unfold maxLoops; dsimp only; omega)
  obtain ⟨y, hy, h1, h2, h3⟩ := hinv
  dsimp only at hy h2 h3 hdone
  subst hy
  have h138 := hlate y (by omega)
  rw [decide_eq_false_iff_not, dysize_eq (by omega) (by omega)] at hdone
  exact ⟨_, hrun, y, rfl, by omega, h138, h2, h3, by dsimp only; omega⟩

theorem yearsDown_spec {n day : Int} (h : day + 719528 = n) (h0 : day < 0) (hmin : -24856 ≤ day) :
    ∃ s, yearsDown (70, day) = some s ∧ InYear n s := by
  have hearly : ∀ y : Nat, n < daysToYear (1900 + y) → 2 ≤ y := by
    intro y hy
    have := daysToYear_eq y
    omega
  have hbody : ∀ s, ToYear n s → decide (s.2 < 0) = true →
      ∃ s', downTurn s = some s' ∧ ToYear n s' ∧ s'.1.toNat < s.1.toNat := by
    rintro ⟨d1, day⟩ ⟨y, hy, h1, h2, h3, h4⟩ hmore
    dsimp only at hy h3 h4 hmore
    subst hy
    rw [decide_eq_true_eq] at hmore
    have hy2 := hearly y (by omega)
    obtain ⟨x, rfl⟩ : ∃ x, y = x + 1 := ⟨y - 1, by omega⟩
    have hnext := daysToYear_next x
    have hlen : yearLength (1900 + x) ≤ 366 := by
      rw [yearLength_eq]
      split <;> omega
    have hbound := daysToYear_eq (x + 1)
    refine ⟨(x, day + yearLength (1900 + x)), ?_, ⟨x, rfl, by omega, by omega, ?_, ?_⟩, ?_⟩
    · unfold downTurn
      rw [show ((x + 1 : Nat) : Int) - 1 = x by omega, int?_eq (by omega) (by omega)]
      simp only [Option.bind_eq_bind, Option.bind_some]
      rw [dysize_eq (by omega) (by omega), long?_eq (by omega) (by omega)]
      rfl
    · dsimp only
      omega
    · dsimp only
      omega
    · dsimp only
      omega
  have hstart : ToYear n (70, day) := by
    refine ⟨70, rfl, by omega, by omega, by rw [epoch_eq]; exact h, ?_⟩
    dsimp only
    omega
  obtain ⟨⟨d1, day'⟩, hrun, hinv, hdone⟩ := whileLoop_spec (c := fun s => s.2 < 0) (ToYear n)
    (fun s => s.1.toNat) hbody (n := maxLoops) hstart (by unfold maxLoops; dsimp only; omega)
  obtain ⟨y, hy, h1, h2, h3, h4⟩ := hinv
  dsimp only at hy h3 h4 hdone
  subst hy
  rw [decide_eq_false_iff_not] at hdone
  exact ⟨_, hrun, y, rfl, h1, by omega, h3, by dsimp only; omega, h4⟩

/-! ## Months -/

/-- The table of the months while `gmtime` uses it. -/
def table (y : Nat) : List Int := (monthLengths y).map Int.ofNat

theorem table_eq {y : Nat} (h1 : 1 ≤ y) (h2 : y < 200) :
    (if dysize y = 366 then dmsize.set 1 29 else dmsize) = table (1900 + y) := by
  rw [dysize_eq h1 h2]
  unfold yearLength table monthLengths
  cases h : leap (1900 + y) <;> rfl

/-- The table is put back as it was. -/
theorem table_restored (y : Nat) : (table y).set 1 28 = dmsize := rfl

theorem at?_table (y : Nat) {m : Nat} (hm : m < 12) :
    at? (table y) m = some ((monthLength y m : Nat) : Int) := by
  have hlen : (monthLengths y).length = 12 := rfl
  unfold at? table monthLength
  rw [if_pos (by omega), Int.toNat_natCast, List.getElem?_map, List.getElem?_eq_getElem (by omega),
    List.getD_eq_getElem?_getD, List.getElem?_eq_getElem (by omega)]
  rfl

/-- The day of the year is in the month or in a later one. -/
def FromMonth (y : Nat) (yday : Int) (s : Int × Int) : Prop :=
  ∃ m : Nat, s.1 = (m : Int) ∧ m < 12 ∧ s.2 + (daysToMonth y m : Int) = yday ∧ 0 ≤ s.2

/-- The day of the year is in the month. -/
def InMonth (y : Nat) (yday : Int) (s : Int × Int) : Prop :=
  ∃ m : Nat, s.1 = (m : Int) ∧ m < 12 ∧ s.2 + (daysToMonth y m : Int) = yday ∧ 0 ≤ s.2 ∧
    s.2 < (monthLength y m : Int)

theorem months_spec {y : Nat} {yday : Int} (h0 : 0 ≤ yday) (h : yday < (yearLength y : Int)) :
    ∃ s, months (table y) (0, yday) = some s ∧ InMonth y yday s := by
  have hlen : yearLength y ≤ 366 := by
    rw [yearLength_eq]
    split <;> omega
  have hturn : ∀ s, FromMonth y yday s →
      (∃ s', monthTurn (table y) s = some (.more s') ∧ FromMonth y yday s' ∧
        (12 - s'.1).toNat < (12 - s.1).toNat) ∨
      ∃ r, monthTurn (table y) s = some (.done r) ∧ InMonth y yday r := by
    rintro ⟨d1, d0⟩ ⟨m, hm, hlt, hsum, hpos⟩
    dsimp only at hm hsum hpos
    subst hm
    have hnext : daysToMonth y (m + 1) = daysToMonth y m + monthLength y m := rfl
    have hall : daysToMonth y (11 + 1) = yearLength y := daysToMonth_twelve y
    unfold monthTurn
    rw [at?_table y hlt]
    simp only [Option.bind_eq_bind, Option.bind_some]
    by_cases hmore : d0 ≥ (monthLength y m : Int)
    · have hm11 : m ≠ 11 := by
        rintro rfl
        omega
      left
      rw [if_pos hmore, int?_eq (by omega) (by omega), int?_eq (by omega) (by omega)]
      refine ⟨_, rfl, ⟨m + 1, by omega, by omega, ?_, ?_⟩, ?_⟩
      · dsimp only
        omega
      · dsimp only
        omega
      · dsimp only
        omega
    · right
      rw [if_neg hmore]
      exact ⟨_, rfl, m, rfl, hlt, hsum, hpos, by dsimp only; omega⟩
  have hstart : FromMonth y yday (0, yday) :=
    ⟨0, rfl, by omega, by dsimp only [daysToMonth]; omega, h0⟩
  exact loop_spec (FromMonth y yday) (InMonth y yday) (fun s => (12 - s.1).toNat) hturn hstart
    (by unfold maxLoops; dsimp only; omega)

/-! ## `gmtime` -/

/-- The second of the time that a date and an hour, minute and second denote. -/
def instant (y m d h min s : Nat) : Int :=
  ((dayNumber y m d : Int) - dayNumber 1970 0 1) * 86400 + h * 3600 + min * 60 + s

/-- The fields are in their ranges and denote the time `t`. -/
structure Denotes (tm : Tm) (t : Int) : Prop where
  sec : 0 ≤ tm.sec ∧ tm.sec < 60
  min : 0 ≤ tm.min ∧ tm.min < 60
  hour : 0 ≤ tm.hour ∧ tm.hour < 24
  year : 1 ≤ tm.year ∧ tm.year ≤ 138
  mon : 0 ≤ tm.mon
  yday : 0 ≤ tm.yday
  wday : 0 ≤ tm.wday
  mday : 0 ≤ tm.mday
  date : ValidDate (1900 + tm.year.toNat) tm.mon.toNat tm.mday.toNat
  time : instant (1900 + tm.year.toNat) tm.mon.toNat tm.mday.toNat tm.hour.toNat tm.min.toNat
    tm.sec.toNat = t
  weekday : tm.wday = weekday (dayNumber (1900 + tm.year.toNat) tm.mon.toNat tm.mday.toNat)
  dayOfYear : tm.yday = daysToMonth (1900 + tm.year.toNat) tm.mon.toNat + (tm.mday.toNat - 1)
  isdst : tm.isdst = 0

theorem splitDay_eq {t : Int} (h1 : -2147483648 ≤ t) (h2 : t < 2147483648) :
    splitDay t = some (t % 86400, t / 86400) := by
  unfold splitDay
  by_cases h : 0 ≤ t
  · rw [tmod_nonneg h, tdiv_nonneg h, long?_eq (by omega) (by omega),
      long?_eq (by omega) (by omega)]
    simp only [Option.bind_eq_bind, Option.bind_some]
    rw [if_neg (by omega)]
  · obtain ⟨hmod, hdiv⟩ := split_neg (t := t) (by omega)
    rw [hmod, hdiv, long?_eq (by omega) (by omega), long?_eq (by omega) (by omega)]
    simp only [Option.bind_eq_bind, Option.bind_some]
    by_cases hneg : -(-t % 86400) < 0
    · rw [if_pos hneg, long?_eq (by omega) (by omega), long?_eq (by omega) (by omega)]
      simp only [Option.bind_some]
      rw [show -(-t % 86400) + 86400 = t % 86400 by omega,
        show -(-t / 86400) - 1 = t / 86400 by omega]
    · rw [if_neg hneg, show -(-t % 86400) = t % 86400 by omega,
        show -(-t / 86400) = t / 86400 by omega]

theorem years_spec {day : Int} (h1 : -24856 ≤ day) (h2 : day ≤ 24855) :
    ∃ s, years day = some s ∧ InYear (day + 719528) s := by
  unfold years
  split
  · next h => exact yearsUp_spec rfl h h2
  · next h => exact yearsDown_spec rfl (by omega) h1

/-- The time from its days, hours, minutes and seconds. -/
theorem seconds_eq {t hms day : Int} (hhms : hms = t % 86400) (hday : day = t / 86400) :
    (day + 719528 - (719528 : Nat)) * 86400 + hms / 60 / 60 * 3600 + hms / 60 % 60 * 60 + hms % 60 = t := by
  have ht := Int.emod_add_mul_ediv t 86400
  have hs := Int.emod_add_mul_ediv hms 60
  have hm := Int.emod_add_mul_ediv (hms / 60) 60
  rw [← hhms, ← hday] at ht
  clear hhms hday
  generalize hms / 60 = a, hms % 60 = b at hs hm ⊢
  omega

theorem gmtime_spec {t : Int} (h1 : -2147483648 ≤ t) (h2 : t < 2147483648) :
    ∃ tm, gmtime dmsize t = some (tm, dmsize) ∧ Denotes tm t := by
  obtain ⟨hms, hhms⟩ : ∃ hms, hms = t % 86400 := ⟨_, rfl⟩
  obtain ⟨day, hday⟩ : ∃ day, day = t / 86400 := ⟨_, rfl⟩
  obtain ⟨⟨d1, d0⟩, hyears, y, hy, hy1, hy138, hn, hd0, hd0'⟩ :=
    years_spec (show -24856 ≤ day by omega) (by omega)
  dsimp only at hy hn hd0 hd0'
  subst hy
  have hlen : yearLength (1900 + y) ≤ 366 := by
    rw [yearLength_eq]
    split <;> omega
  obtain ⟨⟨d1, d⟩, hmonths, m, hm, hm12, hsum, hd, hd'⟩ := months_spec hd0 hd0'
  dsimp only at hm hsum hd hd'
  subst hm
  have hml : monthLength (1900 + y) m ≤ 366 := by
    have := daysToMonth_twelve (1900 + y)
    have := daysToMonth_mono (y := 1900 + y) (show m + 1 ≤ 12 by omega)
    rw [daysToMonth] at this
    omega
  have e1 : int? (hms.tmod 60) = some (hms % 60) := by
    rw [tmod_nonneg (by omega), int?_eq (by omega) (by omega)]
  have e2 : int? (hms.tdiv 60) = some (hms / 60) := by
    rw [tdiv_nonneg (by omega), int?_eq (by omega) (by omega)]
  have e3 : int? ((hms / 60).tmod 60) = some (hms / 60 % 60) := by
    rw [tmod_nonneg (by omega), int?_eq (by omega) (by omega)]
  have e4 : int? ((hms / 60).tdiv 60) = some (hms / 60 / 60) := by
    rw [tdiv_nonneg (by omega), int?_eq (by omega) (by omega)]
  have e5 : long? (day + 7340036) = some (day + 7340036) := long?_eq (by omega) (by omega)
  have e6 : int? ((day + 7340036).tmod 7) = some ((day + 7340036) % 7) := by
    rw [tmod_nonneg (by omega), int?_eq (by omega) (by omega)]
  have e7 : int? d0 = some d0 := int?_eq (by omega) (by omega)
  have e8 : int? (d + 1) = some (d + 1) := int?_eq (by omega) (by omega)
  have hnum : dayNumber 1970 0 1 = 719528 := by
    unfold dayNumber
    rw [show 1970 = 1900 + 70 by omega, epoch_eq, daysToMonth]
  refine ⟨⟨hms % 60, hms / 60 % 60, hms / 60 / 60, d + 1, m, y, (day + 7340036) % 7, d0, 0⟩, ?_, ?_⟩
  · unfold gmtime
    rw [splitDay_eq h1 h2, ← hhms, ← hday]
    simp only [Option.bind_eq_bind, Option.bind_some, e1, e2, e3, e4, e5, e6, hyears, e7,
      table_eq hy1 (show y < 200 by omega), hmonths, e8, table_restored]
  · have hday' : (d + 1).toNat - 1 = d.toNat := by omega
    have hnumber : (dayNumber (1900 + y) m (d + 1).toNat : Int) = day + 719528 := by
      unfold dayNumber
      rw [hday']
      omega
    refine ⟨?_, ?_, ?_, ?_, ?_, ?_, ?_, ?_, ⟨?_, ?_, ?_⟩, ?_, ?_, ?_, rfl⟩ <;>
      dsimp only <;> try simp only [Int.toNat_natCast]
    · omega
    · omega
    · omega
    · omega
    · omega
    · omega
    · omega
    · omega
    · exact hm12
    · omega
    · omega
    · unfold instant
      rw [hnumber, hnum, Int.toNat_of_nonneg (by omega), Int.toNat_of_nonneg (by omega),
        Int.toNat_of_nonneg (by omega)]
      exact seconds_eq hhms hday
    · unfold weekday
      clear * - hnumber
      omega
    · omega

end Venix.Libc
