/-
  The text that `asctime` builds.

  `readText` reads it by columns: the names of the day and of the month, and the numbers, with a
  blank as the digit 0. What it reads is what `asctime` was given (`asctime_spec`), so that the
  text of the result of `gmtime` denotes the time. `gmtime_asctime` is the result.
-/
import Venix.Libc.CtimeRun

namespace Venix.Libc

open Venix.Lib

/-! ## Reading by columns -/

/-- `n` characters from column `i` on. -/
def columnsAt (text : List Char) (i n : Nat) : List Char := (text.drop i).take n

/-- A digit, or a blank. -/
def readDigit (c : Char) : Option Nat :=
  if c = ' ' then some 0
  else if 48 ≤ c.toNat ∧ c.toNat < 58 then some (c.toNat - 48)
  else none

def readNumber (cs : List Char) : Option Nat :=
  cs.foldlM (fun n c => (readDigit c).map (10 * n + ·)) 0

/-- Which name of three characters this is. -/
def readName (names : List Char) (cs : List Char) : Option Nat :=
  (List.range (names.length / 3)).find? fun p => columnsAt names (3 * p) 3 = cs

/-- What a text says. -/
structure Reading where
  wday : Nat
  mon : Nat
  mday : Nat
  hour : Nat
  min : Nat
  sec : Nat
  year : Nat
  deriving DecidableEq, Repr

/-- The characters between the names and numbers, and the end of the line and of the string. -/
def separators : List (Nat × Char) :=
  [(3, ' '), (7, ' '), (10, ' '), (13, ':'), (16, ':'), (19, ' '), (24, '\n'), (25, nul)]

def readText (text : List Char) : Option Reading :=
  if text.length = 26 ∧ separators.all (fun p => columnsAt text p.1 1 = [p.2]) then do
    let wday ← readName dayNames (columnsAt text 0 3)
    let mon ← readName monthNames (columnsAt text 4 3)
    let mday ← readNumber (columnsAt text 8 2)
    let hour ← readNumber (columnsAt text 11 2)
    let min ← readNumber (columnsAt text 14 2)
    let sec ← readNumber (columnsAt text 17 2)
    let year ← readNumber (columnsAt text 20 4)
    some ⟨wday, mon, mday, hour, min, sec, year⟩
  else none

theorem readDigit_digit {n : Nat} (h : n < 10) : readDigit (digit n) = some n := by
  have hall : ∀ n < 10, readDigit (digit ((n : Nat) : Int)) = some n := by decide
  exact hall n h

theorem readNumber_two {a b : Char} {x y : Nat} (ha : readDigit a = some x)
    (hb : readDigit b = some y) : readNumber [a, b] = some (10 * x + y) := by
  simp [readNumber, ha, hb]

theorem readNumber_four {a b c d : Char} {x y z w : Nat} (ha : readDigit a = some x)
    (hb : readDigit b = some y) (hc : readDigit c = some z) (hd : readDigit d = some w) :
    readNumber [a, b, c, d] = some (10 * (10 * (10 * x + y) + z) + w) := by
  simp [readNumber, ha, hb, hc, hd]

/-! ## Writing -/

theorem bind_of_eq {α β : Type} {x : Option α} {a : α} (h : x = some a) (f : α → Option β) :
    (x >>= f) = f a := by
  rw [h]
  rfl

theorem put_eq {cbuf : List Char} {cp : Nat} (h : cp < cbuf.length) (c : Char) :
    put cbuf cp c = some (cbuf.set cp c) := if_pos h

/-- The string, its end, and what was after. -/
theorem copyString_eq (s cbuf : List Char) (cp : Nat) (h : cp + s.length < cbuf.length) :
    copyString s cbuf cp =
      some (cbuf.take cp ++ s ++ nul :: cbuf.drop (cp + s.length + 1)) := by
  induction s generalizing cbuf cp with
  | nil =>
    rw [copyString, put_eq (by simpa using h), List.set_eq_take_append_cons_drop,
      if_pos (by simpa using h)]
    simp
  | cons c s ih =>
    rw [List.length_cons] at h
    rw [copyString, put_eq (by omega)]
    simp only [Option.bind_eq_bind, Option.bind_some]
    rw [ih _ _ (by rw [List.length_set]; omega), List.drop_set_of_lt (by omega),
      List.take_add_one, List.take_set_of_le (Nat.le_refl cp),
      List.getElem?_set_self (by omega), List.length_cons]
    simp [Nat.add_assoc, Nat.add_comm 1]

/-- Any buffer of 26 characters becomes the template. -/
theorem copyString_template {cbuf : List Char} (h : cbuf.length = 26) :
    copyString template cbuf 0 = some (template ++ [nul]) := by
  have hlen : template.length = 25 := rfl
  rw [copyString_eq _ _ _ (by omega), hlen, List.drop_eq_nil_of_le (by omega)]
  rfl

/-- The three characters of a name. -/
structure Named (names : List Char) (p : Nat) (a b c : Char) : Prop where
  first : at? names (3 * p : Nat) = some a
  second : at? names ((3 * p : Nat) + 1) = some b
  third : at? names ((3 * p : Nat) + 2) = some c
  read : readName names [a, b, c] = some p

theorem dayNames_named {p : Nat} (h : p < 7) : ∃ a b c, Named dayNames p a b c := by
  rcases p with _ | _ | _ | _ | _ | _ | _ | p
  all_goals first
    | exact ⟨_, _, _, rfl, rfl, rfl, by decide⟩
    | omega

theorem monthNames_named {p : Nat} (h : p < 12) : ∃ a b c, Named monthNames p a b c := by
  rcases p with _ | _ | _ | _ | _ | _ | _ | _ | _ | _ | _ | _ | p
  all_goals first
    | exact ⟨_, _, _, rfl, rfl, rfl, by decide⟩
    | omega

theorem putName_eq {names : List Char} {p : Nat} {a b c : Char} (h : Named names p a b c)
    {cbuf : List Char} {cp : Nat} (hcp : cp + 2 < cbuf.length) :
    putName names (3 * p : Nat) cbuf cp =
      some (((cbuf.set cp a).set (cp + 1) b).set (cp + 2) c) := by
  unfold putName
  rw [h.first, h.second, h.third, Option.bind_eq_bind, Option.bind_some, put_eq (by omega)]
  simp only [Option.bind_eq_bind, Option.bind_some]
  rw [put_eq (by rw [List.length_set]; omega)]
  simp only [Option.bind_some]
  rw [put_eq (by rw [List.length_set, List.length_set]; omega)]

/-- What stands for the tens of a number: a digit, or a blank. -/
def tens (n : Nat) : Char := if 10 ≤ n then digit (n / 10 % 10 : Nat) else ' '

theorem readDigit_tens (n : Nat) : readDigit (tens n) = some (n / 10 % 10) := by
  unfold tens
  by_cases hn : 10 ≤ n
  · rw [if_pos hn, readDigit_digit (Nat.mod_lt _ (by omega))]
  · rw [if_neg hn, show n / 10 % 10 = 0 by omega]
    rfl

theorem ct_numb_eq {cbuf : List Char} {cp : Nat} (hcp : cp + 2 < cbuf.length) (n : Nat) :
    ct_numb cbuf cp n = some
      ((cbuf.set (cp + 1) (tens n)).set (cp + 2) (digit (n % 10 : Nat)), cp + 3) := by
  unfold ct_numb tens
  rw [tdiv_nonneg (by omega), tmod_nonneg (by omega), tmod_nonneg (by omega)]
  by_cases hn : 10 ≤ n
  · rw [if_pos (by omega), if_pos hn, put_eq (by omega)]
    simp only [Option.bind_eq_bind, Option.bind_some]
    rw [put_eq (by rw [List.length_set]; omega)]
    rfl
  · rw [if_neg (by omega), if_neg hn, put_eq (by omega)]
    simp only [Option.bind_eq_bind, Option.bind_some]
    rw [put_eq (by rw [List.length_set]; omega)]
    rfl

/-- The characters of the text. -/
def textOf (day mon : Char × Char × Char) (mday hour min sec year : Nat) : List Char :=
  [day.1, day.2.1, day.2.2, ' ', mon.1, mon.2.1, mon.2.2, ' ',
    tens mday, digit (mday % 10 : Nat), ' ',
    tens (hour + 100), digit ((hour + 100) % 10 : Nat), ':',
    tens (min + 100), digit ((min + 100) % 10 : Nat), ':',
    tens (sec + 100), digit ((sec + 100) % 10 : Nat), ' ',
    if 100 ≤ year then '2' else '1', if 100 ≤ year then '0' else '9',
    tens (year + 100), digit ((year + 100) % 10 : Nat), '\n', nul]

theorem asctime_eq {cbuf : List Char} (hlen : cbuf.length = 26) {wday mon : Nat}
    {a b c d e f : Char} (hw : Named dayNames wday a b c) (hm : Named monthNames mon d e f)
    (hwday : wday < 7) (hmon : mon < 12) {mday hour min sec year : Nat} (hhour : hour < 24)
    (hmin : min < 60) (hsec : sec < 60) (hyear : year < 200) (yday isdst : Int) :
    asctime cbuf ⟨sec, min, hour, mday, mon, year, wday, yday, isdst⟩ =
      some (textOf (a, b, c) (d, e, f) mday hour min sec year) := by
  have e1 : int? (3 * (wday : Int)) = some ((3 * wday : Nat) : Int) := by
    rw [int?_eq (by omega) (by omega)]
    rfl
  have e2 : int? ((mon : Int) * 3) = some ((3 * mon : Nat) : Int) := by
    rw [int?_eq (by omega) (by omega), Int.mul_comm]
    rfl
  have e3 : ∀ n < 200, int? ((n : Nat) + 100) = some ((n + 100 : Nat) : Int) := by
    intro n hn
    rw [int?_eq (by omega) (by omega)]
    rfl
  have hl : (template ++ [nul]).length = 26 := rfl
  have hchars : template ++ [nul] = ['D', 'a', 'y', ' ', 'M', 'o', 'n', ' ', '0', '0', ' ', '0',
    '0', ':', '0', '0', ':', '0', '0', ' ', '1', '9', '0', '0', '\n', nul] := rfl
  unfold asctime
  rw [bind_of_eq (copyString_template hlen), bind_of_eq e1,
    bind_of_eq (putName_eq hw (by rw [hl]; omega)), bind_of_eq e2,
    bind_of_eq (putName_eq hm (by simp only [List.length_set, hl]; omega)),
    bind_of_eq (ct_numb_eq (by simp only [List.length_set, hl]; omega) mday)]
  dsimp only
  rw [bind_of_eq (e3 hour (by omega)),
    bind_of_eq (ct_numb_eq (by simp only [List.length_set, hl]; omega) _)]
  dsimp only
  rw [bind_of_eq (e3 min (by omega)),
    bind_of_eq (ct_numb_eq (by simp only [List.length_set, hl]; omega) _)]
  dsimp only
  rw [bind_of_eq (e3 sec (by omega)),
    bind_of_eq (ct_numb_eq (by simp only [List.length_set, hl]; omega) _)]
  dsimp only
  unfold textOf
  by_cases h : 100 ≤ year
  · rw [if_pos (by omega), bind_of_eq (put_eq (by simp only [List.length_set, hl]; omega) _),
      bind_of_eq (put_eq (by simp only [List.length_set, hl]; omega) _),
      bind_of_eq (e3 year hyear),
      bind_of_eq (ct_numb_eq (by simp only [List.length_set, hl]; omega) _), if_pos h, if_pos h,
      hchars]
    simp only [List.set_cons_zero, List.set_cons_succ, Nat.reduceAdd]
  · rw [if_neg (by omega), bind_of_eq rfl, bind_of_eq (e3 year hyear),
      bind_of_eq (ct_numb_eq (by simp only [List.length_set, hl]; omega) _), if_neg h, if_neg h,
      hchars]
    simp only [List.set_cons_zero, List.set_cons_succ, Nat.reduceAdd]

/-- Reading the text gives back what was written. -/
theorem readText_textOf {wday mon : Nat} {a b c d e f : Char} (hw : Named dayNames wday a b c)
    (hm : Named monthNames mon d e f) {mday hour min sec year : Nat} (hmday : mday < 100)
    (hhour : hour < 100) (hmin : min < 100) (hsec : sec < 100) (hyear : year < 200) :
    readText (textOf (a, b, c) (d, e, f) mday hour min sec year) =
      some ⟨wday, mon, mday, hour, min, sec, 1900 + year⟩ := by
  have hdigit : ∀ n : Nat, readDigit (digit (n % 10 : Nat)) = some (n % 10) :=
    fun n => readDigit_digit (Nat.mod_lt _ (by omega))
  have htwo : ∀ n : Nat, readNumber [tens n, digit (n % 10 : Nat)] =
      some (10 * (n / 10 % 10) + n % 10) :=
    fun n => readNumber_two (readDigit_tens n) (hdigit n)
  have hcentury : readNumber [if 100 ≤ year then '2' else '1', if 100 ≤ year then '0' else '9',
      tens (year + 100), digit ((year + 100) % 10 : Nat)] = some (1900 + year) := by
    by_cases h : 100 ≤ year
    · rw [if_pos h, if_pos h, readNumber_four (show readDigit '2' = some 2 from rfl)
        (show readDigit '0' = some 0 from rfl) (readDigit_tens _) (hdigit _)]
      congr 1
      omega
    · rw [if_neg h, if_neg h, readNumber_four (show readDigit '1' = some 1 from rfl)
        (show readDigit '9' = some 9 from rfl) (readDigit_tens _) (hdigit _)]
      congr 1
      omega
  unfold readText
  rw [if_pos ⟨rfl, rfl⟩]
  simp only [textOf, columnsAt, List.drop_succ_cons, List.drop_zero, List.take_succ_cons,
    List.take_zero, hw.read, hm.read, htwo, hcentury, Option.bind_eq_bind, Option.bind_some]
  congr 2 <;> omega

theorem asctime_spec {t : Int} {tm : Tm} (h : Denotes tm t) {cbuf : List Char}
    (hlen : cbuf.length = 26) :
    ∃ text, asctime cbuf tm = some text ∧ readText text = some ⟨tm.wday.toNat, tm.mon.toNat,
      tm.mday.toNat, tm.hour.toNat, tm.min.toNat, tm.sec.toNat, 1900 + tm.year.toNat⟩ := by
  obtain ⟨sec, min, hour, mday, mon, year, wday, yday, isdst⟩ := tm
  obtain ⟨hsec, hmin, hhour, hyear, hmon, -, hwday, hmday, hdate, -, hweek, -, -⟩ := h
  dsimp only at hsec hmin hhour hyear hmon hwday hmday hdate hweek
  have hlast := hdate.lt
  have hfirst := hdate.first
  have hmonth := hdate.month
  have hlong := hdate.last
  lift sec to Nat using hsec.1
  lift min to Nat using hmin.1
  lift hour to Nat using hhour.1
  lift year to Nat using by omega
  lift mon to Nat using hmon
  lift wday to Nat using hwday
  lift mday to Nat using hmday
  simp only [Int.toNat_natCast] at *
  have hwlt : wday < 7 := by
    unfold weekday at hweek
    omega
  have hlong31 : monthLength (1900 + year) mon ≤ 31 := monthLength_le _ _
  obtain ⟨a, b, c, hw⟩ := dayNames_named hwlt
  obtain ⟨d, e, f, hm⟩ := monthNames_named hmonth
  refine ⟨_, asctime_eq hlen hw hm hwlt hmonth
    (by omega) (by omega) (by omega) (by omega) yday isdst, ?_⟩
  exact readText_textOf hw hm (by omega) (by omega) (by omega) (by omega) (by omega)

/-- What is read is a date and an hour of the day, and they denote the time. -/
structure Reading.Tells (r : Reading) (t : Int) : Prop where
  date : ValidDate r.year r.mon r.mday
  hour : r.hour < 24
  min : r.min < 60
  sec : r.sec < 60
  time : instant r.year r.mon r.mday r.hour r.min r.sec = t
  weekday : r.wday = weekday (dayNumber r.year r.mon r.mday)

theorem gmtime_asctime {t : Int} (h1 : -2147483648 ≤ t) (h2 : t < 2147483648)
    {cbuf : List Char} (hlen : cbuf.length = 26) :
    ∃ tm text r, gmtime dmsize t = some (tm, dmsize) ∧ Denotes tm t ∧
      asctime cbuf tm = some text ∧ readText text = some r ∧ r.Tells t := by
  obtain ⟨tm, hrun, hden⟩ := gmtime_spec h1 h2
  obtain ⟨text, htext, hread⟩ := asctime_spec hden hlen
  have hsec := hden.sec
  have hmin := hden.min
  have hhour := hden.hour
  have hweek := hden.weekday
  refine ⟨tm, text, _, hrun, hden, htext, hread, hden.date, ?_, ?_, ?_, hden.time, ?_⟩
  · dsimp only
    omega
  · dsimp only
    omega
  · dsimp only
    omega
  · dsimp only
    omega

/-- February 29th, 2000. -/
theorem gmtime_asctime_leap_day :
    ∃ tm text r, gmtime dmsize 951782400 = some (tm, dmsize) ∧ Denotes tm 951782400 ∧
      asctime (List.replicate 26 nul) tm = some text ∧ readText text = some r ∧
      r.Tells 951782400 :=
  gmtime_asctime (by decide) (by decide) rfl

end Venix.Libc
