/-
  Time of day: `ftime` (`sys4.c`) and the lines of `clock` (`clock.c`) that keep `lbolt` and `time`.

  `lbolt` counts the ticks that are not in `time` yet. A tick that finds the processor at a high
  priority leaves the carry into `time` to a later one, so `lbolt` can be `HZ` or more when `ftime`
  looks at it. `ftime` then takes off one second, but only where `lbolt` is more than `HZ`. A tick is
  one step: the lines that take the carry off `lbolt` and add it to `time` are not interrupted by
  anything that reads them.
-/
import Venix.Lib.Run

namespace Venix.Kernel

open Venix.Lib

/-- `HZ`: ticks in a second. -/
def hz : Nat := 60

/-- `BASEPRI(ps)`: the priority bits of a processor status. -/
def basePri (ps : BitVec 16) : Bool := ps &&& 0o340 ≠ 0

def minutesWest : BitVec 16 := 5 * 60

/-- `time`, a `long`, and `lbolt`, an `int`. -/
structure Tod where
  time : BitVec 32
  lbolt : BitVec 16
  deriving DecidableEq

structure Timeb where
  time : BitVec 32
  millitm : BitVec 16
  timezone : BitVec 16
  dstflag : BitVec 16
  deriving DecidableEq

namespace Tod

/-- A tick, with the processor status that the interrupt has found. -/
def clock (ps : BitVec 16) (s : Tod) : Tod :=
  let s := { s with lbolt := s.lbolt + 1 }
  if (hz : Int) ≤ s.lbolt.toInt then
    if basePri ps then s
    else
      { time := s.time + 1
        lbolt := s.lbolt - BitVec.ofNat 16 hz }
  else s

/-- `ms` is unsigned. -/
def ftime (s : Tod) : Timeb :=
  let late : Bool := hz < s.lbolt.toNat
  let ms := if late then s.lbolt - BitVec.ofNat 16 hz else s.lbolt
  { time := if late then s.time + 1 else s.time
    millitm := 1000 * ms / BitVec.ofNat 16 hz
    timezone := minutesWest
    dstflag := 1 }

inductive Act where
  | clock (ps : BitVec 16)
  | ftime

def step (s : Tod) : Act → Tod × Option Timeb
  | .clock ps => (s.clock ps, none)
  | .ftime => (s, some s.ftime)

/-- What `ftime` has returned, call by call. -/
def answers (s : Tod) (acts : List Act) : List Timeb := (exec step s acts).2.reduceOption

/-- The largest `long`. -/
def maxTime : Int := 2 ^ 31 - 1

/-- `ftime` finds less than a second in `lbolt`, or more than one and less than two; a tick overflows
neither `lbolt` nor `time`. -/
def Fits (s : Tod) : Act → Prop
  | .clock _ => s.lbolt.toInt ≠ 2 ^ 15 - 1 ∧ (s.lbolt.toInt < hz - 1 ∨ s.time.toInt ≠ maxTime)
  | .ftime => s.lbolt.toInt < hz ∨
      hz < s.lbolt.toInt ∧ s.lbolt.toInt < 2 * hz ∧ s.time.toInt ≠ maxTime

instance : ∀ (s : Tod) (a : Act), Decidable (Fits s a)
  | _, .clock _ => inferInstanceAs (Decidable (_ ∧ _))
  | _, .ftime => inferInstanceAs (Decidable (_ ∨ _))

end Tod

/-! ## Ticks -/

namespace Timeb

/-- The number of milliseconds is one. -/
def Proper (t : Timeb) : Prop := t.millitm.toNat < 1000

instance (t : Timeb) : Decidable t.Proper := inferInstanceAs (Decidable (_ < _))

/-- `t` is not after `t'`. -/
def NotAfter (t t' : Timeb) : Prop :=
  t.time.toInt < t'.time.toInt ∨ t.time.toInt = t'.time.toInt ∧ t.millitm.toNat ≤ t'.millitm.toNat

/-- The time after `n` ticks in all. -/
def Stamps (t : Timeb) (n : Int) : Prop :=
  t.time.toInt = n / hz ∧ (t.millitm.toNat : Int) = 1000 * (n % hz) / hz

theorem Stamps.proper {t : Timeb} {n : Int} (h : t.Stamps n) : t.Proper := by
  have := h.2
  unfold Proper hz at *
  omega

theorem Stamps.notAfter {t t' : Timeb} {n n' : Int} (h : t.Stamps n) (h' : t'.Stamps n')
    (hle : n ≤ n') : t.NotAfter t' := by
  obtain ⟨h1, h2⟩ := h
  obtain ⟨h1', h2'⟩ := h'
  unfold NotAfter hz at *
  omega

end Timeb

namespace Tod

/-- The ticks in `time` and in `lbolt`. -/
def ticks (s : Tod) : Int := hz * s.time.toInt + s.lbolt.toInt

theorem lbolt_succ {x : BitVec 16} (h : x.toInt ≠ 2 ^ 15 - 1) : (x + 1).toInt = x.toInt + 1 := by
  have hlo := x.le_toInt
  have hhi := x.toInt_lt
  rw [BitVec.toInt_add]
  exact Int.bmod_eq_of_le (by simp; omega) (by simp; omega)

theorem lbolt_less {x : BitVec 16} (h : (hz : Int) ≤ x.toInt) :
    (x - BitVec.ofNat 16 hz).toInt = x.toInt - hz := by
  have hhi := x.toInt_lt
  unfold hz at *
  rw [BitVec.toInt_sub]
  exact Int.bmod_eq_of_le (by simp; omega) (by simp; omega)

theorem time_succ {x : BitVec 32} (h : x.toInt ≠ maxTime) : (x + 1).toInt = x.toInt + 1 := by
  have hlo := x.le_toInt
  have hhi := x.toInt_lt
  unfold maxTime at h
  rw [BitVec.toInt_add]
  exact Int.bmod_eq_of_le (by simp; omega) (by simp; omega)

/-- A tick is one tick more. -/
theorem clock_spec {s : Tod} {ps : BitVec 16} (h0 : 0 ≤ s.lbolt.toInt) (h : s.Fits (.clock ps)) :
    (s.clock ps).ticks = s.ticks + 1 ∧ 0 ≤ (s.clock ps).lbolt.toInt := by
  obtain ⟨hlbolt, htime⟩ := h
  have hsucc := lbolt_succ hlbolt
  unfold clock
  dsimp only
  split
  · rename_i hle
    split
    · unfold ticks
      dsimp only
      omega
    · have hless := lbolt_less hle
      have htick := time_succ (x := s.time) (by omega)
      unfold ticks
      dsimp only
      unfold hz at *
      omega
  · unfold ticks
    dsimp only
    omega

theorem lbolt_toNat {s : Tod} (h0 : 0 ≤ s.lbolt.toInt) : (s.lbolt.toNat : Int) = s.lbolt.toInt := by
  have hl := s.lbolt.isLt
  rw [BitVec.toInt_eq_toNat_cond] at h0 ⊢
  split
  · rfl
  · omega

theorem millitm_toNat {ms : BitVec 16} (h : ms.toNat < hz) :
    (1000 * ms / BitVec.ofNat 16 hz).toNat = 1000 * ms.toNat / hz := by
  unfold hz at *
  rw [BitVec.toNat_udiv, BitVec.toNat_mul]
  change 1000 * ms.toNat % 65536 / 60 = 1000 * ms.toNat / 60
  rw [Nat.mod_eq_of_lt (by omega)]

/-- Where `lbolt` is not a whole number of seconds or more than two, `ftime` accounts for all of it. -/
theorem ftime_stamps {s : Tod} (h0 : 0 ≤ s.lbolt.toInt) (h : s.Fits .ftime) :
    s.ftime.Stamps s.ticks := by
  have hnat := lbolt_toNat h0
  rcases h with hlow | ⟨hlate, htwo, htime⟩
  · have hms : s.lbolt.toNat < hz := by omega
    have hl : decide (hz < s.lbolt.toNat) = false := decide_eq_false (by omega)
    unfold ftime Timeb.Stamps ticks
    rw [hl]
    dsimp only
    rw [if_neg (by decide), if_neg (by decide), millitm_toNat hms]
    push_cast
    rw [hnat]
    unfold hz at *
    omega
  · have hl : decide (hz < s.lbolt.toNat) = true := decide_eq_true (by omega)
    have hless : (s.lbolt - BitVec.ofNat 16 hz).toNat = s.lbolt.toNat - hz := by
      unfold hz at *
      rw [BitVec.toNat_sub]
      change (2 ^ 16 - 60 + s.lbolt.toNat) % 2 ^ 16 = _
      have := s.lbolt.isLt
      omega
    have htick := time_succ htime
    unfold ftime Timeb.Stamps ticks
    rw [hl]
    dsimp only
    rw [if_pos rfl, if_pos rfl, millitm_toNat (by unfold hz at *; omega), htick, hless]
    unfold hz at *
    have hdiv : (((60 : Nat) : Int) * s.time.toInt + s.lbolt.toInt) / (60 : Nat) = s.time.toInt + 1 := by
      omega
    have hmod : (((60 : Nat) : Int) * s.time.toInt + s.lbolt.toInt) % (60 : Nat) =
        (s.lbolt.toNat - 60 : Nat) := by
      omega
    rw [hdiv, hmod]
    exact ⟨rfl, by push_cast; rfl⟩

/-! ## Runs -/

/-- Every answer of a run is the time after some number of ticks, and these do not decrease. -/
theorem answers_stamp (s : Tod) (acts : List Act) (h0 : 0 ≤ s.lbolt.toInt)
    (hfits : Allowed step Fits s acts) :
    (∀ t ∈ answers s acts, ∃ n, s.ticks ≤ n ∧ t.Stamps n) ∧
      (answers s acts).Pairwise Timeb.NotAfter := by
  induction acts generalizing s with
  | nil =>
    have hanswers : answers s [] = [] := rfl
    rw [hanswers]
    exact ⟨fun t ht => absurd ht List.not_mem_nil, List.Pairwise.nil⟩
  | cons a acts ih =>
    obtain ⟨ha, hrest⟩ := hfits
    cases a with
    | clock ps =>
      obtain ⟨hticks, hpos⟩ := clock_spec h0 ha
      obtain ⟨hall, hpair⟩ := ih (s.clock ps) hpos hrest
      have hanswers : answers s (.clock ps :: acts) = answers (s.clock ps) acts := rfl
      rw [hanswers]
      refine ⟨fun t ht => ?_, hpair⟩
      obtain ⟨n, hn, hstamp⟩ := hall t ht
      exact ⟨n, by omega, hstamp⟩
    | ftime =>
      have hstamp := ftime_stamps h0 ha
      obtain ⟨hall, hpair⟩ := ih s h0 hrest
      have hanswers : answers s (.ftime :: acts) = s.ftime :: answers s acts := rfl
      rw [hanswers]
      refine ⟨fun t ht => ?_, List.Pairwise.cons (fun t ht => ?_) hpair⟩
      · rcases List.mem_cons.1 ht with rfl | ht
        · exact ⟨s.ticks, Int.le_refl _, hstamp⟩
        · exact hall t ht
      · obtain ⟨n, hn, hstamp'⟩ := hall t ht
        exact hstamp.notAfter hstamp' hn

/-- In every run in which `ftime` never finds a whole second, or two seconds and more, in `lbolt`, and
in which nothing overflows, the milliseconds are proper and the time never goes back. -/
theorem ftime_monotone (s : Tod) (acts : List Act) (h0 : s.lbolt = 0)
    (hfits : Allowed step Fits s acts) :
    (∀ t ∈ answers s acts, t.Proper) ∧ (answers s acts).Pairwise Timeb.NotAfter := by
  obtain ⟨hall, hpair⟩ := answers_stamp s acts (by rw [h0]; decide) hfits
  refine ⟨fun t ht => ?_, hpair⟩
  obtain ⟨n, -, hstamp⟩ := hall t ht
  exact hstamp.proper

/-- A second and a half, the first 70 ticks of it at a high priority. -/
def lateTicks : List Act :=
  List.replicate 70 (.clock 0o340) ++ [.ftime] ++ List.replicate 20 (.clock 0) ++ [.ftime]

theorem ftime_monotone_late : (∀ t ∈ answers ⟨7, 0⟩ lateTicks, t.Proper) ∧
    (answers ⟨7, 0⟩ lateTicks).Pairwise Timeb.NotAfter :=
  ftime_monotone ⟨7, 0⟩ lateTicks rfl (by decide +kernel)

/-- Sixty ticks at a high priority leave `HZ` in `lbolt`: there are 1000 milliseconds, and one tick at
low priority later there are 16. -/
theorem ftime_wholeSecond :
    (answers ⟨7, 0⟩ (List.replicate 60 (.clock 0o340) ++ [.ftime])).map
      (fun t => (t.time.toInt, t.millitm.toNat)) = [(7, 1000)] ∧
    ¬∀ t ∈ answers ⟨7, 0⟩ (List.replicate 60 (.clock 0o340) ++ [.ftime]), t.Proper := by
  refine ⟨by decide +kernel, ?_⟩
  decide +kernel

end Tod

end Venix.Kernel
