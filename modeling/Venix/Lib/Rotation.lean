/-
  Rotations of bits.
-/
import Mathlib.Data.Nat.Bitwise

namespace Venix.Lib

/-- The `w` bits of `g` are those of `f`, moved up `n` times, the highest coming in at the bottom. -/
def Rotated (w n : Nat) (f g : Nat → Bool) : Prop := ∀ i < w, g ((i + n) % w) = f i

variable {w n k : Nat} {f f' g h : Nat → Bool}

theorem rotated_zero : Rotated w 0 f g ↔ ∀ i < w, g i = f i :=
  forall₂_congr fun i hi => by rw [Nat.add_zero, Nat.mod_eq_of_lt hi]

theorem Rotated.trans (hf : Rotated w n f g) (hg : Rotated w k g h) : Rotated w (n + k) f h := by
  intro i hi
  have hstep := hg _ (Nat.mod_lt (i + n) (Nat.zero_lt_of_lt hi))
  rw [Nat.mod_add_mod, Nat.add_assoc] at hstep
  rw [hstep, hf i hi]

/-- One turn. -/
theorem rotated_one (hup : ∀ i, i + 1 < w → g (i + 1) = f i) (hround : g 0 = f (w - 1)) :
    Rotated w 1 f g := by
  intro i hi
  by_cases hlast : i + 1 < w
  · rw [Nat.mod_eq_of_lt hlast, hup i hlast]
  · obtain rfl : i = w - 1 := by omega
    rw [Nat.sub_add_cancel (Nat.zero_lt_of_lt hi), Nat.mod_self, hround]

/-- Turning back is possible in one way only. -/
theorem Rotated.unique (hf : Rotated w n f g) (hf' : Rotated w n f' g) : ∀ i < w, f i = f' i :=
  fun i hi => (hf i hi).symm.trans (hf' i hi)

/-- The bit that has come to the bottom. -/
theorem Rotated.bottom (hf : Rotated w n f g) (hw : 0 < w) : g 0 = f ((w - n % w) % w) := by
  have hlast := hf _ (Nat.mod_lt (w - n % w) hw)
  have hn := Nat.mod_lt n hw
  rwa [Nat.mod_add_mod, ← Nat.add_mod_mod, Nat.sub_add_cancel hn.le, Nat.mod_self] at hlast

end Venix.Lib
