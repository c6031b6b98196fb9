/-
  What the host makes of the system calls of the emulators, in `pcvenix.h` and `venix.c`.
-/
import Mathlib.Data.List.Basic

namespace Venix.Emul

abbrev Byte := BitVec 8
abbrev DWord := BitVec 32

/-- `VENIX_NOFILE`. -/
abbrev venixNofile : Nat := 20

def eBADF : DWord := 9
def eFAULT : DWord := 14

/-- What a `read` or `write` of the host leaves: its value, `errno` and the buffer. -/
structure HostReturn where
  rv : Int
  errno : DWord
  buffer : List Byte

/-- `rdwr_fn`: of a descriptor and the buffer. -/
abbrev RdwrFn := Int → List Byte → HostReturn

/-- `lseek` of the host, of a descriptor, an offset and `whence`: its value and `errno`. -/
abbrev LseekFn := Int → Int → Nat → Int × DWord

/-- A `read` that delivers `l`; `errno` is not set. -/
def hostRead (errno : DWord) (l : List Byte) : RdwrFn :=
  fun _ buffer => ⟨l.length, errno, l ++ buffer.drop l.length⟩

/-- The outcome of a call: a value below `limit`, or an error. -/
inductive Outcome (limit : Nat) where
  | value (v : Nat) (lt : v < limit)
  | failed (e : Nat) (pos : 0 < e) (le : e ≤ 255)

namespace Outcome

variable {limit : Nat}

def rv : Outcome limit → Int
  | value v _ => v
  | failed _ _ _ => -1

/-- `errno` after the call, where it was `errno` before. -/
def errno (stale : DWord) : Outcome limit → DWord
  | value _ _ => stale
  | failed e _ _ => BitVec.ofNat 32 e

/-- The guest gets `cx` and `result` for the outcome. -/
def Reported (cx : BitVec 16) (result : Nat) : Outcome limit → Prop
  | value v _ => cx = 0 ∧ result = v
  | failed e _ _ => cx ≠ 0 ∧ cx.toNat = e

end Outcome

end Venix.Emul
