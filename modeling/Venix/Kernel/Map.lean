/-
  Resource maps (`malloc` and `mfree` of the kernel's `malloc.c`, `struct map` of `map.h`).

  A map is a table of entries, in order of address and ended by an entry of size 0. The source
  walks it with a pointer `bp`; here `bp` is the rest of the table from `bp` on, and `before`
  are the entries before `bp`, the nearest first. An operation that runs past the table is
  `none`. An `int` has 16 bits, as `m_size` and `m_addr` do: sizes are signed and addresses
  unsigned.
-/
import Mathlib.Tactic

namespace Venix.Kernel

structure MapEnt where
  mSize : BitVec 16
  mAddr : BitVec 16
  deriving DecidableEq, Repr

/-- The `do … while` loop of `malloc`, which closes the gap of an entry used up. -/
def closeGap : List MapEnt → Option (List MapEnt)
  | bp :: next :: rest =>
    if next.mSize ≠ 0 then (closeGap (next :: rest)).map (next :: ·)
    else some ({ bp with mAddr := next.mAddr, mSize := next.mSize } :: next :: rest)
  | _ => none

/-- `malloc`: the base of the space, or 0, and the map. -/
def malloc (size : BitVec 16) : List MapEnt → Option (BitVec 16 × List MapEnt)
  | [] => none
  | bp :: rest =>
    if bp.mSize ≠ 0 then
      if bp.mSize.toInt ≥ size.toInt then
        let a := bp.mAddr
        let bp := { bp with mAddr := bp.mAddr + size, mSize := bp.mSize - size }
        if bp.mSize = 0 then (closeGap (bp :: rest)).map (a, ·)
        else some (a, bp :: rest)
      else (malloc size rest).map fun r => (r.1, bp :: r.2)
    else some (0, bp :: rest)

/-- The search of `mfree`: the first entry past `a`, or the end. -/
def findPlace (a : BitVec 16) : List MapEnt → List MapEnt → Option (List MapEnt × List MapEnt)
  | _, [] => none
  | before, bp :: rest =>
    if bp.mAddr ≤ a ∧ bp.mSize ≠ 0 then findPlace a (bp :: before) rest
    else some (before, bp :: rest)

/-- The `while` loop of `mfree`, which closes the gap of an entry merged to the left. -/
def shiftDown : List MapEnt → Option (List MapEnt)
  | [] => none
  | bp :: rest =>
    if bp.mSize ≠ 0 then
      match rest with
      | [] => none
      | next :: rest => (shiftDown (next :: rest)).map (next :: ·)
    else some (bp :: rest)

/-- The `do … while` loop of `mfree`, which inserts an entry. -/
def insertEnt (size a : BitVec 16) : List MapEnt → Option (List MapEnt)
  | [] => none
  | bp :: rest =>
    if bp.mSize ≠ 0 then (insertEnt bp.mSize bp.mAddr rest).map (⟨size, a⟩ :: ·)
    else some (⟨size, a⟩ :: rest)

/-- `mfree` where the space does not touch the entry before it. -/
def mfreeApart (size a : BitVec 16) (before : List MapEnt) (bp : MapEnt) (rest : List MapEnt) :
    Option (List MapEnt) :=
  if a + size = bp.mAddr ∧ bp.mSize ≠ 0 then
    some (before.reverse ++ ⟨bp.mSize + size, bp.mAddr - size⟩ :: rest)
  else if size ≠ 0 then (insertEnt size a (bp :: rest)).map (before.reverse ++ ·)
  else some (before.reverse ++ bp :: rest)

/-- The part of `mfree` after the search. -/
def mfreeAt (size a : BitVec 16) (before : List MapEnt) (bp : MapEnt) (rest : List MapEnt) :
    Option (List MapEnt) :=
  match before with
  | [] => mfreeApart size a [] bp rest
  | prev :: before =>
    if prev.mAddr + prev.mSize = a then
      let prev := { prev with mSize := prev.mSize + size }
      if a + size = bp.mAddr then
        let prev := { prev with mSize := prev.mSize + bp.mSize }
        (shiftDown (bp :: rest)).map (before.reverse ++ prev :: ·)
      else some (before.reverse ++ prev :: bp :: rest)
    else mfreeApart size a (prev :: before) bp rest

/-- `mfree`, less the wakeup of the scheduler. -/
def mfree (size a : BitVec 16) (mp : List MapEnt) : Option (List MapEnt) :=
  match findPlace a [] mp with
  | some (before, bp :: rest) => mfreeAt size a before bp rest
  | _ => none

/-- A map with what the rest of the kernel sees of it: whether it is `coremap`, the flag
    `runin`, and the calls of `wakeup(&runin)`. -/
structure KMap where
  tab : List MapEnt
  coremap : Bool
  runin : Bool
  wakeups : Nat

/-- The first lines of `mfree`: wake the scheduler when freeing core. -/
def wakeSched (m : KMap) : KMap :=
  if m.coremap ∧ m.runin then { m with runin := false, wakeups := m.wakeups + 1 } else m

end Venix.Kernel
