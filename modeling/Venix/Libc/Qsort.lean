/-
  `qsort` of the C library (`gen/qsort.c`).

  `mem` is the memory that may be touched, by byte address: where it is `none` there is a fault.
  Pointers have 16 bits. `cmp` is the comparison function, of the bytes of two elements; `calls`
  keeps the addresses it has been called with, the last ones first.

  `turn` is a turn of the loop of `qs1`, from its head (`top`) or from the label `loop`. A call
  of `qs1` ends when the loop has left nothing between the sides; `goto start` is the call for
  the other side. The loop and the calls take fuel: `none` is a fault or an end of the fuel.
-/
import Venix.Lib.Loop
import Venix.Libc.Malloc

namespace Venix.Libc

open Venix.Lib

/-- `p + n` for a pointer to bytes. -/
def padd (p n : Nat) : Nat := (p + n) % 65536

/-- `p - n`, as a pointer or as an `unsigned`. -/
def psub (p n : Nat) : Nat := (p + 65536 - n) % 65536

/-- A byte of the memory is stored to. -/
def store (mem : Nat → Option UInt8) (p : Nat) (c : UInt8) : Option (Nat → Option UInt8) :=
  match mem p with
  | none => none
  | some _ => some (Function.update mem p (some c))

/-- The turns of `do { … } while(--n)`. -/
def doTurns (n : Nat) : Nat := if n = 0 then 65536 else n

/-- The loop of `qsexc`. -/
def excLoop : Nat → (Nat → Option UInt8) → Nat → Nat → Option (Nat → Option UInt8)
  | 0, mem, _, _ => some mem
  | n + 1, mem, ri, rj => do
    let c ← mem ri
    let d ← mem rj
    let mem ← store mem ri d
    let mem ← store mem rj c
    excLoop n mem (padd ri 1) (padd rj 1)

/-- Exchange two elements. -/
def qsexc (es : Nat) (mem : Nat → Option UInt8) (i j : Nat) : Option (Nat → Option UInt8) :=
  excLoop (doTurns es) mem i j

/-- The loop of `qstexc`. -/
def texcLoop : Nat → (Nat → Option UInt8) → Nat → Nat → Nat → Option (Nat → Option UInt8)
  | 0, mem, _, _, _ => some mem
  | n + 1, mem, ri, rj, rk => do
    let c ← mem ri
    let d ← mem rk
    let mem ← store mem ri d
    let e ← mem rj
    let mem ← store mem rk e
    let mem ← store mem rj c
    texcLoop n mem (padd ri 1) (padd rj 1) (padd rk 1)

/-- Exchange three elements. -/
def qstexc (es : Nat) (mem : Nat → Option UInt8) (i j k : Nat) : Option (Nat → Option UInt8) :=
  texcLoop (doTurns es) mem i j k

/-- The bytes of the element at `p`. -/
def element (es : Nat) (mem : Nat → Option UInt8) (p : Nat) : Option (List UInt8) :=
  (List.range es).mapM fun t => mem (padd p t)

structure Sorting where
  mem : Nat → Option UInt8
  calls : List (Nat × Nat)

/-- A call of the comparison function. -/
def qscmp (cmp : List UInt8 → List UInt8 → Int) (es : Nat) (s : Sorting) (p q : Nat) :
    Option (Int × Sorting) := do
  let x ← element es s.mem p
  let y ← element es s.mem q
  some (cmp x y, { s with calls := (p, q) :: s.calls })

/-- The variables of the loop of `qs1`, and whether the next turn begins at its head. -/
structure Part where
  s : Sorting
  i : Nat
  j : Nat
  lp : Nat
  hp : Nat
  top : Bool

/-- At the head, after the comparison of `i` with the block in the middle. -/
def headTurn (es : Nat) (p : Part) (c : Int) (s : Sorting) : Option (Turn Part Part) :=
  if c = 0 then do
    let lp := psub p.lp es
    let mem ← qsexc es s.mem p.i lp
    some (.more { p with s := { s with mem := mem }, lp := lp })
  else if c < 0 then
    some (.more { p with s := s, i := padd p.i es })
  else
    some (.more { p with s := s, top := false })

/-- At the label, after the comparison of the block with `j`. -/
def loopTurn (es : Nat) (p : Part) (c : Int) (s : Sorting) : Option (Turn Part Part) :=
  if c = 0 then do
    let hp := padd p.hp es
    let mem ← qsexc es s.mem hp p.j
    some (.more { p with s := { s with mem := mem }, hp := hp, top := false })
  else if c > 0 then
    if p.i = p.lp then do
      let hp := padd p.hp es
      let mem ← qstexc es s.mem p.i hp p.j
      let lp := padd p.lp es
      some (.more { p with s := { s with mem := mem }, i := lp, lp := lp, hp := hp, top := false })
    else do
      let mem ← qsexc es s.mem p.i p.j
      some (.more { p with
        s := { s with mem := mem }, j := psub p.j es, i := padd p.i es, top := true })
  else
    some (.more { p with s := s, j := psub p.j es, top := false })

/-- A turn of the loop of `qs1`. -/
def turn (cmp : List UInt8 → List UInt8 → Int) (es : Nat) (p : Part) : Option (Turn Part Part) :=
  if p.top = true ∧ p.i < p.lp then do
    let (c, s) ← qscmp cmp es p.s p.i p.lp
    headTurn es p c s
  else if p.j > p.hp then do
    let (c, s) ← qscmp cmp es p.s p.hp p.j
    loopTurn es p c s
  else if p.i = p.lp then
    some (.done p)
  else do
    let lp := psub p.lp es
    let mem ← qstexc es p.s.mem p.j lp p.i
    let hp := psub p.hp es
    some (.more { p with s := { p.s with mem := mem }, lp := lp, hp := hp, j := hp, top := true })

/-- More turns than two for each byte of the memory. -/
def maxTurns : Nat := 262144

/-- The static function `qs1`. -/
def qs1 (cmp : List UInt8 → List UInt8 → Int) (es : Nat) : Nat → Sorting → Nat → Nat → Option Sorting
  | 0, _, _, _ => none
  | k + 1, s, a, l =>
    let n := psub l a
    if n ≤ es then some s
    else
      let n := es * (n / (2 * es)) % 65536
      let m := padd a n
      match loop (turn cmp es) maxTurns ⟨s, a, psub l es, m, m, true⟩ with
      | none => none
      | some p =>
        if int16 (p.lp - a) ≥ int16 (l - p.hp) then
          match qs1 cmp es k p.s (padd p.hp es) l with
          | none => none
          | some s => qs1 cmp es k s a p.lp
        else
          match qs1 cmp es k p.s a p.lp with
          | none => none
          | some s => qs1 cmp es k s (padd p.hp es) l

/-- `qsort` of `n` elements of `es` bytes at `a`. -/
def qsort (cmp : List UInt8 → List UInt8 → Int) (es : Nat) (mem : Nat → Option UInt8) (a n : Nat) :
    Option Sorting :=
  qs1 cmp es maxTurns ⟨mem, []⟩ a (padd a (n * es))

end Venix.Libc
