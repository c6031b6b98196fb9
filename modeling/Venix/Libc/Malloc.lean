/-
  The storage allocator of the C library (`malloc` and `free` of `gen/malloc.c`).

  Pointers and `int`s have 16 bits and a word is 2 bytes. `mem` is the memory by byte address;
  the arena uses the words at even addresses. A header holds the address of the next header,
  with the low bit set where its block is busy. `allocs` is the address of the two words of
  the initial arena.

  `coalesce` and `search` are the loops of `malloc` and take fuel: `none` is a loop that does
  not end (`malloc_returns` shows that there is none). Each growth of the arena takes one
  answer of the system: what `sbrk(0)` and `sbrk(temp*WORD)` return. Past the end of the list
  of answers `sbrk` fails.
-/
import Mathlib.Tactic

namespace Venix.Libc

/-! ## Pointers -/

/-- The busy bit of a link. -/
def testbusy (p : Nat) : Bool := p &&& 1 ≠ 0

def setbusy (p : Nat) : Nat := p ||| 1

def clearbusy (p : Nat) : Nat := p &&& 0xfffe

/-- `p + n` for a pointer to words. -/
def plus (p : Nat) (n : Int) : Nat := ((p + 2 * n) % 65536).toNat

/-- A value as a 16-bit `int`. -/
def int16 (n : Int) : Int := n.bmod 65536

/-! ## The arena -/

structure Arena where
  mem : Nat → Nat
  allocp : Nat
  alloct : Nat
  allocx : Nat

/-- What `sbrk(0)` and the following `sbrk(temp*WORD)` return; 65535 is the failure. -/
structure Sbrk where
  brk : Nat
  got : Nat

/-- The first-time initialization of `malloc`. -/
def initArena (allocs : Nat) (s : Arena) : Arena :=
  if s.mem allocs = 0 then
    { s with
      mem := Function.update (Function.update s.mem allocs (setbusy (plus allocs 1)))
        (plus allocs 1) (setbusy allocs)
      alloct := plus allocs 1
      allocp := allocs }
  else s

/-- `nw`: the words of a request, with its header. -/
def words (nbytes : Nat) : Nat := (nbytes + 2 + 2 - 1) % 65536 / 2

/-- `temp`: the words to grow the arena by. -/
def growth (nw : Nat) : Int := int16 ((int16 (nw + 1024 / 2)).tdiv (1024 / 2) * (1024 / 2))

/-- Merge the idle blocks after the idle block `p` into it. The result ends with `q`. -/
def coalesce : Nat → (Nat → Nat) → Nat → Option ((Nat → Nat) × Nat)
  | 0, _, _ => none
  | k + 1, mem, p =>
    let q := mem p
    if testbusy (mem q) then some (mem, q)
    else coalesce k (Function.update mem p (mem q)) p

/-- Steps that are more than a ring of 16-bit addresses takes. -/
def maxSteps : Nat := 131072

/-- The first part of a round of the search: whether there is room at `p`, and where it ends. -/
def look (nw : Nat) (mem : Nat → Nat) (p : Nat) : Option ((Nat → Nat) × Option Nat) :=
  if testbusy (mem p) then some (mem, none)
  else match coalesce maxSteps mem p with
    | none => none
    | some (mem, q) => some (mem, if q ≥ plus p nw ∧ plus p nw ≥ p then some q else none)

/-- The second part of a round: go on, give up on a chain that is not a ring, or stop after
    two times round. -/
inductive Advance where
  | next (p temp : Nat)
  | corrupt
  | full (p : Nat)

def advance (allocs alloct : Nat) (mem : Nat → Nat) (p temp : Nat) : Advance :=
  let q := p
  let p := clearbusy (mem p)
  if p > q then .next p temp
  else if q ≠ alloct ∨ p ≠ allocs then .corrupt
  else if temp + 1 > 1 then .full p
  else .next p (temp + 1)

/-- How the inner loop of `malloc` ends: room between `p` and `q`, or as `Advance` says. -/
inductive Outcome where
  | found (mem : Nat → Nat) (p q : Nat)
  | full (mem : Nat → Nat) (p : Nat)
  | corrupt (mem : Nat → Nat)

/-- The inner loop of `malloc`. -/
def search (allocs alloct nw : Nat) : Nat → (Nat → Nat) → Nat → Nat → Option Outcome
  | 0, _, _, _ => none
  | k + 1, mem, p, temp =>
    match look nw mem p with
    | none => none
    | some (mem, some q) => some (.found mem p q)
    | some (mem, none) =>
      match advance allocs alloct mem p temp with
      | .next p temp => search allocs alloct nw k mem p temp
      | .corrupt => some (.corrupt mem)
      | .full p => some (.full mem p)

/-- From `found:` on: cut the block at `p`, which ends at `q`. -/
def cut (s : Arena) (nw : Nat) (mem : Nat → Nat) (p q : Nat) : Arena × Nat :=
  let allocp := plus p nw
  let split := q > allocp
  let allocx := if split then mem allocp else s.allocx
  let mem := if split then Function.update mem allocp (mem p) else mem
  let mem := Function.update mem p (setbusy allocp)
  ({ s with mem := mem, allocp := allocp, allocx := allocx }, plus p 1)

/-- Link the `temp` new words at `q` to the top of the arena. -/
def grow (allocs : Nat) (s : Arena) (mem : Nat → Nat) (temp : Int) (q : Nat) : Arena :=
  let top := plus (plus q temp) (-1)
  let mem := Function.update mem s.alloct q
  let mem := if q ≠ plus s.alloct 1 then Function.update mem s.alloct (setbusy (mem s.alloct))
    else mem
  let mem := Function.update mem q top
  { s with mem := Function.update mem top (setbusy allocs), alloct := top }

/-- The outer loop of `malloc`, from `p` on. -/
def mallocLoop (allocs granule nw : Nat) : List Sbrk → Arena → Nat → Option (Arena × Nat)
  | answers, s, p =>
    match search allocs s.alloct nw maxSteps s.mem p 0 with
    | none => none
    | some (.found mem p q) => some (cut s nw mem p q)
    | some (.corrupt mem) => some ({ s with mem := mem }, 0)
    | some (.full mem p) =>
      let temp := growth nw
      match answers with
      | [] => some ({ s with mem := mem }, 0)
      | a :: answers =>
        if plus (plus a.brk temp) granule < a.brk then some ({ s with mem := mem }, 0)
        else if a.got = 65535 then some ({ s with mem := mem }, 0)
        else mallocLoop allocs granule nw answers (grow allocs s mem temp a.got) p

/-- `malloc`: the arena and the address it returns, 0 for `NULL`. -/
def malloc (allocs granule : Nat) (answers : List Sbrk) (s : Arena) (nbytes : Nat) :
    Option (Arena × Nat) :=
  let s := initArena allocs s
  mallocLoop allocs granule (words nbytes) answers s s.allocp

/-- `free` of the block at `ap`. -/
def free (s : Arena) (ap : Nat) : Arena :=
  let p := plus ap (-1)
  { s with allocp := p, mem := Function.update s.mem p (clearbusy (s.mem p)) }

end Venix.Libc
