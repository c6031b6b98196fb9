/-
  Character lists (`prim.c`): `getc`, `putc`, `getw`, `putw`, `q_to_b`, `b_to_q`, `ndqb` and
  `ndflush` on queues that share one freelist.

  A pointer is an address, and a null pointer is `none`. A `cblock` is 16 bytes at an address that
  is a multiple of 16: the link, of two bytes, and 14 characters. `CROUND` masks are remainders by
  16. Following a null pointer is `none`. Priorities are left out.
-/
import Venix.Lib.Bytes
import Venix.Lib.Run

namespace Venix.Kernel

open Venix.Lib

def cbsize : Nat := 14

structure Clist where
  cc : Int
  cf : Option Nat
  cl : Option Nat
  deriving DecidableEq

/-- The queues `Q`, with the links and the characters of all blocks. -/
structure Clists (Q : Type) where
  next : Nat → Option Nat
  info : Nat → Byte
  cfreelist : Option Nat
  clist : Q → Clist
  cbad : Nat

variable {Q : Type} [DecidableEq Q]

namespace Clists

def setClist (s : Clists Q) (q : Q) (c : Clist) : Clists Q :=
  { s with clist := Function.update s.clist q c }

/-- Put a block on the freelist. -/
def free (s : Clists Q) (bp : Nat) : Clists Q :=
  { s with next := Function.update s.next bp s.cfreelist, cfreelist := some bp }

/-- Take a block off the freelist. -/
def newBlock (s : Clists Q) : Option (Nat × Clists Q) :=
  match s.cfreelist with
  | none => none
  | some bp => some (bp, { s with
      cfreelist := s.next bp
      next := Function.update s.next bp none })

/-! ## `getc` and `q_to_b` -/

/-- Take the first character of a queue that is not empty. -/
def take (s : Clists Q) (q : Q) : Option (Byte × Clists Q) := do
  let cf ← (s.clist q).cf
  let c := s.info cf
  let cc := (s.clist q).cc - 1
  let cl := (s.clist q).cl
  if cc ≤ 0 then
    let bp := cf + 1 - 1 - (cf + 1 - 1) % 16
    return (c, (s.setClist q ⟨cc, none, none⟩).free bp)
  else if (cf + 1) % 16 = 0 then
    let bp := cf + 1 - 16
    let nx ← s.next bp
    return (c, (s.setClist q ⟨cc, some (nx + 2), cl⟩).free bp)
  else return (c, s.setClist q ⟨cc, some (cf + 1), cl⟩)

def getc (s : Clists Q) (q : Q) : Option (Int × Clists Q) :=
  if (s.clist q).cc ≤ 0 then some (-1, s.setClist q ⟨0, none, none⟩)
  else do
    let (c, s) ← s.take q
    return (c.toNat, s)

/-- The loop of `q_to_b`: at most `n` characters. -/
def qToBLoop (q : Q) : Nat → Clists Q → Option (List Byte × Clists Q)
  | 0, s => some ([], s)
  | n + 1, s => do
    let (c, s) ← s.take q
    if (s.clist q).cc ≤ 0 then return ([c], s)
    else
      let (cs, s) ← qToBLoop q n s
      return (c :: cs, s)

def qToB (s : Clists Q) (q : Q) (cc : Int) : Option (List Byte × Clists Q) :=
  if cc ≤ 0 then some ([], s)
  else if (s.clist q).cc ≤ 0 then some ([], s.setClist q ⟨0, none, none⟩)
  else qToBLoop q cc.toNat s

/-! ## `ndqb` and `ndflush` -/

/-- How many characters there are in one piece at the start of the queue, up to the first one that
    has a bit of `flag`. -/
def ndqb (s : Clists Q) (q : Q) (flag : Byte) : Int :=
  let c := s.clist q
  if c.cc ≤ 0 then -c.cc
  else
    let cf := c.cf.getD 0
    let cc := min c.cc (((cf + cbsize) - (cf + cbsize) % 16 : Nat) - cf)
    if flag = 0 then cc
    else ((List.range' cf cc.toNat).takeWhile fun p => s.info p &&& flag = 0).length

def ndflush (s : Clists Q) (q : Q) (cc : Int) : Option (Clists Q) :=
  let c := s.clist q
  if c.cc < 0 then
    match c.cf with
    | some cf => some (s.setClist q { c with cc := c.cc + cc, cf := some (cf + cc).toNat })
    | none => some (s.setClist q { c with cc := 0 })
  else if c.cc = 0 then some s
  else if cc > cbsize ∨ cc ≤ 0 then some { s with cbad := s.cbad + 1 }
  else do
    let cf := (← c.cf) + cc.toNat
    if cf % 16 = 0 then
      let bp := cf - 16
      match s.next bp with
      | some nx => return (s.setClist q ⟨c.cc - cc, some (nx + 2), c.cl⟩).free bp
      | none => return (s.setClist q ⟨c.cc - cc, none, none⟩).free bp
    else if c.cc - cc = 0 then
      return (s.setClist q ⟨c.cc - cc, none, none⟩).free (cf - cf % 16)
    else return s.setClist q ⟨c.cc - cc, some cf, c.cl⟩

/-! ## `putc` and `b_to_q` -/

/-- The block for the next character where the queue ends at the end of a block. -/
def nextBlock (s : Clists Q) (cp : Nat) : Clists Q × Option Nat :=
  let s := { s with next := Function.update s.next (cp - 16) s.cfreelist }
  match s.newBlock with
  | none => (s, none)
  | some (bp, s) => (s, some (bp + 2))

def store (s : Clists Q) (cp : Nat) (c : Byte) : Clists Q :=
  { s with info := Function.update s.info cp c }

/-- The end of `putc`. -/
def putAt (s : Clists Q) (q : Q) (cp : Nat) (c : Byte) : Clists Q :=
  let p := s.clist q
  (s.store cp c).setClist q { p with cc := p.cc + 1, cl := some (cp + 1) }

/-- The address of the first character of a new queue. -/
def firstBlock (s : Clists Q) (q : Q) : Option (Nat × Clists Q) :=
  match s.newBlock with
  | none => none
  | some (bp, s) => some (bp + 2, s.setClist q { s.clist q with cf := some (bp + 2) })

/-- The result is 0, or -1 where there is no block. -/
def putc (s : Clists Q) (c : Byte) (q : Q) : Int × Clists Q :=
  match (s.clist q).cl with
  | none =>
    match s.firstBlock q with
    | none => (-1, s)
    | some (cp, s) => (0, s.putAt q cp c)
  | some cp =>
    if (s.clist q).cc < 0 then
      match s.firstBlock q with
      | none => (-1, s)
      | some (cp, s) => (0, s.putAt q cp c)
    else if cp % 16 = 0 then
      match s.nextBlock cp with
      | (s, none) => (-1, s)
      | (s, some cp) => (0, s.putAt q cp c)
    else (0, s.putAt q cp c)

/-- The loop of `b_to_q`: where the queue ends, and how many characters are left. -/
def bToQLoop : List Byte → Nat → Clists Q → Clists Q × Nat × Nat
  | [], cq, s => (s, cq, 0)
  | c :: cs, cq, s =>
    if cq % 16 = 0 then
      match s.nextBlock cq with
      | (s, none) => (s, cq, cs.length + 1)
      | (s, some cq) => bToQLoop cs (cq + 1) (s.store cq c)
    else bToQLoop cs (cq + 1) (s.store cq c)

/-- The end of `b_to_q`, for `acc` characters. -/
def bToQEnd (q : Q) (acc : Nat) (r : Clists Q × Nat × Nat) : Nat × Clists Q :=
  let (s, cq, cc) := r
  let p := s.clist q
  (cc, s.setClist q { p with cl := some cq, cc := p.cc + (acc - cc : Nat) })

/-- The result is the number of characters that were not moved. -/
def bToQ (s : Clists Q) (cs : List Byte) (q : Q) : Nat × Clists Q :=
  if cs.length = 0 then (0, s)
  else
    match (s.clist q).cl with
    | none =>
      match s.firstBlock q with
      | none => (cs.length, s)
      | some (cq, s) => bToQEnd q cs.length (bToQLoop cs cq s)
    | some cq =>
      if (s.clist q).cc < 0 then
        match s.firstBlock q with
        | none => (cs.length, s)
        | some (cq, s) => bToQEnd q cs.length (bToQLoop cs cq s)
      else bToQEnd q cs.length (bToQLoop cs cq s)

/-! ## Words -/

def getw (s : Clists Q) (q : Q) : Option (BitVec 16 × Clists Q) :=
  if (s.clist q).cc ≤ 1 then some (-1, s)
  else do
    let (lo, s) ← s.getc q
    let (hi, s) ← s.getc q
    return (BitVec.ofInt 16 lo ||| (BitVec.ofInt 16 hi <<< 8), s)

def putw (s : Clists Q) (c : BitVec 16) (q : Q) : Int × Clists Q :=
  match s.cfreelist with
  | none => (-1, s)
  | some _ =>
    let s := (s.putc (c.setWidth 8) q).2
    (0, (s.putc ((c >>> 8).setWidth 8) q).2)

/-! ## Steps -/

inductive Act (Q : Type) where
  | getc (q : Q)
  | putc (c : Byte) (q : Q)
  | getw (q : Q)
  | putw (c : BitVec 16) (q : Q)
  | qToB (q : Q) (cc : Int)
  | bToQ (cs : List Byte) (q : Q)
  | ndflush (q : Q) (cc : Int)

inductive Out where
  | int (n : Int)
  | word (w : BitVec 16)
  | bytes (cs : List Byte)
  | left (n : Nat)
  | none
  deriving DecidableEq

inductive Stop where
  | fault
  deriving DecidableEq

def ofOption {α : Type} (f : α → Out) : Option (α × Clists Q) → Except Stop (Clists Q × Out)
  | none => .error .fault
  | some (a, s) => .ok (s, f a)

def step (s : Clists Q) : Act Q → Except Stop (Clists Q × Out)
  | .getc q => ofOption .int (s.getc q)
  | .putc c q => .ok ((s.putc c q).2, .int (s.putc c q).1)
  | .getw q => ofOption .word (s.getw q)
  | .putw c q => .ok ((s.putw c q).2, .int (s.putw c q).1)
  | .qToB q cc => ofOption .bytes (s.qToB q cc)
  | .bToQ cs q => .ok ((s.bToQ cs q).2, .left (s.bToQ cs q).1)
  | .ndflush q cc => ofOption (fun _ : Unit => .none) ((s.ndflush q cc).map fun s => ((), s))

end Clists

end Venix.Kernel
