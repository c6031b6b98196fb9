/-
  Multi-precision division (`libmp`, `mdiv.c` and `s_div` of `mout.c`), on the machine of `madd`.

  A `long` has 32 bits; a value that does not fit ends the program, as `none` here. An `int` sum
  wraps. `s_div` of zero looks at the word in front of the block of its quotient, which `malloc`
  keeps for itself: it is the argument `busy`. The loop of `m_trq` has a fuel argument.

  The address of a variable (`&d`, `&qq`) is a block of one cell, or a second result.
-/
import Venix.Libmp.Mult

namespace Venix.Libmp

/-- A `long`. -/
def long (x : Int) : Option Int := if -2 ^ 31 ≤ x ∧ x < 2 ^ 31 then some x else none

/-! ## Division by one limb -/

/-- The loop of `s_div`, down from limb `i`. -/
def s_divLoop (a : Mint) (n : Int16) (qval : Nat) : Nat → Int → Heap → Option (Int × Heap)
  | 0, x, h => some (x, h)
  | i + 1, x, h => do
    let v ← h.read a.val i
    let t ← long (x * 0o100000)
    let x ← long (t + v.toInt)
    if n = 0 then none
    else
      let h ← h.write qval i (Int16.ofInt (x.tdiv n.toInt))
      s_divLoop a n qval i (x.tmod n.toInt) h

/-- The quotient, and `*r`. -/
def s_div (busy : Int16) (a : Mint) (n : Int16) (h : Heap) : Option (Mint × Int16 × Heap) := do
  let qlen := a.len
  let (qval, h) := h.xalloc qlen
  let (x, h) ← s_divLoop a n qval (turns qlen) 0 h
  let top ← (if turns qlen = 0 then some busy else h.read qval (turns qlen - 1) : Option Int16)
  let qlen := if top = 0 then qlen - 1 else qlen
  let h ← (if qlen = 0 then h.free qval else some h : Option Heap)
  return (⟨qlen, qval⟩, Int16.ofInt x, h)

/-- The quotient in `q`, and `*r`. -/
def sdiv (busy : Int16) (a : Mint) (n : Int16) (q : Mint) (h : Heap) :
    Option (Mint × Int16 × Heap) := do
  let sign : Int16 := 1
  let (n, sign) : Int16 × Int16 := if n < 0 then (-n, -sign) else (n, sign)
  let (x, sign) : Mint × Int16 := if a.len < 0 then (⟨-a.len, a.val⟩, -sign) else (a, sign)
  let (y, r, h) ← s_div busy x n h
  let h ← xfree q h
  return (⟨sign * y.len, y.val⟩, r * sign, h)

/-! ## A digit of the quotient -/

/-- `while(1)` of `m_trq`. -/
def trqLoop (v1 v2 u1 u2 u3 : Int) : Nat → Int → Option Int
  | 0, _ => none
  | fuel + 1, d => do
    let t ← long (u1 * 0o100000)
    let t ← long (t + u2)
    let p ← long (v1 * d)
    let x1 ← long (t - p)
    let t ← long (x1 * 0o100000)
    let t ← long (t + u3)
    let p ← long (v2 * d)
    let x1 ← long (t - p)
    if x1 < 0 then trqLoop v1 v2 u1 u2 u3 fuel (d - 1) else some d

def m_trq (fuel : Nat) (v1 v2 u1 u2 u3 : Int16) : Option Int16 := do
  let d ← (if u1 = v1 then some 0o77777
    else do
      let t ← long (u1.toInt * 0o100000)
      let t ← long (t + u2.toInt)
      if v1 = 0 then none else some (t.tdiv v1.toInt) : Option Int)
  let d ← trqLoop v1.toInt v2.toInt u1.toInt u2.toInt u3.toInt fuel d
  return Int16.ofInt d

/-- The loops of `m_dsb`: `f` takes the borrow and the limbs `a[j]` and `b[j]` to the new `b[j]` and
the next borrow; `b` is a pointer into a block. -/
def dsbLoop (f : Int16 → Int16 → Int16 → Option (Int16 × Int16)) (a b off : Nat) :
    Nat → Nat → Int16 → Heap → Option (Int16 × Heap)
  | 0, _, borrow, h => some (borrow, h)
  | n + 1, j, borrow, h => do
    let aj ← h.read a j
    let bj ← h.read b (off + j)
    let (low, borrow) ← f borrow aj bj
    let h ← h.write b (off + j) low
    dsbLoop f a b off n (j + 1) borrow h

/-- `x=borrow-a[j]*qx+b[j]`; the shift of a `long` keeps the sign. -/
def subLimb (qx : Int) (borrow aj bj : Int16) : Option (Int16 × Int16) := do
  let p ← long (aj.toInt * qx)
  let t ← long (borrow.toInt - p)
  let x ← long (t + bj.toInt)
  return (Int16.ofInt (x % 0o100000), Int16.ofInt (x / 0o100000))

/-- `u=a[j]+b[j]+borrow`. -/
def addLimb (borrow aj bj : Int16) : Option (Int16 × Int16) :=
  let u := aj + bj + borrow
  some (u &&& 0o77777, if u < 0 then 1 else 0)

/-- Whether the divisor was added back. -/
def m_dsb (q : Int16) (n a b off : Nat) (h : Heap) : Option (Bool × Heap) := do
  let (borrow, h) ← dsbLoop (subLimb q.toInt) a b off n 0 0 h
  let bn ← h.read b (off + n)
  let x := (borrow + bn).toInt
  let h ← h.write b (off + n) (Int16.ofInt (x % 0o100000))
  if x / 0o100000 = 0 then return (false, h)
  else
    let (_, h) ← dsbLoop addLimb a b off n 0 0 h
    return (true, h)

/-! ## Division -/

/-- `while j>0 && a->val[j-1]==0`. -/
def mcanLoop (a : Mint) : Nat → Heap → Option Nat
  | 0, _ => some 0
  | j + 1, h => do
    let v ← h.read a.val j
    if v = 0 then mcanLoop a j h else some (j + 1)

def mcan (a : Mint) (h : Heap) : Option (Mint × Heap) := do
  if a.len = 0 then return (a, h)
  else
    let i : Int16 := if a.len < 0 then -a.len else a.len
    let j ← mcanLoop a (turns i) h
    if j = turns i then return (a, h)
    else if j = 0 then
      let h ← xfree a h
      return (⟨0, a.val⟩, h)
    else if 0 < a.len then return (⟨Int16.ofNat j, a.val⟩, h)
    else return (⟨-Int16.ofNat j, a.val⟩, h)

/-- The loop of `m_div`, down from digit `j`. -/
def m_divLoop (fuel : Nat) (v1 v2 : Int16) (n v u qval : Nat) : Nat → Heap → Option Heap
  | 0, h => some h
  | j + 1, h => do
    let u1 ← h.read u (j + n)
    let u2 ← h.read u (j + n - 1)
    let u3 ← h.read u (j + n - 2)
    let qq ← m_trq fuel v1 v2 u1 u2 u3
    let (back, h) ← m_dsb qq n v u j h
    let qq := if back then qq - 1 else qq
    let h ← h.write qval j qq
    m_divLoop fuel v1 v2 n v u qval j h

/-- `r->val[qq]=a->val[qq]` for the limbs from `i` on. -/
def copyLimbs (a r : Nat) : Nat → Nat → Heap → Option Heap
  | 0, _, h => some h
  | n + 1, i, h => do
    let v ← h.read a i
    let h ← h.write r i v
    copyLimbs a r n (i + 1) h

/-- A divisor of one limb. -/
def m_div1 (busy : Int16) (a b q : Mint) (h : Heap) : Option (Mint × Mint × Heap) := do
  let (rval, h) := h.xalloc 1
  let n ← h.read b.val 0
  let (q, x, h) ← sdiv busy a n q h
  let h ← h.write rval 0 x
  let top ← h.read rval 0
  if top = 0 then
    let h ← h.free rval
    return (q, ⟨0, rval⟩, h)
  else return (q, ⟨1, rval⟩, h)

/-- A dividend with fewer limbs than the divisor. -/
def m_div2 (a q : Mint) (h : Heap) : Option (Mint × Mint × Heap) := do
  let (rval, h) := h.xalloc a.len
  let h ← copyLimbs a.val rval (turns a.len) 0 h
  return (⟨0, q.val⟩, ⟨a.len, rval⟩, h)

/-- The end of `m_div`: the remainder is scaled back; `qq` is the length of the quotient. -/
def m_divEnd (busy d blen qq : Int16) (u v : Mint) (qval : Nat) (h : Heap) :
    Option (Mint × Mint × Heap) := do
  let (x, h) ← mcan ⟨blen, u.val⟩ h
  let (w, _, h) ← sdiv busy x d ⟨0, 0⟩ h
  let top ← (if 0 < qq then h.read qval (turns qq - 1) else some 1 : Option Int16)
  let qq := if 0 < qq ∧ top = 0 then qq - 1 else qq
  let h ← (if qq = 0 then h.free qval else some h : Option Heap)
  let h ← (if x.len ≠ 0 then xfree u h else some h : Option Heap)
  let h ← xfree v h
  return (⟨qq, qval⟩, ⟨w.len, w.val⟩, h)

/-- The others. `u.len` and `v.len` are 0 before `mult`. -/
def m_div3 (fuel : Nat) (busy : Int16) (a b : Mint) (h : Heap) : Option (Mint × Mint × Heap) := do
  let n := turns b.len
  let top ← h.read b.val (n - 1)
  if top.toInt + 1 = 0 then none
  else
    let d := Int16.ofInt (Int.tdiv 0o100000 (top.toInt + 1))
    let (dval, h) := h.alloc [some d]
    let x : Mint := ⟨1, dval⟩
    let (u, h) ← mult a x ⟨0, 0⟩ h
    let (v, h) ← mult b x ⟨0, 0⟩ h
    let v1 ← h.read v.val (n - 1)
    let v2 ← h.read v.val (n - 2)
    let (qval, h) := h.xalloc (a.len - b.len + 1)
    let h ← m_divLoop fuel v1 v2 n v.val u.val qval (turns (a.len - b.len + 1)) h
    m_divEnd busy d b.len (a.len - b.len + 1) u v qval h

/-- What is left in `q` and `r`. -/
def m_div (fuel : Nat) (busy : Int16) (a b q : Mint) (h : Heap) : Option (Mint × Mint × Heap) :=
  if b.len = 0 then none
  else if b.len = 1 then m_div1 busy a b q h
  else if a.len < b.len then m_div2 a q h
  else m_div3 fuel busy a b h

def mdiv (fuel : Nat) (busy : Int16) (a b q r : Mint) (h : Heap) :
    Option (Mint × Mint × Heap) := do
  let sign : Int16 := 1
  let (x, sign) : Mint × Int16 := if a.len < 0 then (⟨-a.len, a.val⟩, -1) else (a, sign)
  let (y, sign) : Mint × Int16 := if b.len < 0 then (⟨-b.len, b.val⟩, -sign) else (b, sign)
  let h ← xfree q h
  let h ← xfree r h
  let (q, r, h) ← m_div fuel busy x y ⟨0, q.val⟩ h
  if sign = -1 then return (⟨-q.len, q.val⟩, ⟨-r.len, r.val⟩, h)
  else return (q, r, h)

end Venix.Libmp
