/-
  Multi-precision addition and subtraction (`libmp`, `madd.c` and what it uses of `util.c`), on a
  machine whose `int` and `short` have 16 bits.

  A number is a length, which has the sign, and a block of limbs. A cell of a block is `none` until
  it is written; a read of such a cell, a read or a write outside a block and a second `free` of a
  block end the program, as `none` here. `malloc` gives a block that is not in use. A call that
  does not come back for want of fuel gives `none` too.

  A structure is read only at the start of `madd` and `msub` and by the `xfree` at their end, so
  the arguments here are the structures themselves, and the result is what is left in `c`. `msub`
  compares the addresses of its arguments, so it has the outcome as two more arguments.
-/
import Mathlib.Tactic

namespace Venix.Libmp

structure Heap where
  blocks : Nat → Option (List (Option Int16))
  /-- The blocks from here on were never in use. -/
  next : Nat
  fresh : ∀ p, next ≤ p → blocks p = none

namespace Heap

def read (h : Heap) (p i : Nat) : Option Int16 := do
  let l ← h.blocks p
  let cell ← l[i]?
  cell

def write (h : Heap) (p i : Nat) (v : Int16) : Option Heap :=
  match hp : h.blocks p with
  | none => none
  | some l =>
    if i < l.length then
      some {
        blocks := Function.update h.blocks p (some (l.set i (some v)))
        next := h.next
        fresh := fun q hq => by
          have hne : q ≠ p := by
            intro e
            rw [← e, h.fresh q hq] at hp
            cases hp
          rw [Function.update_of_ne hne]
          exact h.fresh q hq }
    else none

/-- A new block. -/
def alloc (h : Heap) (cells : List (Option Int16)) : Nat × Heap :=
  (h.next, {
    blocks := Function.update h.blocks h.next (some cells)
    next := h.next + 1
    fresh := fun q hq => by
      rw [Function.update_of_ne (by omega)]
      exact h.fresh q (by omega) })

def free (h : Heap) (p : Nat) : Option Heap :=
  match h.blocks p with
  | none => none
  | some _ =>
    some {
      blocks := Function.update h.blocks p none
      next := h.next
      fresh := fun q hq => by
        by_cases e : q = p
        · subst e
          exact Function.update_self _ _ _
        · rw [Function.update_of_ne e]
          exact h.fresh q hq }

/-- `xalloc`: the number of bytes asked for is `2*(unsigned)nint+4`, in 16 bits. -/
def xalloc (h : Heap) (nint : Int16) : Nat × Heap :=
  h.alloc (List.replicate (((2 * nint.toInt + 4) % 65536).toNat / 2) none)

end Heap

/-- `struct mint`. -/
structure Mint where
  len : Int16
  val : Nat

/-- `for(i=0;i<n;i++)` makes this many turns. -/
def turns (n : Int16) : Nat := n.toInt.toNat

/-- The loops of `m_add` and `m_sub`: `x` is formed from the carry, `next` is the carry after a
limb with bit 15 set. -/
def limbLoop (x : Int16 → Heap → Nat → Option Int16) (next : Int16 → Int16) (cval : Nat) :
    Nat → Nat → Int16 → Heap → Option (Int16 × Heap)
  | 0, _, carry, h => some (carry, h)
  | n + 1, i, carry, h => do
    let x₁ ← x carry h i
    if x₁ &&& 0o100000 ≠ 0 then
      let h ← h.write cval i (x₁ &&& 0o77777)
      limbLoop x next cval n (i + 1) (next carry) h
    else
      let h ← h.write cval i x₁
      limbLoop x next cval n (i + 1) 0 h

/-- `carry+a->val[i]+b->val[i]`. -/
def addBoth (a b : Mint) (carry : Int16) (h : Heap) (i : Nat) : Option Int16 := do
  return carry + (← h.read a.val i) + (← h.read b.val i)

/-- `borrow+a->val[i]-b->val[i]`. -/
def subBoth (a b : Mint) (borrow : Int16) (h : Heap) (i : Nat) : Option Int16 := do
  return borrow + (← h.read a.val i) - (← h.read b.val i)

/-- `carry+a->val[i]`. -/
def addOne (a : Mint) (carry : Int16) (h : Heap) (i : Nat) : Option Int16 := do
  return carry + (← h.read a.val i)

def m_add (a b : Mint) (h : Heap) : Option (Mint × Heap) := do
  let (cval, h) := h.xalloc (a.len + 1)
  let (carry, h) ← limbLoop (addBoth a b) (fun _ => 1) cval (turns b.len) 0 0 h
  let (carry, h) ← limbLoop (addOne a) id cval (turns a.len - turns b.len) (turns b.len) carry h
  let i := max (turns a.len) (turns b.len)
  if carry = 1 then
    let h ← h.write cval i 1
    return (⟨Int16.ofNat i + 1, cval⟩, h)
  else if a.len = 0 then
    let h ← h.free cval
    return (⟨a.len, cval⟩, h)
  else return (⟨a.len, cval⟩, h)

/-- `c->val[i] ^= 077777` for all limbs. -/
def complement (cval : Nat) : Nat → Nat → Heap → Option Heap
  | 0, _, h => some h
  | n + 1, i, h => do
    let v ← h.read cval i
    let h ← h.write cval i (v ^^^ 0o77777)
    complement cval n (i + 1) h

/-- The end of `m_sub`: the length goes down to the highest limb that is not 0. -/
def topLimb (c : Mint) (borrow : Int16) : Nat → Heap → Option (Mint × Heap)
  | 0, h => do
    let h ← h.free c.val
    return (c, h)
  | i + 1, h => do
    let v ← h.read c.val i
    if 0 < v then
      return (⟨if borrow = 0 then Int16.ofNat i + 1 else -Int16.ofNat i - 1, c.val⟩, h)
    else topLimb c borrow i h

def xfree (c : Mint) (h : Heap) : Option Heap :=
  if c.len = 0 then some h else h.free c.val

/-- `z` when a call starts: its length is set to 0, its other field is not set. -/
def z₀ : Mint := ⟨0, 0⟩

mutual

def madd : Nat → Mint → Mint → Mint → Heap → Option (Mint × Heap)
  | 0, _, _, _, _ => none
  | fuel + 1, a, b, c, h => do
    let (z, sign, h) ← (do
      if 0 ≤ a.len then
        if 0 ≤ b.len then
          if b.len ≤ a.len then
            let (z, h) ← m_add a b h
            return (z, 1, h)
          else
            let (z, h) ← m_add b a h
            return (z, 1, h)
        else
          let (z, h) ← msub fuel a ⟨-b.len, b.val⟩ z₀ false false h
          return (z, 1, h)
      else if b.len ≤ 0 then
        let (z, h) ← madd fuel ⟨-a.len, a.val⟩ ⟨-b.len, b.val⟩ z₀ h
        return (z, -1, h)
      else
        let (z, h) ← msub fuel b ⟨-a.len, a.val⟩ z₀ false false h
        return (z, 1, h) : Option (Mint × Int16 × Heap))
    let h ← xfree c h
    return (⟨sign * z.len, z.val⟩, h)

/-- `one` is a variable of the call, a block of one cell here. -/
def m_sub : Nat → Mint → Mint → Mint → Heap → Option (Mint × Heap)
  | 0, _, _, _, _ => none
  | fuel + 1, a, b, c, h => do
    let (one, h) := h.alloc [some 1]
    let mone : Mint := ⟨1, one⟩
    let (cval, h) := h.xalloc a.len
    let (borrow, h) ← limbLoop (subBoth a b) (fun _ => -1) cval (turns b.len) 0 0 h
    let (borrow, h) ← limbLoop (addOne a) id cval (turns a.len - turns b.len) (turns b.len) borrow h
    if borrow < 0 then
      let h ← complement cval (turns a.len) 0 h
      let (c, h) ← madd fuel ⟨a.len, cval⟩ mone ⟨a.len, cval⟩ h
      topLimb c borrow (turns a.len) h
    else topLimb ⟨c.len, cval⟩ borrow (turns a.len) h

/-- `ac` and `bc` say whether `a` and `b` are the same object as `c`. -/
def msub : Nat → Mint → Mint → Mint → Bool → Bool → Heap → Option (Mint × Heap)
  | 0, _, _, _, _, _, _ => none
  | fuel + 1, a, b, c, ac, bc, h => do
    let (z, sign, x, y, h) ← (do
      if 0 ≤ a.len then
        if 0 ≤ b.len then
          if b.len ≤ a.len then
            let (z, h) ← m_sub fuel a b z₀ h
            return (z, 1, a.len, b.len, h)
          else
            let (z, h) ← msub fuel b a z₀ false false h
            return (z, -1, a.len, b.len, h)
        else
          let (z, h) ← madd fuel a ⟨-b.len, b.val⟩ z₀ h
          return (z, 1, a.len, -b.len, h)
      else if b.len ≤ 0 then
        let (z, h) ← msub fuel ⟨-b.len, b.val⟩ ⟨-a.len, a.val⟩ z₀ false false h
        return (z, -1, -a.len, -b.len, h)
      else
        let (z, h) ← madd fuel ⟨-a.len, a.val⟩ b z₀ h
        return (z, -1, -a.len, b.len, h) : Option (Mint × Int16 × Int16 × Int16 × Heap))
    let h ← if ac ∧ x ≠ 0 then xfree a h else if bc ∧ y ≠ 0 then xfree b h else xfree c h
    return (⟨sign * z.len, z.val⟩, h)

end

end Venix.Libmp
