/-
  Powers (`libmp`, `pow.c`).

  The variables of a call are objects beside those of the program. `mult` of two numbers without
  limbs looks at the word in front of the block of its result, as `s_div` does: it is `busy` again.
-/
import Venix.Libmp.Msqrt

namespace Venix.Libmp

/-- `mult`, also of two numbers without limbs. -/
def multBusy (busy : Int16) (a b c : Mint) (h : Heap) : Option (Mint × Heap) :=
  if a.len = 0 ∧ b.len = 0 then do
    let (zval, h) := h.xalloc 0
    let zlen : Int16 := if busy ≠ 0 then 0 else -1
    let h ← xfree c h
    if zlen = 0 then
      let h ← h.free zval
      return (⟨zlen, c.val⟩, h)
    else return (⟨zlen, zval⟩, h)
  else mult a b c h

section Objects

variable {Q : Type} [DecidableEq Q]

def multBusyAt (busy : Int16) (st : Q → Mint) (a b c : Q) (h : Heap) :
    Option ((Q → Mint) × Heap) :=
  (multBusy busy (st a) (st b) (st c) h).map fun r => (Function.update st c r.1, r.2)

/-- The variables of `pow`, and those of `rpow`. -/
inductive PowVar
  | x | y
  deriving DecidableEq

/-- `mult(a,d,&x); mdiv(&x,c,&y,d)`. -/
def multMod (fuel : Nat) (busy : Int16) (a c d : Q) (vars : Q ⊕ PowVar → Mint) (h : Heap) :
    Option ((Q ⊕ PowVar → Mint) × Heap) := do
  let (vars, h) ← multBusyAt busy vars (.inl a) (.inl d) (.inr .x) h
  mdivAt fuel busy vars (.inr .x) (.inl c) (.inr .y) (.inl d) h

/-- The loop over the bits of a limb, with `m` turns left. -/
def powBits (fuel : Nat) (busy : Int16) (a c d : Q) : Nat → Int16 → (Q ⊕ PowVar → Mint) → Heap →
    Option ((Q ⊕ PowVar → Mint) × Heap)
  | 0, _, vars, h => some (vars, h)
  | m + 1, n, vars, h => do
    let (vars, h) ← multMod fuel busy d c d vars h
    let n := n <<< 1
    if n &&& 0o100000 ≠ 0 then
      let (vars, h) ← multMod fuel busy a c d vars h
      powBits fuel busy a c d m n vars h
    else powBits fuel busy a c d m n vars h

/-- The loop over the limbs, of which there are 32767 at most. -/
def powLimbs (fuel : Nat) (busy : Int16) (a b c d : Q) : Nat → Nat → (Q ⊕ PowVar → Mint) → Heap →
    Option ((Q ⊕ PowVar → Mint) × Heap)
  | 0, _, vars, h => some (vars, h)
  | m + 1, j, vars, h =>
    if (j : Int) < (vars (.inl b)).len.toInt then do
      let n ← h.read (vars (.inl b)).val (turns (vars (.inl b)).len - j - 1)
      let (vars, h) ← powBits fuel busy a c d 15 n vars h
      powLimbs fuel busy a b c d m (j + 1) vars h
    else some (vars, h)

def pow (fuel : Nat) (busy : Int16) (st : Q → Mint) (a b c d : Q) (h : Heap) :
    Option ((Q → Mint) × Heap) := do
  let vars : Q ⊕ PowVar → Mint := Sum.elim st fun _ => z₀
  let (vars, h) ← xfreeAt vars (.inl d) h
  let (val, h) := h.xalloc 1
  let vars := Function.update vars (.inl d) ⟨1, val⟩
  let h ← h.write val 0 1
  let (vars, h) ← powLimbs fuel busy a b c d 32767 0 vars h
  let (vars, h) ← xfreeAt vars (.inr .x) h
  let (vars, h) ← xfreeAt vars (.inr .y) h
  return (fun q => vars (.inl q), h)

def rpow (fuel : Nat) (busy : Int16) (st : Q → Mint) (a : Q) (n : Int16) (b : Q) (h : Heap) :
    Option ((Q → Mint) × Heap) := do
  let (xval, h) := h.xalloc 1
  let h ← h.write xval 0 n
  let len := n * (st a).len + 4
  let (yval, h) := h.xalloc len
  let h ← zeroLimbs yval (turns len) 0 h
  let h ← (if len - 1 < 0 then none else h.write yval (turns (len - 1)) 0o10000 : Option Heap)
  let vars := Sum.elim st fun o : PowVar => o.casesOn (⟨1, xval⟩ : Mint) (⟨len, yval⟩ : Mint)
  let (vars, h) ← xfreeAt vars (.inl b) h
  let (vars, h) ← pow fuel busy vars (.inl a) (.inr .x) (.inr .y) (.inl b) h
  let (vars, h) ← xfreeAt vars (.inr .x) h
  let (vars, h) ← xfreeAt vars (.inr .y) h
  return (fun q => vars (.inl q), h)

end Objects

end Venix.Libmp
