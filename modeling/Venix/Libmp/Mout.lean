/-
  Numbers as text (`libmp`, `mout.c`).

  `m_out` fills `obuf` from its end down: a store below its start gives `none`, as does one through
  a structure or a block that is not there. `malloc` gives a buffer of the size that is asked for,
  which is in 16 bits. A file is the list of the bytes that are left; `getc` of an empty one is
  `EOF`. `qten` and `qy` are variables of the call, each a block of one cell here.
-/
import Venix.Libmp.Util
import Venix.Lib.Grouped

namespace Venix.Libmp

open Venix.Lib

/-! ## `m_out` -/

/-- `obuf`: the bytes after `bp`, and how many there are from its start up to `bp`. -/
structure Obuf where
  room : Nat
  cells : List UInt8

/-- `*bp--=c`. -/
def Obuf.put (c : Int) (o : Obuf) : Option Obuf :=
  if o.room = 0 then none else some ⟨o.room - 1, UInt8.ofNat (c % 256).toNat :: o.cells⟩

/-- `for(i=0;i<10&&x.len>0;i++)`, with `n` turns left at most. -/
def outDigits (busy b : Int16) : Nat → Mint → Obuf → Heap → Option (Mint × Obuf × Heap)
  | 0, x, o, h => some (x, o, h)
  | n + 1, x, o, h =>
    if 0 < x.len then do
      let (x, r, h) ← sdiv busy x b x h
      let o ← o.put (r.toInt + 48)
      outDigits busy b n x o h
    else some (x, o, h)

/-- `while(x.len>0)`. -/
def outGroups (busy b : Int16) : Nat → Mint → Obuf → Heap → Option (Mint × Obuf × Heap)
  | 0, _, _, _ => none
  | n + 1, x, o, h =>
    if 0 < x.len then do
      let (x, o, h) ← outDigits busy b 10 x o h
      let o ← (if 0 < x.len then o.put 32 else some o : Option Obuf)
      outGroups busy b n x o h
    else some (x, o, h)

/-- The line that is printed. -/
def m_out (busy : Int16) (a : Mint) (b : Int16) (h : Heap) : Option (List UInt8 × Heap) :=
  let xlen := if a.len < 0 then -a.len else a.len
  if xlen = 0 then some ([48, 10], h)
  else do
    let (val, h) := h.xalloc xlen
    let h ← copyLimbs a.val val (turns xlen) 0 h
    let size := (7 * xlen.toInt % 65536).toNat
    let o ← Obuf.put 0 ⟨size, []⟩
    let (x, o, h) ← outGroups busy b (size + 1) ⟨xlen, val⟩ o h
    let o ← (if a.len < 0 then o.put 45 else some o : Option Obuf)
    let h ← xfree x h
    return (o.cells.takeWhile (fun c => c ≠ 0) ++ [10], h)

/-! ## `m_in` -/

section Objects

variable {Q : Type} [DecidableEq Q]

/-- A digit: `qy` gets it, `a` becomes `x*ten+y`, and `x` a copy of that. -/
def inDigit (fuel : Nat) (ten y : Mint) (a : Q) (d : Int16) (vars : Q ⊕ Unit → Mint) (h : Heap) :
    Option ((Q ⊕ Unit → Mint) × Heap) := do
  let h ← h.write y.val 0 d
  let (m, h) ← mult (vars (.inr ())) ten (vars (.inl a)) h
  let vars := Function.update vars (.inl a) m
  let (m, h) ← madd fuel (vars (.inl a)) y (vars (.inl a)) h
  let vars := Function.update vars (.inl a) m
  moveAt vars (.inl a) (.inr ()) h

/-- The loop over the characters. What is returned, the rest of the file, and the objects; `stdin`
says whether the file is that to which a character is given back. -/
def inLoop (fuel : Nat) (stdin : Bool) (ten y : Mint) (a : Q) :
    List UInt8 → Int16 → (Q ⊕ Unit → Mint) → Heap →
      Option (Int × List UInt8 × (Q ⊕ Unit → Mint) × Heap)
  | [], _, vars, h => some (-1, [], vars, h)
  | c :: f, sign, vars, h =>
    if c = 92 then
      match f with
      | [] => some (-1, [], vars, h)
      | _ :: f => inLoop fuel stdin ten y a f sign vars h
    else if c = 9 ∨ c = 10 then do
      let m := vars (.inl a)
      let vars := Function.update vars (.inl a) ⟨m.len * sign, m.val⟩
      let (vars, h) ← xfreeAt vars (.inr ()) h
      return (0, f, vars, h)
    else if c = 32 then inLoop fuel stdin ten y a f sign vars h
    else if c = 45 then inLoop fuel stdin ten y a f (-sign) vars h
    else if 48 ≤ c ∧ c ≤ 57 then do
      let (vars, h) ← inDigit fuel ten y a (Int16.ofInt ((c.toNat : Int) - 48)) vars h
      inLoop fuel stdin ten y a f sign vars h
    else
      let m := vars (.inl a)
      some (0, if stdin then c :: f else f,
        Function.update vars (.inl a) ⟨m.len * sign, m.val⟩, h)

def m_in (fuel : Nat) (stdin : Bool) (st : Q → Mint) (a : Q) (b : Int16) (f : List UInt8)
    (h : Heap) : Option (Int × List UInt8 × (Q → Mint) × Heap) := do
  let (st, h) ← xfreeAt st a h
  let (ten, h) := h.alloc [some b]
  let (y, h) := h.alloc [none]
  let (r, f, vars, h) ← inLoop fuel stdin ⟨1, ten⟩ ⟨1, y⟩ a f 1 (Sum.elim st fun _ => z₀) h
  return (r, f, fun q => vars (.inl q), h)

end Objects

end Venix.Libmp
