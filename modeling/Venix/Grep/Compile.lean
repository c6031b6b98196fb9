/-
  `compile` of `grep` (`cmd/grep.c`): a pattern becomes a program in `expbuf`.

  A `char` has a sign. A pattern is the bytes of its argument in front of the NUL. An access outside of
  `expbuf`, of `bracket`, of the 16 bytes of a bit map or behind the NUL of the pattern is a fault;
  `none` is the exit with "RE error".
-/
import Venix.Lib.Bytes
import Venix.Lib.Loop

namespace Venix.Grep

open Venix.Lib

def CBRA : Byte := 1
def CCHR : Byte := 2
def CDOT : Byte := 4
def CCL : Byte := 6
def CDOL : Byte := 10
def CEOF : Byte := 11
def CKET : Byte := 12
def CBACK : Byte := 18

def STAR : Byte := 1

abbrev ESIZE : Nat := 256
abbrev NBRA : Nat := 9

def chr (c : Char) : Byte := BitVec.ofNat 8 c.toNat

/-- An access outside of what it is to. -/
inductive Fault where
  | expbuf
  | bracket
  | bitmap
  | pattern
  | endless
deriving DecidableEq, Repr

/-- The byte at place `i` of a pattern or its NUL. -/
def char (pat : List Byte) (i : Nat) : Except Fault Byte :=
  if i < pat.length then .ok (pat.getD i 0) else if i = pat.length then .ok 0 else .error .pattern

/-- The variables of `compile`. -/
structure Comp where
  sp : Nat
  expbuf : Bytes ESIZE
  ep : Nat
  lastep : Option Nat
  bracket : Bytes NBRA
  bracketp : Nat
  closed : Nat
  numbra : Nat

/-- What a turn of the loop ends with: the exit has no program. -/
abbrev Ended := Turn Comp (Option (Bytes ESIZE))

def cerror : Except Fault Ended := .ok (.done none)

def continue_ (s : Comp) : Except Fault Ended := .ok (.more s)

/-- `*ep++ = b`. -/
def emit (b : Byte) (s : Comp) : Except Fault Comp :=
  if s.ep < ESIZE then .ok { s with
    expbuf := s.expbuf.put s.ep b
    ep := s.ep + 1 }
  else .error .expbuf

def defchar (c : Byte) (s : Comp) : Except Fault Ended := do
  let s ← emit CCHR s
  let s ← emit c s
  continue_ s

def star (s : Comp) : Except Fault Ended :=
  match s.lastep with
  | none => defchar (chr '*') s
  | some lastep =>
    let op := s.expbuf.get lastep
    if op = CBRA ∨ op = CKET then defchar (chr '*') s
    else continue_ { s with expbuf := s.expbuf.put lastep (op ||| STAR) }

def dollar (pat : List Byte) (s : Comp) : Except Fault Ended := do
  let next ← char pat s.sp
  if next ≠ 0 then defchar (chr '$') s
  else
    let s ← emit CDOL s
    continue_ s

/-- `ep[c>>3] |= bittab[c&07]`. -/
def setBit (c : Int) (s : Comp) : Except Fault Comp :=
  if 0 ≤ c / 8 ∧ c / 8 < 16 then
    let i := s.ep + (c / 8).toNat
    .ok { s with expbuf := s.expbuf.put i (s.expbuf.get i ||| 1#8 <<< (c % 8).toNat) }
  else .error .bitmap

/-- The loop over a range, with its turns. -/
def setBits : Nat → Int → Comp → Except Fault Comp
  | 0, _, s => .ok s
  | n + 1, c, s => do
    let s ← setBit c s
    setBits n (c + 1) s

/-- What a turn of the loop over a bracket list does with `c`: the range that `c` stands in, or `c`. -/
def inList (pat : List Byte) (cstart : Nat) (c : Byte) (s : Comp) : Except Fault Comp :=
  if c = chr '-' ∧ s.sp > cstart then do
    let last ← char pat s.sp
    if last ≠ chr ']' then
      let first ← char pat (s.sp - 2)
      let s ← setBits (last.toInt - first.toInt).toNat first.toInt s
      setBit (max first.toInt last.toInt) { s with sp := s.sp + 1 }
    else setBit c.toInt s
  else setBit c.toInt s

/-- The loop over a bracket list, with the turns that are left; `none` is the end of the pattern. -/
def listLoop (pat : List Byte) (cstart : Nat) : Nat → Byte → Comp → Except Fault (Option Comp)
  | 0, _, _ => .error .endless
  | n + 1, c, s =>
    if c = 0 then .ok none
    else do
      let s ← inList pat cstart c s
      let c ← char pat s.sp
      let s := { s with sp := s.sp + 1 }
      if c = chr ']' then return some s else listLoop pat cstart n c s

/-- The bit map of a negated list. -/
def negate (s : Comp) : Comp :=
  let flip (b : Bytes ESIZE) (i : Nat) : Bytes ESIZE := b.put (s.ep + i) (~~~b.get (s.ep + i))
  let b := (List.range 16).foldl flip s.expbuf
  { s with expbuf := b.put s.ep (b.get s.ep &&& 0o376) }

/-- The first character of a list, and whether the list is negated. -/
def negated (pat : List Byte) (c : Byte) (s : Comp) : Except Fault (Bool × Byte × Comp) :=
  if c = chr '^' then do
    let c ← char pat s.sp
    return (true, c, { s with sp := s.sp + 1 })
  else return (false, c, s)

/-- Behind the loop over a list. -/
def listDone (neg : Bool) : Option Comp → Except Fault Ended
  | none => cerror
  | some s =>
    let s := if neg then negate s else s
    continue_ { s with ep := s.ep + 16 }

def list (pat : List Byte) (s : Comp) : Except Fault Ended :=
  if s.ep + 17 ≥ ESIZE then cerror
  else do
    let s ← emit CCL s
    let c ← char pat s.sp
    let (neg, c, s) ← negated pat c { s with sp := s.sp + 1 }
    let r ← listLoop pat s.sp (pat.length + 1) c s
    listDone neg r

def escape (pat : List Byte) (s : Comp) : Except Fault Ended := do
  let c ← char pat s.sp
  let s := { s with sp := s.sp + 1 }
  if c = chr '(' then
    if s.numbra ≥ NBRA then cerror
    else if s.bracketp < NBRA then
      let s := { s with
        bracket := s.bracket.put s.bracketp (BitVec.ofNat 8 s.numbra)
        bracketp := s.bracketp + 1 }
      let s ← emit CBRA s
      let s ← emit (BitVec.ofNat 8 s.numbra) s
      continue_ { s with numbra := s.numbra + 1 }
    else .error .bracket
  else if c = chr ')' then
    if s.bracketp = 0 then cerror
    else
      let s ← emit CKET s
      let s := { s with bracketp := s.bracketp - 1 }
      let s ← emit (s.bracket.get s.bracketp) s
      continue_ { s with closed := s.closed + 1 }
  else if chr '1' ≤ c ∧ c ≤ chr '9' then
    if (c - chr '1').toNat ≥ s.closed then cerror
    else
      let s ← emit CBACK s
      let s ← emit (c - chr '1') s
      continue_ s
  else defchar c s

/-- The switch of `compile`. -/
def dispatch (pat : List Byte) (c : Byte) (s : Comp) : Except Fault Ended :=
  if c = 0 then do
    let s ← emit CEOF s
    return .done (some s.expbuf)
  else if c = chr '.' then do
    let s ← emit CDOT s
    continue_ s
  else if c = chr '*' then star s
  else if c = chr '$' then dollar pat s
  else if c = chr '[' then list pat s
  else if c = chr '\\' then escape pat s
  else defchar c s

/-- The variables when `c` is read. -/
def Comp.next (s : Comp) (c : Byte) : Comp :=
  { s with
    sp := s.sp + 1
    lastep := if c ≠ chr '*' then some s.ep else s.lastep }

/-- A turn of the loop of `compile`. -/
def turn (pat : List Byte) (s : Comp) : Except Fault Ended :=
  if s.ep ≥ ESIZE then cerror
  else do
    let c ← char pat s.sp
    dispatch pat c (s.next c)

/-- The loop of `compile`, with the turns that are left. -/
def compileLoop (pat : List Byte) : Nat → Comp → Except Fault (Option (Bytes ESIZE))
  | 0, _ => .error .endless
  | n + 1, s => do
    match ← turn pat s with
    | .more s => compileLoop pat n s
    | .done r => return r

/-- The variables before the loop; `circf` is set when the pattern begins with `^`. -/
def start (pat : List Byte) (expbuf : Bytes ESIZE) (bracket : Bytes NBRA) : Bool × Comp :=
  let circf := decide (pat.head? = some (chr '^'))
  (circf, ⟨if circf then 1 else 0, expbuf, 0, none, bracket, 0, 0, 0⟩)

/-- `compile`, with what `bracket` holds before: `circf` and the program. -/
def compile (pat : List Byte) (bracket : Bytes NBRA) :
    Except Fault (Option (Bool × Bytes ESIZE)) := do
  let (circf, s) := start pat Bytes.zero bracket
  let r ← compileLoop pat (pat.length + 2) s
  return r.map fun expbuf => (circf, expbuf)

end Venix.Grep
