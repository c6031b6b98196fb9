/-
  `advance` of `grep` (`cmd/grep.c`): whether the program from `ep` on accepts the line from `lp` on.

  A line is its bytes in front of the NUL, and a pointer into it a number. An access behind the NUL, behind
  `expbuf` or outside of the arrays of brackets is a fault, as is a captured string that ends before it
  begins. `endless` says that there were too few turns; a run that ends has enough of them.
-/
import Venix.Grep.Compile

namespace Venix.Grep

open Venix.Lib Function

/-- `braslist` and `braelist`. -/
structure Bra where
  braslist : Nat → Option Nat
  braelist : Nat → Option Nat

inductive Stop where
  | fault
  | botch
  | endless
deriving DecidableEq, Repr

def fetch (prog : Bytes ESIZE) (ep : Nat) : Except Stop Byte :=
  if ep < ESIZE then .ok (prog.get ep) else .error .fault

def read (line : List Byte) (lp : Nat) : Except Stop Byte :=
  if lp < line.length then .ok (line.getD lp 0) else if lp = line.length then .ok 0 else .error .fault

/-- The number of a bracket. -/
def slot (prog : Bytes ESIZE) (ep : Nat) : Except Stop Nat := do
  let k ← fetch prog ep
  if k.toNat < NBRA then return k.toNat else .error .fault

def ecmp (line : List Byte) : Nat → Nat → Nat → Except Stop Bool
  | 0, _, _ => .ok true
  | n + 1, a, b => do
    let c ← read line a
    let d ← read line b
    if c ≠ d then return false else ecmp line n (a + 1) (b + 1)

/-- `ep[c>>3] & bittab[c & 07]`. -/
def inClass (prog : Bytes ESIZE) (ep : Nat) (c : Byte) : Except Stop Bool := do
  let c := (c &&& 0o177).toNat
  let b ← fetch prog (ep + c / 8)
  return b.getLsbD (c % 8)

/-- The loops in front of `star`: the first place from `lp` on of which `test` does not hold. -/
def span (line : List Byte) (test : Byte → Except Stop Bool) : Nat → Nat → Except Stop Nat
  | 0, _ => .error .endless
  | n + 1, lp => do
    let c ← read line lp
    if ← test c then span line test n (lp + 1) else return lp

/-- The beginning and the length of what a bracket has captured, if it was closed. -/
def captured (bra : Bra) (k : Nat) : Except Stop (Option (Nat × Nat)) :=
  match bra.braelist k, bra.braslist k with
  | none, _ => .ok none
  | some _, none => .error .fault
  | some e, some bbeg => if e < bbeg then .error .fault else .ok (some (bbeg, e - bbeg))

/-- What `advance` does next: it returns, goes on, or tries the places from `lp` down to `curlp`; or it
repeats a captured string. -/
inductive Act where
  | ret (r : Bool)
  | go (lp ep : Nat) (bra : Bra)
  | star (lp curlp ep : Nat)
  | backs (bbeg ct ep : Nat)

/-- The switch of `advance`. -/
def act (prog : Bytes ESIZE) (line : List Byte) (lp ep : Nat) (bra : Bra) : Except Stop Act := do
  let op ← fetch prog ep
  if op = CCHR then
    let c ← fetch prog (ep + 1)
    let d ← read line lp
    return if c = d then .go (lp + 1) (ep + 2) bra else .ret false
  else if op = CDOT then
    let d ← read line lp
    return if d ≠ 0 then .go (lp + 1) (ep + 1) bra else .ret false
  else if op = CDOL then
    let d ← read line lp
    return if d = 0 then .go lp (ep + 1) bra else .ret false
  else if op = CEOF then return .ret true
  else if op = CCL then
    let d ← read line lp
    let r ← inClass prog (ep + 1) d
    return if r then .go (lp + 1) (ep + 17) bra else .ret false
  else if op = CBRA then
    let k ← slot prog (ep + 1)
    return .go lp (ep + 2) { bra with braslist := update bra.braslist k (some lp) }
  else if op = CKET then
    let k ← slot prog (ep + 1)
    return .go lp (ep + 2) { bra with braelist := update bra.braelist k (some lp) }
  else if op = CBACK then
    let k ← slot prog (ep + 1)
    match ← captured bra k with
    | none => return .ret false
    | some (bbeg, ct) =>
      let r ← ecmp line ct bbeg lp
      return if r then .go (lp + ct) (ep + 2) bra else .ret false
  else if op = CBACK ||| STAR then
    let k ← slot prog (ep + 1)
    match ← captured bra k with
    | none => return .ret false
    | some (bbeg, ct) => return .backs bbeg ct (ep + 2)
  else if op = CDOT ||| STAR then
    let lp' ← span line (fun d => .ok (decide (d ≠ 0))) (line.length + 2) lp
    return .star lp' lp (ep + 1)
  else if op = CCHR ||| STAR then
    let c ← fetch prog (ep + 1)
    let lp' ← span line (fun d => .ok (decide (d = c))) (line.length + 2) lp
    return .star lp' lp (ep + 2)
  else if op = CCL ||| STAR then
    let lp' ← span line (inClass prog (ep + 1)) (line.length + 2) lp
    return .star lp' lp (ep + 17)
  else .error .botch

/-- The character that what is next begins with, if it is one. -/
def shortcut (prog : Bytes ESIZE) (ep : Nat) : Except Stop (Option Byte) := do
  let op ← fetch prog ep
  if op = CCHR then
    let c ← fetch prog (ep + 1)
    return some c
  else return none

def skips (line : List Byte) (first : Option Byte) (lp : Nat) : Except Stop Bool :=
  match first with
  | none => .ok false
  | some c => do
    let d ← read line lp
    return decide (d ≠ c)

/-- The loops behind `star`, from `curlp + k` down to `curlp`; `adv` is the call of `advance`. -/
def tries (line : List Byte) (adv : Nat → Bra → Except Stop (Bool × Bra)) (first : Option Byte) (curlp : Nat) :
    Nat → Bra → Except Stop (Bool × Bra)
  | 0, bra => do
    if ← skips line first curlp then return (false, bra) else adv curlp bra
  | k + 1, bra => do
    if ← skips line first (curlp + (k + 1)) then tries line adv first curlp k bra
    else
      let (r, bra) ← adv (curlp + (k + 1)) bra
      if r then return (true, bra) else tries line adv first curlp k bra

/-- `while(ecmp(bbeg, lp, ct)) lp += ct;`, with its turns. -/
def grow (line : List Byte) (bbeg ct : Nat) : Nat → Nat → Except Stop Nat
  | 0, _ => .error .endless
  | n + 1, lp => do
    if ← ecmp line ct bbeg lp then grow line bbeg ct n (lp + ct) else return lp

/-- `while(lp >= curlp)` of a repeated string, with its turns. -/
def shrink (adv : Nat → Bra → Except Stop (Bool × Bra)) (curlp ct : Nat) :
    Nat → Nat → Bra → Except Stop (Bool × Bra)
  | 0, _, _ => .error .endless
  | n + 1, lp, bra => do
    let (r, bra) ← adv lp bra
    if r then return (true, bra)
    else if curlp + ct ≤ lp then shrink adv curlp ct n (lp - ct) bra
    else return (false, bra)

/-- `advance`, with the turns that are left. -/
def advance (prog : Bytes ESIZE) (line : List Byte) : Nat → Nat → Nat → Bra → Except Stop (Bool × Bra)
  | 0, _, _, _ => .error .endless
  | n + 1, lp, ep, bra => do
    match ← act prog line lp ep bra with
    | .ret r => return (r, bra)
    | .go lp ep bra => advance prog line n lp ep bra
    | .star lp curlp ep =>
      if lp = curlp then advance prog line n lp ep bra
      else
        let first ← shortcut prog ep
        tries line (fun lp bra => advance prog line n lp ep bra) first curlp (lp - curlp) bra
    | .backs bbeg ct ep =>
      let lp' ← grow line bbeg ct n lp
      shrink (fun lp bra => advance prog line n lp ep bra) lp ct n lp' bra

end Venix.Grep
