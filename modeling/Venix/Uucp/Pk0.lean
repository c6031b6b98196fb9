/-
  The packet driver of `uucp` (`pk0.c`, and `pkdata` of `pk1.c`): packets that are written, received and
  read.

  A `char` has a sign and an `int` has 16 bits. A pointer into a buffer is the bytes from there on; an
  access behind a buffer gives `none`. The receiver's calls of `pkgetpack` give one frame each, if there
  is one; a call that waits for a frame when there is none gives `none` too.
-/
import Venix.Lib.Bytes

namespace Venix.Uucp

open Venix.Lib

/-! ## Writing -/

/-- The bytes `d` go to place `i` of a buffer. -/
def store (b : List Byte) (i : Nat) (d : List Byte) : Option (List Byte) :=
  if i + d.length ≤ b.length then some (b.take i ++ d ++ b.drop (i + d.length)) else none

/-- The fill count goes to the start of a buffer: the place behind it, and the buffer. -/
def putFill (ob : List Byte) (fc : BitVec 16) : Option (Nat × List Byte) := do
  let ob ← store ob 0 [(fc &&& 0o177).setWidth 8]
  if fc.toInt > 127 then
    let ob ← store ob 0 [(fc &&& 0o177).setWidth 8 ||| 0o200]
    let ob ← store ob 1 [(fc.sshiftRight 7).setWidth 8]
    return (2, ob)
  else return (1, ob)

/-- A turn of `pkwrite`: the packet, whether it is a short one, and the bytes that are left. -/
def fill (xsize : BitVec 16) (ob data : List Byte) : Option (List Byte × Bool × List Byte) :=
  if (BitVec.ofNat 16 data.length).toInt < xsize.toInt then do
    let (cp, ob) ← putFill ob (xsize - BitVec.ofNat 16 data.length)
    let ob ← store ob cp data
    return (ob, true, [])
  else do
    let ob ← store ob 0 (data.take xsize.toNat)
    return (ob, false, data.drop xsize.toNat)

/-- `pkwrite`, with the buffers that it gets for its packets. -/
def pkwrite (xsize : BitVec 16) : List (List Byte) → List Byte → Option (List (List Byte × Bool))
  | [], _ => none
  | ob :: obs, data => do
    let (packet, short, data) ← fill xsize ob data
    if data = [] then return [(packet, short)]
    else return (packet, short) :: (← pkwrite xsize obs data)

/-- The loop of `chksum`. -/
def chkLoop : List Byte → BitVec 16 → BitVec 16 → BitVec 16 → Option (BitVec 16)
  | [], _, _, _ => none
  | c :: s, n, sum, x =>
    let t := if sum.toInt < 0 then sum <<< 1 + 1 else sum <<< 1
    let sum := t + c.signExtend 16
    let x := x + (sum ^^^ n)
    let sum := if sum.toNat ≤ t.toNat then sum ^^^ x else sum
    if (n - 1).toInt > 0 then chkLoop s (n - 1) sum x else some sum

def chksum (s : List Byte) (n : BitVec 16) : Option (BitVec 16) := chkLoop s n (-1) 0

def CHECK : BitVec 16 := 0o125252

/-- The control byte of a packet, and the check word of its header: `pkoutput`, `pkxstart`. -/
def cntlOf (pr seq : Nat) (short : Bool) : Byte :=
  BitVec.ofNat 8 (0o200 + pr + seq * 8) ||| if short then 0o100 else 0

def checkword (osum : BitVec 16) (cntl : Byte) : BitVec 16 := CHECK - (osum ^^^ cntl.signExtend 16)

/-! ## The receiver -/

def B_RESID : Byte := 0o10
def B_COPY : Byte := 0o20
def B_MARK : Byte := 0o40
def B_SHORT : Byte := 0o100

def M_RJ : Byte := 4
def M_RR : Byte := 0o20

def next (x : Nat) : Nat := (x + 1) % 8

def mask (x : Nat) : Byte := 1#8 <<< x

/-- What the receiver uses of `struct pack`. -/
structure Pack where
  live : Bool
  draino : Bool
  rsize : BitVec 16
  rptr : List Byte
  rcount : Nat
  rwindow : Nat
  msg : Byte
  rmsg : Byte
  pr : Nat
  imap : Byte
  ib : Nat → List Byte
  is : Nat → Byte
  isum : Nat → BitVec 16

/-- The slot for a new frame, with the turns that are left. -/
def slot (pk : Pack) (t : Nat) : Nat → Nat → Option Nat
  | 0, _ => none
  | m + 1, x => if x = t then none else if pk.is x = 0 then some x else slot pk t m ((x + 7) % 8)

/-- A frame: its control byte, its check word and its bytes. -/
structure Frame where
  c : Byte
  sum : BitVec 16
  bytes : List Byte

def pkdata (f : Frame) (pk : Pack) : Pack :=
  if pk.draino ∨ ¬pk.live then { pk with msg := pk.msg ||| pk.rmsg }
  else
    match slot pk (next pk.pr) 8 pk.pr with
    | none => pk
    | some x => { pk with
        imap := pk.imap ||| mask x
        is := Function.update pk.is x f.c
        isum := Function.update pk.isum x f.sum
        ib := Function.update pk.ib x f.bytes }

/-- The loop of `pkaccept` that waits for input. -/
def await : List Frame → Pack → Option (List Frame × Pack)
  | wire, pk =>
    if pk.imap = 0 ∧ pk.rcount = 0 then
      match wire with
      | [] => none
      | f :: wire => await wire (pkdata f pk)
    else some (wire, pk)

/-- The window from slot `x` on. -/
def window (rwindow x : Nat) : Byte :=
  let t : BitVec 16 := ~~~((-1 : BitVec 16) <<< rwindow) <<< x
  t.setWidth 8 ||| (t.sshiftRight 8).setWidth 8

/-- The number of fill bytes, which a short packet begins with. -/
def fillCount : List Byte → Option (BitVec 16)
  | [] => none
  | p :: rest =>
    let cc := p.signExtend 16
    if cc &&& 0o200 ≠ 0 then
      match rest with
      | [] => none
      | q :: _ => some ((cc &&& 0o177#16) ||| (q.signExtend 16 <<< 7))
    else some cc

/-- A packet goes from slot `x` to its own. -/
def inPlace (pk : Pack) (x seq : Nat) : Pack :=
  if x ≠ seq then
    { pk with
      ib := Function.update (Function.update pk.ib x (pk.ib seq)) seq (pk.ib x)
      is := Function.update pk.is x (pk.is seq) }
  else pk

/-- The packet in its slot gets its mark and its size. -/
def acceptPacket (cntl : Byte) (seq : Nat) (pk : Pack) : Option Pack :=
  if cntl &&& B_SHORT ≠ 0 then do
    let cc ← fillCount (pk.ib seq)
    return { pk with
      is := Function.update pk.is seq (B_MARK + B_SHORT)
      isum := Function.update pk.isum seq (pk.rsize - cc) }
  else
    some { pk with
      is := Function.update pk.is seq B_MARK
      isum := Function.update pk.isum seq pk.rsize }

/-- A new frame in slot `x`: the slots, and whether the frame was bad and whether it was left out. -/
def acceptSlot (imask m : Byte) (x : Nat) (pk : Pack) : Option (Pack × Bool × Bool) :=
  if imask &&& mask x = 0 then some (pk, false, false)
  else
    let cntl := pk.is x
    let free (pk : Pack) : Pack := { pk with is := Function.update pk.is x 0 }
    if cntl &&& 0o200 = 0 then some (free pk, true, false)
    else do
      let pk := { pk with is := Function.update pk.is x (~~~(B_COPY + B_MARK)) }
      let sum ← chksum (pk.ib x) pk.rsize
      let sum := (sum ^^^ cntl.signExtend 16) + pk.isum x
      if sum = CHECK then
        let seq := ((cntl.sshiftRight 3) &&& 7).toNat
        if m &&& mask seq ≠ 0 ∧ pk.is seq &&& (B_COPY ||| B_MARK) = 0 then do
          let pk ← acceptPacket cntl seq (inPlace pk x seq)
          return (pk, false, false)
        else return (free { pk with msg := pk.msg ||| M_RR }, false, true)
      else return (free pk, true, false)

/-- The loop over the slots, from `x` on. -/
def acceptSlots (imask m : Byte) : List Nat → Pack → Option (Pack × Bool × Bool)
  | [], pk => some (pk, false, false)
  | x :: xs, pk => do
    let (pk, bad, skip) ← acceptSlot imask m x pk
    let (pk, bad', skip') ← acceptSlots imask m xs pk
    return (pk, bad || bad', skip || skip')

/-- A marked buffer becomes one to copy from. -/
def marked (pk : Pack) (x : Nat) : Pack :=
  if pk.is x &&& B_MARK ≠ 0 then { pk with is := Function.update pk.is x (pk.is x ||| B_COPY) } else pk

/-- The loop over the window, with the turns that are left: `hole` once a packet was missing. -/
def scan (m : Byte) : Nat → Nat → Bool → Pack → Option (Nat × Bool × Pack)
  | 0, _, _, _ => none
  | n + 1, x, hole, pk =>
    if m &&& mask x = 0 then some (0, false, pk)
    else
      let pk := marked pk x
      if pk.is x &&& B_COPY = 0 then scan m n (next x) true pk
      else if hole then do
        let (accept, _, pk) ← scan m n (next x) hole { pk with is := Function.update pk.is x 0 }
        return (accept, true, pk)
      else do
        let (accept, skip, pk) ← scan m n (next x) hole pk
        return (accept + 1, skip, pk)

def pkaccept (wire : List Frame) (pk : Pack) : Option (Nat × List Frame × Pack) := do
  let x := next pk.pr
  let (wire, pk) ← await wire pk
  let imask := pk.imap
  let m := window pk.rwindow x
  let (pk, bad, skip) ← acceptSlots imask m (List.range 8) { pk with imap := 0 }
  let (accept, skip', pk) ← scan m 9 (next pk.pr) false pk
  let msg := if bad then pk.msg ||| M_RJ else pk.msg
  let msg := if skip ∨ skip' then msg ||| M_RR else msg
  return (accept, wire, { pk with msg, rcount := accept })

/-- `while (pkaccept(pk)==0)`; each turn but the last takes a frame. -/
def acceptLoop : Nat → List Frame → Pack → Option (List Frame × Pack)
  | 0, _, _ => none
  | n + 1, wire, pk => do
    let (accept, wire, pk) ← pkaccept wire pk
    if accept = 0 then acceptLoop n wire pk else return (wire, pk)

/-- Where the bytes of slot `x` go on. -/
def dataAt (pk : Pack) (x : Nat) : Option (List Byte) :=
  if pk.is x &&& B_RESID ≠ 0 then some pk.rptr
  else if pk.is x &&& B_SHORT ≠ 0 then
    match pk.ib x with
    | [] => none
    | c :: cp =>
      if c.signExtend 16 &&& 0o200 ≠ 0 then
        match cp with
        | [] => none
        | _ :: cp => some cp
      else some cp
  else some (pk.ib x)

/-- The receiver when `cc` bytes from `cp` on, of slot `x`, were moved. -/
def taken (pk : Pack) (x : Nat) (cc : BitVec 16) (cp : List Byte) : Pack :=
  if pk.isum x - cc = 0 then
    { pk with
      pr := x
      is := Function.update pk.is x 0
      isum := Function.update pk.isum x 0
      rcount := pk.rcount - 1
      msg := pk.msg ||| M_RR }
  else
    { pk with
      rptr := cp.drop cc.toInt.toNat
      is := Function.update pk.is x (pk.is x ||| B_RESID)
      isum := Function.update pk.isum x (pk.isum x - cc) }

/-- The loop of `pkread`, with the turns that are left, the bytes still asked for and whether it has
moved something. -/
def readLoop : Nat → BitVec 16 → Bool → Pack → Option (List Byte × Pack)
  | 0, _, _, _ => none
  | n + 1, count, xfr, pk =>
    let x := next pk.pr
    if count = 0 then some ([], pk)
    else if pk.is x &&& B_COPY = 0 then some ([], pk)
    else
      let cc := if (pk.isum x).toInt < count.toInt then pk.isum x else count
      if cc = 0 ∧ xfr then some ([], pk)
      else do
        let cp ← dataAt pk x
        if cp.length < cc.toInt.toNat then none
        else if cc = 0 then return ([], taken pk x cc cp)
        else
          let (rest, pk) ← readLoop n (count - cc) true (taken pk x cc cp)
          return (cp.take cc.toInt.toNat ++ rest, pk)

/-- `pkread` of `count` bytes: what it has moved, what is left of the input, and the receiver. -/
def pkread (count : BitVec 16) (wire : List Frame) (pk : Pack) :
    Option (List Byte × List Frame × Pack) := do
  let (wire, pk) ← acceptLoop (wire.length + 2) wire pk
  let (bytes, pk) ← readLoop (count.toNat + 1) count false pk
  return (bytes, wire, pk)

end Venix.Uucp
