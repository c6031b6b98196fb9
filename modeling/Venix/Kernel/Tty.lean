/-
  Terminals (`tty.c`, with the start routine and the interrupts of `kl.c`): the raw queue with its
  delimiters, `canon`, and output.

  `canon` runs with interrupts on after its wait, so its loop is made of steps: a character is
  taken off the raw queue in one and treated in the next, and an interrupt may come between. A
  process does not lose the processor in the kernel unless it sleeps, so the other steps of
  processes wait for `canon` to end. A `char` has a sign. The characters after the end of `maptab`
  are given. `done` is the bit `DONE` of the transmitter.
-/
import Venix.Kernel.Clist

namespace Venix.Kernel

open Venix.Lib

/-- The queues of the terminal, and those of others. -/
inductive TtyQ where
  | rawq
  | canq
  | outq
  | other (n : Nat)
  deriving DecidableEq

/-- `struct tc`. -/
structure Tc where
  intrc : Byte
  quitc : Byte
  startc : Byte
  stopc : Byte
  eofc : Byte
  brkc : Byte
  deriving DecidableEq

/-- A `canon` in its loop: `canonb` from its third character on with the last character first, a
    character that is not treated yet, and whether the loop has ended. For the statements only: all
    that it has taken, and whether the queue was flushed meanwhile. -/
structure Canon where
  buf : List Byte
  c : Option Byte
  ended : Bool
  took : List Byte
  flushed : Bool
  deriving DecidableEq

structure Tty where
  lists : Clists TtyQ
  flags : BitVec 16
  state : BitVec 16
  delct : Byte
  col : Byte
  erase : Byte
  kill : Byte
  tun : Tc
  chan : Bool
  done : Bool
  canon : Option Canon

/-! ## Constants -/

def canbsiz : Nat := 256
def ttyhog : Nat := 256

def TANDEM : BitVec 16 := 0o1
def CBREAK : BitVec 16 := 0o2
def LCASE : BitVec 16 := 0o4
def ECHO : BitVec 16 := 0o10
def CRMOD : BitVec 16 := 0o20
def RAW : BitVec 16 := 0o40
def EVENP : BitVec 16 := 0o200
def TBDELAY : BitVec 16 := 0o6000
def XTABS : BitVec 16 := 0o6000
def CR2 : BitVec 16 := 0o20000
def VTDELAY : BitVec 16 := 0o40000

def TIMEOUT : BitVec 16 := 0o1
def WOPEN : BitVec 16 := 0o2
def ISOPEN : BitVec 16 := 0o4
def CARRON : BitVec 16 := 0o20
def BUSY : BitVec 16 := 0o40
def TTSTOP : BitVec 16 := 0o400
def TBLOCK : BitVec 16 := 0o2000

/-- The delimiter in the raw queue. -/
def delim : Byte := 0o377

/-- `\` -/
def backslash : Byte := 0o134

/-- What `maptab` has for a character that follows `\`. -/
def maptab : List Byte :=
  List.replicate 33 0 ++ [0o174] ++ List.replicate 5 0 ++ [0o140, 0o173, 0o175] ++
    List.replicate 52 0 ++ [0o176] ++ List.replicate 2 0 ++
    (List.range' 0o101 26).map (BitVec.ofNat 8) ++ List.replicate 5 0

/-- The class of each character, with its parity. -/
def partab : List Byte := [
  0o001, 0o201, 0o201, 0o001, 0o201, 0o001, 0o001, 0o201,
  0o202, 0o004, 0o003, 0o201, 0o005, 0o206, 0o201, 0o001,
  0o201, 0o001, 0o001, 0o201, 0o001, 0o201, 0o201, 0o001,
  0o001, 0o201, 0o201, 0o001, 0o201, 0o001, 0o001, 0o201,
  0o200, 0o000, 0o000, 0o200, 0o000, 0o200, 0o200, 0o000,
  0o000, 0o200, 0o200, 0o000, 0o200, 0o000, 0o000, 0o200,
  0o000, 0o200, 0o200, 0o000, 0o200, 0o000, 0o000, 0o200,
  0o200, 0o000, 0o000, 0o200, 0o000, 0o200, 0o200, 0o000,
  0o200, 0o000, 0o000, 0o200, 0o000, 0o200, 0o200, 0o000,
  0o000, 0o200, 0o200, 0o000, 0o200, 0o000, 0o000, 0o200,
  0o000, 0o200, 0o200, 0o000, 0o200, 0o000, 0o000, 0o200,
  0o200, 0o000, 0o000, 0o200, 0o000, 0o200, 0o200, 0o000,
  0o000, 0o200, 0o200, 0o000, 0o200, 0o000, 0o000, 0o200,
  0o200, 0o000, 0o000, 0o200, 0o000, 0o200, 0o200, 0o000,
  0o200, 0o000, 0o000, 0o200, 0o000, 0o200, 0o200, 0o000,
  0o000, 0o200, 0o200, 0o000, 0o200, 0o000, 0o000, 0o201]

/-- A character as an `int` is equal to a `char`. -/
def isChar (c x : Byte) : Bool := (c.toNat : Int) = x.toInt

namespace Tty

def has (s : Tty) (bit : BitVec 16) : Bool := s.flags &&& bit ≠ 0

def is (s : Tty) (bit : BitVec 16) : Bool := s.state &&& bit ≠ 0

def set (s : Tty) (bit : BitVec 16) : Tty := { s with state := s.state ||| bit }

def clear (s : Tty) (bit : BitVec 16) : Tty := { s with state := s.state &&& ~~~bit }

/-- Neither `RAW` nor `CBREAK`. -/
def cooked (s : Tty) : Bool := !s.has (RAW ||| CBREAK)

def cc (s : Tty) (q : TtyQ) : Int := (s.lists.clist q).cc

/-! ## Output -/

def outPut (s : Tty) (c : Byte) : Tty := { s with lists := (s.lists.putc c .outq).2 }

/-- `klstart`: a character above 0177 is a delay. -/
def klstart (s : Tty) : Option Tty :=
  if ¬s.done then some s
  else do
    let (c, lists) ← s.lists.getc .outq
    let s := { s with lists := lists }
    if c < 0 then return s
    else if s.has RAW ∨ c ≤ 0o177 then return { s with done := false }
    else return s.set TIMEOUT

def ttstart (s : Tty) : Option Tty :=
  if s.is (TIMEOUT ||| TTSTOP ||| BUSY) then some s else s.klstart

/-- The switch of `ttyoutput`: the delay, and the column. -/
def delay (flags : BitVec 16) (col : Byte) (ctype : Byte) : BitVec 16 × Byte :=
  match (ctype &&& 0o77).toNat with
  | 0 => (0, col + 1)
  | 2 => (0, if col ≠ 0 then col - 1 else col)
  | 3 =>
    let kind := (flags >>> 8) &&& 3
    let c : BitVec 16 :=
      if kind = 1 then
        if col ≠ 0 then
          let x := (col.signExtend 16 >>> 4) + 3
          if x > 6 then x else 6
        else 0
      else if kind = 2 then 6
      else 0
    (c, 0)
  | 4 =>
    let kind := (flags >>> 10) &&& 3
    let c : BitVec 16 := 1 - (col.signExtend 16 ||| ~~~7)
    (if kind = 1 ∧ ¬c.toInt < 5 then c else 0, (col ||| 7) + 1)
  | 5 => (if flags &&& VTDELAY ≠ 0 then 0o177 else 0, col)
  | 6 =>
    let kind := (flags >>> 12) &&& 3
    (if kind = 1 then 5 else if kind = 2 then 10 else 0, 0)
  | _ => (0, col)

/-- The end of `ttyoutput`. -/
def outDelay (s : Tty) (c : Byte) : Tty :=
  let s := s.outPut c
  let (d, col) := delay s.flags s.col (partab.getD c.toNat 0)
  let s := { s with col := col }
  if d ≠ 0 then s.outPut (d.setWidth 8 ||| 0o200) else s

/-- The loop of `ttyoutput` for a tab. -/
def outTab (out : Tty → Byte → Tty) : Nat → Tty → Tty
  | 0, s => s
  | n + 1, s =>
    let s := out s 0o40
    if s.col &&& 7 ≠ 0 then outTab out n s else s

/-- The pairs of `colp`: what is printed after `\`, and for what. -/
def escapes : List (Byte × Byte) :=
  [(0o50, 0o173), (0o51, 0o175), (0o41, 0o174), (0o136, 0o176), (0o47, 0o140)]

/-- `ttyoutput`, where `out` is `ttyoutput` of the characters that it puts before `c`. -/
def outChar (out : Tty → Byte → Tty) (s : Tty) (c : Byte) : Tty :=
  if s.has RAW then s.outPut c
  else
    let c := c &&& 0o177
    if c = 0o4 then s
    else if c = 0o11 ∧ s.flags &&& TBDELAY = XTABS then outTab out 9 s
    else
      let (s, c) : Tty × Byte :=
        if s.has LCASE then
          let (s, c) := match escapes.find? fun p => p.2 = c with
            | some p => (out s backslash, p.1)
            | none => (s, c)
          (s, if 0o141 ≤ c ∧ c ≤ 0o172 then c - 0o40 else c)
        else (s, c)
      let s := if c = 0o12 ∧ s.has CRMOD then out s 0o15 else s
      s.outDelay c

/-- A blank, `\` or a carriage return puts no further character before it. -/
def ttyoutput (s : Tty) (c : Byte) : Tty := outChar (outChar fun s _ => s) s c

/-! ## Flushing -/

/-- `while (getc(q) >= 0);` with a bound. -/
def drain (q : TtyQ) : Nat → Clists TtyQ → Option (Clists TtyQ)
  | 0, _ => none
  | n + 1, s => do
    let (c, s) ← s.getc q
    if c < 0 then return s else drain q n s

def drainQ (s : Tty) (q : TtyQ) : Option Tty :=
  (drain q ((s.cc q).toNat + 1) s.lists).map fun lists => { s with lists := lists }

def flushtty (s : Tty) : Option Tty := do
  let s ← s.drainQ .canq
  let s := s.clear TTSTOP
  let s ← s.drainQ .outq
  let s ← s.drainQ .rawq
  return { s with
    delct := 0
    canon := s.canon.map fun r => { r with flushed := true } }

/-- `putc` of a control character for the other side: then `f`, and output is started. -/
def signalLine (s : Tty) (c : Byte) (f : Tty → Tty) : Option Tty :=
  match s.lists.putc c .outq with
  | (r, lists) =>
    let s := { s with lists := lists }
    if r = 0 then (f s).ttstart else some s

def ttyblock (s : Tty) : Option Tty := do
  let x := s.cc .rawq + s.cc .canq
  let s ← (if s.cc .rawq > (ttyhog : Int) then s.flushtty.map fun s => s.clear TBLOCK else some s)
  if x ≥ (ttyhog / 2 : Nat) then s.signalLine s.tun.stopc fun s => s.set TBLOCK else return s

/-! ## Input -/

/-- Starting and stopping output; whether the character was for that. -/
def inputFlow (s : Tty) (c : Byte) : Option (Tty × Bool) :=
  if s.is TTSTOP then
    if isChar c s.tun.startc then (s.clear TTSTOP).ttstart.map (·, true)
    else if isChar c s.tun.stopc then some (s, true)
    else (s.clear TTSTOP).ttstart.map (·, false)
  else if isChar c s.tun.stopc then some (s.set TTSTOP, true)
  else if isChar c s.tun.startc then some (s, true)
  else some (s, false)

/-- `ttyinput` of a character when the mode is not `RAW`, up to the queue; no character is left
    where it returns before. -/
def inputCtl (s : Tty) (c : Byte) : Option (Tty × Option Byte) := do
  let (s, flow) ← s.inputFlow c
  if flow then return (s, none)
  else if isChar c s.tun.quitc ∨ isChar c s.tun.intrc then
    let s ← s.flushtty
    return (s, none)
  else return (s, some (if c = 0o15 ∧ s.has CRMOD then 0o12 else c))

/-- `ttyinput` up to the queue. -/
def toQueue (s : Tty) (c : BitVec 16) : Option (Tty × Option Byte) := do
  let c : Byte := c.setWidth 8
  let s ← (if s.has TANDEM then s.ttyblock else some s)
  let (s, c) ← (if s.has RAW then some (s, some c) else s.inputCtl (c &&& 0o177))
  match c with
  | none => return (s, none)
  | some c =>
    if s.cc .rawq > (ttyhog : Int) then
      let s ← s.flushtty
      return (s, none)
    else return (s, some (if s.has LCASE ∧ 0o101 ≤ c ∧ c ≤ 0o132 then c + 0o40 else c))

/-- A character that ends a line. -/
def endsLine (s : Tty) (c : Byte) : Bool :=
  c = 0o12 || isChar c s.tun.eofc || isChar c s.tun.brkc

/-- `ttyinput` from where the character is put on the queue. -/
def enqueue (s : Tty) (c : Byte) : Tty :=
  let s := { s with lists := (s.lists.putc c .rawq).2 }
  if s.cooked ∧ s.endsLine c then
    match s.lists.putc delim .rawq with
    | (r, lists) =>
      let s := { s with lists := lists }
      if r = 0 then { s with delct := s.delct + 1 } else s
  else s

def echo (s : Tty) (c : Byte) : Option Tty :=
  if s.has ECHO then
    let s := s.ttyoutput c
    let s := if isChar c s.kill ∧ s.cooked then s.ttyoutput 0o12 else s
    s.ttstart
  else some s

def ttyinput (s : Tty) (c : BitVec 16) : Option Tty := do
  let (s, c) ← s.toQueue c
  match c with
  | none => return s
  | some c => (s.enqueue c).echo c

/-! ## `canon` -/

/-- The condition of the wait. -/
def mustWait (s : Tty) : Bool :=
  s.cooked && s.delct = 0 || !s.cooked && s.cc .rawq = 0

/-- `getc` in the loop. -/
def canonGet (s : Tty) (r : Canon) : Option Tty := do
  let (c, lists) ← s.lists.getc .rawq
  let s := { s with lists := lists }
  if c < 0 then return { s with canon := some { r with ended := true } }
  else
    let c : Byte := BitVec.ofInt 8 c
    return { s with canon := some { r with c := some c, took := r.took ++ [c] } }

/-- The end of the body of the loop. -/
def push (r : Canon) (c : Byte) : Canon :=
  let buf := c :: r.buf
  { r with buf := buf, c := none, ended := buf.length + 2 ≥ canbsiz }

/-- A character that follows `\`. -/
def mapped (past : Nat → Byte) (s : Tty) (r : Canon) (c : Byte) : Canon :=
  let mc : Int := (maptab[c.toNat]?.getD (past c.toNat)).toInt
  let mc : Int := if isChar c s.erase ∨ isChar c s.kill then c.toNat else mc
  if mc ≠ 0 ∧ (mc = c.toNat ∨ s.has LCASE) then
    let c := if r.buf.tail.headD 0 ≠ backslash then BitVec.ofInt 8 mc else c
    push { r with buf := r.buf.tail } c
  else push r c

/-- The rest of the body. -/
def canonChar (past : Nat → Byte) (s : Tty) (r : Canon) (c : Byte) : Tty :=
  if s.cooked then
    if c = delim then
      { s with
        delct := s.delct - 1
        canon := some { r with c := none, ended := true } }
    else
      let r : Canon :=
        if r.buf.headD 0 ≠ backslash then
          if isChar c s.erase then { r with buf := r.buf.tail, c := none }
          else if isChar c s.kill then { r with buf := [], c := none }
          else if isChar c s.tun.eofc then { r with c := none }
          else push r c
        else s.mapped past r c
      { s with canon := some r }
  else { s with canon := some (push r c) }

/-- `canon` after the loop. -/
def canonEnd (s : Tty) (r : Canon) : Option Tty :=
  let s := { s with
    lists := (s.lists.bToQ r.buf.reverse .canq).2
    canon := none }
  if s.is TBLOCK ∧ s.cc .rawq < ((ttyhog / 5 : Nat) : Int) then
    s.signalLine s.tun.startc fun s => s.clear TBLOCK
  else some s

/-! ## Steps -/

/-- What a call of `read` does first. -/
inductive Out where
  | none
  | sleep
  | got (n : Nat)
  deriving DecidableEq

inductive Act where
  | ttyinput (c : BitVec 16)
  | klxint
  | ttrstrt
  | other (n : Nat) (c : Option Byte)
  | getc
  | char
  | finish
  | ttread
  | canonWait
  | passc
  | ttyoutput (c : Byte)
  | flushtty
  | wflushtty
  | setp (erase kill : Byte) (flags : BitVec 16)
  | setn (erase kill : Byte) (flags : BitVec 16)
  | setc (tun : Tc)
  | klopen
  | klclose

/-- The step of a process, other than one of `canon`. -/
def Act.byProcess : Act → Bool
  | .ttyinput _ => false
  | .klxint => false
  | .ttrstrt => false
  | .other _ _ => false
  | .getc => false
  | .char => false
  | .finish => false
  | _ => true

/-- `TIOCSETN`, when the arguments could be read. -/
def setn (s : Tty) (erase kill : Byte) (flags : BitVec 16) : Tty :=
  { s with
    erase := erase
    kill := kill
    flags := flags }

/-- `wflushtty`, and then `f`; while there is output it is started, and the process sleeps. -/
def wflushtty (s : Tty) (f : Tty → Tty) : Option (Tty × Out) :=
  if s.cc .outq ≠ 0 ∧ s.is CARRON then s.klstart.map (·, .sleep)
  else s.flushtty.map fun s => (f s, .none)

/-- `ttychars`. -/
def ttychars (s : Tty) : Tty :=
  { s with
    tun := ⟨0o177, 0o34, 0o21, 0o23, 0o4, 0o377⟩
    erase := 0o43
    kill := 0o100 }

/-- `klopen`, with `ttyopen`. -/
def klopen (s : Tty) : Tty :=
  let s := if s.is ISOPEN then s
    else ttychars { s with
      state := ISOPEN ||| CARRON
      flags := EVENP ||| LCASE ||| ECHO ||| XTABS ||| CRMOD ||| CR2 }
  (s.clear WOPEN).set ISOPEN

/-- `canon` up to its loop. A process that has slept does this again. -/
def canonWait (s : Tty) : Tty × Out :=
  if s.mustWait then
    if ¬s.is CARRON ∨ s.chan then (s, .got 0) else (s, .sleep)
  else ({ s with canon := some ⟨[], none, false, [], false⟩ }, .none)

/-- `ttread` up to the loop of `canon`. -/
def ttread (s : Tty) : Tty × Out :=
  if ¬s.is CARRON then (s, .got 0)
  else if s.cc .canq ≠ 0 then (s, .none)
  else s.canonWait

def act (past : Nat → Byte) (s : Tty) : Act → Option (Tty × Out)
  | .ttyinput c => (s.ttyinput c).map (·, .none)
  | .klxint => ttstart { s with done := true } |>.map (·, .none)
  | .ttrstrt => (s.clear TIMEOUT).ttstart.map (·, .none)
  | .other n (some c) => some ({ s with lists := (s.lists.putc c (.other n)).2 }, .none)
  | .other n none => do
    let (_, lists) ← s.lists.getc (.other n)
    return ({ s with lists := lists }, .none)
  | .getc =>
    match s.canon with
    | some r => if r.c = none ∧ ¬r.ended then (s.canonGet r).map (·, .none) else none
    | none => none
  | .char =>
    match s.canon with
    | some r => r.c.map fun c => (s.canonChar past r c, .none)
    | none => none
  | .finish =>
    match s.canon with
    | some r =>
      if r.c = none ∧ r.ended then (s.canonEnd r).map (·, .got r.buf.length) else none
    | none => none
  | .ttread => some s.ttread
  | .canonWait => some s.canonWait
  | .passc => do
    let (_, lists) ← s.lists.getc .canq
    return ({ s with lists := lists }, .none)
  | .ttyoutput c => (s.ttyoutput c).ttstart.map (·, .none)
  | .flushtty => s.flushtty.map (·, .none)
  | .wflushtty => s.wflushtty id
  | .setp erase kill flags => s.wflushtty fun s => s.setn erase kill flags
  | .setn erase kill flags => some (s.setn erase kill flags, .none)
  | .setc tun => some ({ s with tun := tun }, .none)
  | .klopen => some (s.klopen, .none)
  | .klclose => s.wflushtty fun s => { s with state := 0 }

def step (past : Nat → Byte) (s : Tty) (a : Act) : Except Unit (Tty × Out) :=
  if a.byProcess ∧ s.canon.isSome then .error ()
  else
    match s.act past a with
    | none => .error ()
    | some r => .ok r

end Tty

end Venix.Kernel
