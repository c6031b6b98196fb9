/-
  The 8086 emulator: the helpers of `machos.h` the instructions are made of.

  The helpers communicate through the scratch members, as in the source: a value is put in
  `data`, `source` or `destination` and taken from there. `ea` returns `address`, which it has
  set, so `address = ea()` is `ea` here.
-/
import Venix.Sim86.Machine

namespace Venix.Sim86

/-! ## Scratch members -/

def setSegment (v : Int) : Act Unit := modScratch fun s => { s with segment := v }
def setData (v : DWord) : Act Unit := modScratch fun s => { s with data := v }
def setRemainder (v : Word) : Act Unit := modScratch fun s => { s with remainder := v }
def setSource (v : DWord) : Act Unit := modScratch fun s => { s with source := v }
def setDestination (v : DWord) : Act Unit := modScratch fun s => { s with destination := v }
def setAddress (v : Word) : Act Unit := modScratch fun s => { s with address := v }
def setSavedCS (v : Word) : Act Unit := modScratch fun s => { s with savedCS := v }
def setSavedIP (v : Word) : Act Unit := modScratch fun s => { s with savedIP := v }

def data : Act DWord := scratch (·.data)
def source : Act DWord := scratch (·.source)
def destination : Act DWord := scratch (·.destination)

def setWordSize (b : Bool) : Act Unit := modCore fun c => { c with wordSize := b }

/-- The sign bit of an operand. -/
def signBit (wordSize : Bool) : DWord := if wordSize then 0x8000 else 0x80

/-! ## Flags of a result -/

def setZF : Act Unit := do
  let c ← core
  let d ← data
  setFlag 0x40 (d &&& (if c.wordSize then 0xffff else 0xff) = 0)

def setSF : Act Unit := do
  let c ← core
  let d ← data
  setFlag 0x80 (d &&& signBit c.wordSize ≠ 0)

/-- The number of ones among the low `n` bits. -/
def ones (d : DWord) : Nat → Nat
  | 0 => 0
  | n + 1 => ones d n + (if d.getLsbD n then 1 else 0)

/-- The table of `setPF` is 4 where the low byte has an even number of ones, and 0 elsewhere. -/
def setPF : Act Unit := do
  let d ← data
  setFlag 4 (ones d 8 % 2 = 0)

def setPZS : Act Unit := do
  setPF
  setZF
  setSF

def clearCA : Act Unit := do
  setCF false
  setAF false

def setCA : Act Unit := do
  setCF true
  setAF true

def bitwise (value : Word) : Act Unit := do
  setData (value.zeroExtend 32)
  clearCA
  setOF false
  setPZS

def doAF : Act Unit := do
  let d ← data
  let s ← source
  let t ← destination
  setAF ((d ^^^ s ^^^ t) &&& 0x10 ≠ 0)

def doCF : Act Unit := do
  let c ← core
  let d ← data
  setCF (d &&& (if c.wordSize then 0x10000 else 0x100) ≠ 0)

def setCAPZS : Act Unit := do
  setPZS
  doAF
  doCF

def setOFAdd : Act Unit := do
  let c ← core
  let d ← data
  let s ← source
  let t ← destination
  setOF ((d ^^^ s) &&& (d ^^^ t) &&& signBit c.wordSize ≠ 0)

def setOFSub : Act Unit := do
  let c ← core
  let d ← data
  let s ← source
  let t ← destination
  setOF ((t ^^^ s) &&& (d ^^^ t) &&& signBit c.wordSize ≠ 0)

def setOFRotate : Act Unit := do
  let c ← core
  let d ← data
  let t ← destination
  setOF ((d ^^^ t) &&& signBit c.wordSize ≠ 0)

def add : Act Unit := do
  let t ← destination
  let s ← source
  setData (t + s)
  setCAPZS
  setOFAdd

def sub : Act Unit := do
  let t ← destination
  let s ← source
  setData (t - s)
  setCAPZS
  setOFSub

def test (d s : Word) : Act Unit := do
  setDestination (d.zeroExtend 32)
  setSource (s.zeroExtend 32)
  bitwise (d &&& s)

def addCarry : Act Unit := do
  let c ← core
  let s ← source
  setSource (s + if c.cf then 1 else 0)

/-- `doALUOperation`, for the operation in `aluOperation`. -/
def doALUOperation : Act Unit := do
  let c ← core
  match c.aluOperation with
  | 0 => add
  | 1 => do
    let t ← destination
    let s ← source
    bitwise ((t ||| s).truncate 16)
  | 2 => do
    addCarry
    add
  | 3 => do
    addCarry
    sub
  | 4 => do
    let t ← destination
    let s ← source
    test (t.truncate 16) (s.truncate 16)
  | 6 => do
    let t ← destination
    let s ← source
    bitwise ((t ^^^ s).truncate 16)
  | _ => sub

def setALUOperation (n : Nat) : Act Unit := modCore fun c => { c with aluOperation := n }

def increment : Act Unit := do
  let t ← destination
  let s ← source
  setData (t + s)
  setOFAdd

def decrement : Act Unit := do
  let t ← destination
  let s ← source
  setData (t - s)
  setOFSub

def incdec (isDec : Bool) : Act Word := do
  setSource 1
  branch isDec decrement increment
  doAF
  setPZS
  let d ← data
  pure (d.truncate 16)

/-! ## Operands -/

def signExtend (b : Byte) : Word := b.zeroExtend 16 + (if b < 0x80 then 0 else 0xff00)

def Scratch.modRMReg (s : Scratch) : Nat := ((s.modRM >>> 3) &&& 7).toNat

def modRMReg : Act Nat := scratch (·.modRMReg)

def getReg : Act Word := do
  let c ← core
  let r ← modRMReg
  if c.wordSize then reg r
  else do
    let b ← byteReg r
    pure (b.zeroExtend 16)

def setReg (value : Word) : Act Unit := do
  let c ← core
  let r ← modRMReg
  if c.wordSize then setRegister r value else setByteReg r (value.truncate 8)

def Core.accum (c : Core) : Word := if c.wordSize then c.ax else c.al.zeroExtend 16

def setAccum : Act Unit := do
  let c ← core
  let d ← data
  if c.wordSize then setRegister rAX (d.truncate 16) else setAL (d.truncate 8)

/-- The segment and the address the low bits of a modRM byte stand for. -/
def baseOf (c : Core) (modRM : Byte) : Int × Word :=
  match (modRM &&& 7).toNat with
  | 0 => (dSeg, c.bx + c.si)
  | 1 => (dSeg, c.bx + c.di)
  | 2 => (sSeg, c.bp + c.si)
  | 3 => (sSeg, c.bp + c.di)
  | 4 => (dSeg, c.si)
  | 5 => (dSeg, c.di)
  | 6 => (sSeg, c.bp)
  | _ => (dSeg, c.bx)

/-- Set the members an effective address is kept in. -/
def setEA (segment : Int) (address : Word) (useMemory : Bool) : Act Unit :=
  modScratch fun s => { s with segment := segment, address := address, useMemory := useMemory }

def ea : Act Word := do
  let modRM ← fetchByte
  modScratch fun s => { s with modRM := modRM }
  let c ← core
  let base := baseOf c modRM
  setEA base.1 base.2 true
  match (modRM &&& 0xc0).toNat with
  | 0x00 =>
    if modRM &&& 0xc7 = 6 then do
      let w ← fetchWord
      setEA dSeg w true
      pure w
    else pure base.2
  | 0x40 => do
    let b ← fetchByte
    setEA base.1 (base.2 + signExtend b) true
    pure (base.2 + signExtend b)
  | 0x80 => do
    let w ← fetchWord
    setEA base.1 (base.2 + w) true
    pure (base.2 + w)
  | _ => do
    setEA base.1 ((modRM &&& 7).zeroExtend 16) false
    pure ((modRM &&& 7).zeroExtend 16)

/-- `useMemory` and `address`: the operand `ea` has found, in memory or a register. -/
def operand : Act (Bool × Word) := scratch fun s => (s.useMemory, s.address)

def readEA2 : Act Word := do
  let c ← core
  let (useMemory, address) ← operand
  if useMemory then read address (-1)
  else if c.wordSize then reg address.toNat
  else do
    let b ← byteReg address.toNat
    pure (b.zeroExtend 16)

def readEA : Act Word := do
  let _ ← ea
  readEA2

def finishWriteEA (value : Word) : Act Unit := do
  let c ← core
  let (useMemory, address) ← operand
  if useMemory then write value address (-1)
  else if c.wordSize then setRegister address.toNat value
  else setByteReg address.toNat (value.truncate 8)

/-! ## Jumps and the stack -/

def doJump (newIP : Word) : Act Unit := modCore fun c => { c with ip := newIP }

def jumpShort (b : Byte) (jump : Bool) : Act Unit :=
  onlyIf jump (modCore fun c => { c with ip := c.ip + signExtend b })

def push (value : Word) : Act Unit := do
  let c ← core
  setRegister rSP (c.sp - 2)
  if ((c.sp - 2).toNat : Int) ≤ c.stackLow then runtimeError "Stack overflow"
  else writeWord value (c.sp - 2) sSeg

def pop : Act Word := do
  let c ← core
  let r ← readWord c.sp sSeg
  let c ← core
  setRegister rSP (c.sp + 2)
  pure r

def call (address : Word) : Act Unit := do
  let c ← core
  push c.ip
  doJump address

def farLoad : Act Unit := do
  let (useMemory, address) ← operand
  if useMemory then do
    let i ← readWord address (-1)
    setSavedIP i
    let s ← readWord (address + 2) (-1)
    setSavedCS s
  else runtimeError "This instruction needs a memory address"

def farJump : Act Unit := do
  let s ← scratch (·.savedCS)
  setRegister rCS s
  let i ← scratch (·.savedIP)
  doJump i

def farCall : Act Unit := do
  let c ← core
  push c.cs
  let c ← core
  push c.ip
  farJump

/-! ## Division -/

def divideOverflow {α : Type} : Act α := runtimeError "Divide overflow"

/-- A division that makes both operands positive first where it is signed, and the signs of
its results: of the quotient and of the remainder. -/
def divSigns (signed : Bool) (destination source : DWord) : DWord × DWord × Bool × Bool :=
  let dividendNegative := signed && destination &&& 0x80000000 ≠ 0
  let divisorNegative := signed && source &&& 0x8000 ≠ 0
  (if dividendNegative then -destination else destination,
    if divisorNegative then -source &&& 0xffff else source,
    dividendNegative != divisorNegative, dividendNegative)

/-- `data` and `product` of a division, after the correction of the rounding. -/
def quotient (destination source : DWord) : DWord × DWord :=
  let data := destination / source
  let product := data * source
  if product > destination then (data - 1, product - source) else (data, product)

def div : Act Unit := do
  let r ← modRMReg
  let t ← destination
  let s ← source
  let (t, s, negative, dividendNegative) := divSigns (r = 7) t s
  setDestination t
  setSource s
  let (d, product) := quotient t s
  let rest : Word := (t - product).truncate 16
  setData (if negative then -d else d)
  setRemainder (if dividendNegative then -rest else rest)

/-! ## String instructions -/

def stringIncrement (c : Core) : Word :=
  let r : Word := if c.wordSize then 2 else 1
  if c.df then -r else r

def lodS : Act Word := do
  let c ← core
  setAddress c.si
  setRegister rSI (c.si + stringIncrement c)
  setSegment dSeg
  read c.si (-1)

def lodDIS : Act Word := do
  let c ← core
  setAddress c.di
  setRegister rDI (c.di + stringIncrement c)
  read c.di eSeg

def stoS (data : Word) : Act Unit := do
  let c ← core
  setAddress c.di
  setRegister rDI (c.di + stringIncrement c)
  write data c.di eSeg

def setCX (v : Word) : Act Unit := setRegister rCX v

def setRepeating (b : Bool) : Act Unit := modCore fun c => { c with repeating := b }

def doRep (compare : Bool) : Act Unit := do
  let c ← core
  if c.rep = 1 ∧ !compare then
    runtimeError "REPNE prefix with non-compare string instruction"
  else if c.rep = 0 ∨ c.cx = 0 then pure ()
  else do
    setCX (c.cx - 1)
    let c ← core
    setRepeating (c.cx != 0 && (!compare || c.zf != (c.rep == 1)))

end Venix.Sim86
