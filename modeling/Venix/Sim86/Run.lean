/-
  The 8086 emulator: the instructions and the loop of `run` in `86sim.cc`.

  `decode` follows the case labels of the `switch`; `execute` has one case for each of its
  branches. `step` is one round of the loop: a repeated string instruction takes one round
  for each time it is carried out, and a prefix is a round of its own.

  The virtual functions of the operating system are parameters: `startOfInstruction` is called
  before an opcode is fetched, and `intCd` is INT.
-/
import Venix.Sim86.Helpers

namespace Venix.Sim86

structure Hooks where
  startOfInstruction : Act Unit
  intCd : Act Unit

inductive Instr where
  | aluRmR | aluAccumI | pushSeg | popSeg | segPrefix | da | aa | incdecRw | pushRw | popRw
  | escape | invalid | jcond | aluRmI | testRmR | xchgRmR | movRmR | movRRm | movRmSeg | lea
  | movSegRm | popRm | xchgAx | cbw | cwd | callFar | wait | pushf | popf | sahf | lahf
  | movAccumX | movXAccum | movs | cmps | testAccumI | stos | lods | scas | movRb | movRw | ret
  | lesLds | movRmI | int | iret | rot | aam | aad | salc | xlatb | loop | jcxz | callNear
  | jmpNear | jmpFar | jmpShort | rep | cmc | math | stcClc | stiCli | stdCld | misc
  deriving DecidableEq

/-- The branch of the `switch` an opcode is a case of. -/
def decode (opcode : Byte) : Instr :=
  let op := opcode.toNat
  if op < 0x40 then
    match op % 8 with
    | 0 | 1 | 2 | 3 => .aluRmR
    | 4 | 5 => .aluAccumI
    | 6 => if op < 0x20 then .pushSeg else .segPrefix
    | _ => if op = 0x0f then .invalid else if op < 0x20 then .popSeg
           else if op < 0x30 then .da else .aa
  else if op < 0x50 then .incdecRw
  else if op < 0x58 then .pushRw
  else if op < 0x60 then .popRw
  else if op < 0x70 then .invalid
  else if op < 0x80 then .jcond
  else if op < 0x84 then .aluRmI
  else if op < 0x86 then .testRmR
  else if op < 0x88 then .xchgRmR
  else if op < 0x8a then .movRmR
  else if op < 0x8c then .movRRm
  else if op = 0x8c then .movRmSeg
  else if op = 0x8d then .lea
  else if op = 0x8e then .movSegRm
  else if op = 0x8f then .popRm
  else if op < 0x98 then .xchgAx
  else if op = 0x98 then .cbw
  else if op = 0x99 then .cwd
  else if op = 0x9a then .callFar
  else if op = 0x9b then .wait
  else if op = 0x9c then .pushf
  else if op = 0x9d then .popf
  else if op = 0x9e then .sahf
  else if op = 0x9f then .lahf
  else if op < 0xa2 then .movAccumX
  else if op < 0xa4 then .movXAccum
  else if op < 0xa6 then .movs
  else if op < 0xa8 then .cmps
  else if op < 0xaa then .testAccumI
  else if op < 0xac then .stos
  else if op < 0xae then .lods
  else if op < 0xb0 then .scas
  else if op < 0xb8 then .movRb
  else if op < 0xc0 then .movRw
  else if op < 0xc2 then .invalid
  else if op < 0xc4 then .ret
  else if op < 0xc6 then .lesLds
  else if op < 0xc8 then .movRmI
  else if op < 0xca then .invalid
  else if op < 0xcc then .ret
  else if op = 0xcc then .invalid
  else if op = 0xcd then .int
  else if op = 0xce then .invalid
  else if op = 0xcf then .iret
  else if op < 0xd4 then .rot
  else if op = 0xd4 then .aam
  else if op = 0xd5 then .aad
  else if op = 0xd6 then .salc
  else if op = 0xd7 then .xlatb
  else if op < 0xe0 then .escape
  else if op < 0xe3 then .loop
  else if op = 0xe3 then .jcxz
  else if op < 0xe8 then .invalid
  else if op = 0xe8 then .callNear
  else if op = 0xe9 then .jmpNear
  else if op = 0xea then .jmpFar
  else if op = 0xeb then .jmpShort
  else if op < 0xf2 then .invalid
  else if op < 0xf4 then .rep
  else if op = 0xf4 then .invalid
  else if op = 0xf5 then .cmc
  else if op < 0xf8 then .math
  else if op < 0xfa then .stcClc
  else if op < 0xfc then .stiCli
  else if op < 0xfe then .stdCld
  else .misc

/-! ## The fields of an opcode -/

/-- `operation`, the middle three bits of an opcode. -/
def operation (op : Byte) : Nat := ((op >>> 3) &&& 7).toNat

def sourceIsRM (op : Byte) : Bool := op &&& 2 ≠ 0

/-- `opcode & 7`. -/
def lowBits (op : Byte) : Nat := (op &&& 7).toNat

def rw (op : Byte) : Act Word := reg (lowBits op)

def setRW (op : Byte) (v : Word) : Act Unit := setRegister (lowBits op) v

def setAX (v : Word) : Act Unit := setRegister rAX v
def setDX (v : Word) : Act Unit := setRegister rDX v
def setFlags (v : Word) : Act Unit := modCore fun c => { c with flags := v }

/-! ## Arithmetic and logic -/

/-- Put the operands of `alu rmv,rmv` where `doALUOperation` takes them from. -/
def aluOperands (op : Byte) : Act Unit := do
  let d ← data
  let r ← getReg
  branch (!sourceIsRM op)
    (do setDestination d; setSource (r.zeroExtend 32))
    (do setDestination (r.zeroExtend 32); setSource d)

/-- Store `data` unless the operation is a comparison. -/
def storeUnlessCompare (store : Word → Act Unit) : Act Unit := do
  let c ← core
  let d ← data
  onlyIf (c.aluOperation ≠ 7) (store (d.truncate 16))

def aluRmR (op : Byte) : Act Unit := do
  let v ← readEA
  setData (v.zeroExtend 32)
  aluOperands op
  setALUOperation (operation op)
  doALUOperation
  storeUnlessCompare (if sourceIsRM op then setReg else finishWriteEA)

def aluAccumI (op : Byte) : Act Unit := do
  let c ← core
  setDestination (c.accum.zeroExtend 32)
  let v ← fetch c.wordSize
  setSource (v.zeroExtend 32)
  setALUOperation (operation op)
  doALUOperation
  storeUnlessCompare fun _ => setAccum

def aluRmI (op : Byte) : Act Unit := do
  let t ← readEA
  setDestination (t.zeroExtend 32)
  let v ← fetch (op = 0x81)
  setData (v.zeroExtend 32)
  setSource (if op = 0x83 then (signExtend (v.truncate 8)).zeroExtend 32 else v.zeroExtend 32)
  let r ← modRMReg
  setALUOperation r
  doALUOperation
  storeUnlessCompare finishWriteEA

/-- DAA and DAS. -/
def da (op : Byte) : Act Unit := do
  let c ← core
  onlyIf (c.af || (c.al &&& 0x0f) > 9) do
    let d : DWord := c.al.zeroExtend 32 + (if op = 0x27 then 6 else -6)
    setData d
    setAL (d.truncate 8)
    setAF true
    onlyIf (d &&& 0x100 ≠ 0) (setCF true)
  let c ← core
  setCF (c.cf || c.al > 0x9f)
  let c ← core
  onlyIf c.cf (setAL (c.al + (if op = 0x27 then 0x60 else -0x60)))
  setWordSize false
  let c ← core
  setData (c.al.zeroExtend 32)
  setPZS

/-- AAA and AAS. -/
def aa (op : Byte) : Act Unit := do
  let c ← core
  branch (c.af || (c.al &&& 0xf) > 9)
    (do
      setAL (c.al + (if op = 0x37 then 6 else -6))
      setAH (c.ah + (if op = 0x37 then 1 else -1))
      setCA)
    clearCA
  let c ← core
  setAL (c.al &&& 0x0f)

def incdecRw (op : Byte) : Act Unit := do
  let v ← rw op
  setDestination (v.zeroExtend 32)
  setWordSize true
  let v ← incdec (op &&& 8 ≠ 0)
  setRW op v

def testRmR : Act Unit := do
  let v ← readEA
  setData (v.zeroExtend 32)
  let r ← getReg
  test v r

def testAccumI : Act Unit := do
  let c ← core
  let v ← fetch c.wordSize
  setData (v.zeroExtend 32)
  test c.accum v

def aam : Act Unit := do
  let b ← fetchByte
  setData (b.zeroExtend 32)
  let c ← core
  if b = 0 then divideOverflow
  else do
    setAH (c.al / b)
    setAL (c.al % b)
    setWordSize true
    setPZS

def aad : Act Unit := do
  let b ← fetchByte
  setData (b.zeroExtend 32)
  let c ← core
  setAL (c.al + c.ah * b)
  setAH 0
  setPZS

/-- The bit a rotation to the right puts in at the top. -/
def topBit (wordSize : Bool) (b : Bool) : DWord := if b then signBit wordSize else 0

/-- One turn of the loop of the rotations, which are told apart by `r`. -/
def rotateOnce (r : Nat) : Act Unit := do
  let d ← data
  setDestination d
  let c ← core
  match r with
  | 0 => do
    setData (d <<< 1)
    doCF
    let c ← core
    setData (d <<< 1 ||| (if c.cf then 1 else 0))
    setOFRotate
  | 1 => do
    setCF (d &&& 1 ≠ 0)
    setData (d >>> 1 ||| topBit c.wordSize (d &&& 1 ≠ 0))
    setOFRotate
  | 2 => do
    setData (d <<< 1 ||| (if c.cf then 1 else 0))
    doCF
    setOFRotate
  | 3 => do
    setData (d >>> 1 ||| topBit c.wordSize c.cf)
    setCF (d &&& 1 ≠ 0)
    setOFRotate
  | 5 => do
    setCF (d &&& 1 ≠ 0)
    setData (d >>> 1)
    setOFRotate
    setAF true
    setPZS
  | 7 => do
    setCF (d &&& 1 ≠ 0)
    setData (d >>> 1 ||| (d &&& signBit c.wordSize))
    setOFRotate
    setAF true
    setPZS
  | _ => do
    setData (d <<< 1)
    doCF
    setOFRotate
    setPZS

/-- `while (source != 0)`, for `source` equal to the argument. -/
def rotateLoop : Nat → Act Unit
  | 0 => pure ()
  | n + 1 => do
    let r ← modRMReg
    rotateOnce r
    let s ← source
    setSource (s - 1)
    rotateLoop n

def rot (op : Byte) : Act Unit := do
  let v ← readEA
  setData (v.zeroExtend 32)
  let c ← core
  setSource (if op &&& 2 = 0 then 1 else c.cl.zeroExtend 32)
  let s ← source
  rotateLoop s.toNat
  let d ← data
  finishWriteEA (d.truncate 16)

/-- MUL and IMUL of bytes, after the product is in AX. -/
def mulByte (r : Nat) : Act Unit := do
  let c ← core
  let s ← source
  let t ← destination
  if r = 4 then setCF (c.ah ≠ 0)
  else do
    onlyIf (s &&& 0x80 ≠ 0) (setAH (c.ah - t.truncate 8))
    let c ← core
    onlyIf (t &&& 0x80 ≠ 0) (setAH (c.ah - s.truncate 8))
    let c ← core
    setCF (c.ah = if c.al &&& 0x80 = 0 then 0 else 0xff)

/-- MUL and IMUL of words, after the low half of the product is in AX. -/
def mulWord (r : Nat) : Act Unit := do
  let d ← data
  let s ← source
  let t ← destination
  setDX ((d >>> 16).truncate 16)
  let c ← core
  if r = 4 then do
    setData (d ||| c.dx.zeroExtend 32)
    setCF (c.dx ≠ 0)
  else do
    onlyIf (s &&& 0x8000 ≠ 0) (setDX (c.dx - t.truncate 16))
    let c ← core
    onlyIf (t &&& 0x8000 ≠ 0) (setDX (c.dx - s.truncate 16))
    let c ← core
    setData (d ||| c.dx.zeroExtend 32)
    setCF (c.dx = if c.ax &&& 0x8000 = 0 then 0 else 0xffff)

def mul (r : Nat) : Act Unit := do
  let d ← data
  setSource d
  let c ← core
  setDestination (c.accum.zeroExtend 32)
  setData (c.accum.zeroExtend 32)
  setSF
  setPF
  setData (c.accum.zeroExtend 32 * d)
  setAX ((c.accum.zeroExtend 32 * d).truncate 16)
  branch c.wordSize (mulWord r) (mulByte r)
  setZF
  let c ← core
  setOF c.cf

/-- `source` and `destination` of a division of a word by a byte. -/
def divByteOperands (r : Nat) : Act Unit := do
  let c ← core
  let s ← source
  let t : DWord := c.ax.zeroExtend 32
  setDestination (if r ≠ 6 ∧ t &&& 0x8000 ≠ 0 then t ||| 0xffff0000 else t)
  setSource (if r = 6 then s else (signExtend (s.truncate 8)).zeroExtend 32)

def divByte (r : Nat) : Act Unit := do
  divByteOperands r
  div
  let d ← data
  let rest ← scratch (·.remainder)
  if (if r = 6 then d > 0xff else d > 0x7f ∧ d < 0xffffff80) then divideOverflow
  else do
    setAH (rest.truncate 8)
    setAL (d.truncate 8)

def divWord (r : Nat) : Act Unit := do
  let c ← core
  setDestination ((c.dx.zeroExtend 32 <<< 16) + c.ax.zeroExtend 32)
  div
  let d ← data
  let rest ← scratch (·.remainder)
  if (if r = 6 then d > 0xffff else d > 0x7fff ∧ d < 0xffff8000) then divideOverflow
  else do
    setDX rest
    setAX (d.truncate 16)

def division (r : Nat) : Act Unit := do
  let d ← data
  setSource d
  let c ← core
  if d = 0 then divideOverflow
  else branch c.wordSize (divWord r) (divByte r)

def neg : Act Unit := do
  let d ← data
  setSource d
  setDestination 0
  sub
  let d ← data
  finishWriteEA (d.truncate 16)

/-- `math rmv`. -/
def math : Act Unit := do
  let v ← readEA
  setData (v.zeroExtend 32)
  let r ← modRMReg
  match r with
  | 0 | 1 => do
    let c ← core
    let w ← fetch c.wordSize
    test v w
  | 2 => finishWriteEA (~~~v)
  | 3 => neg
  | 4 | 5 => mul r
  | _ => division r

/-! ## Moves -/

def pushSeg (op : Byte) : Act Unit := do
  let v ← reg (operation op + 8)
  push v

def popSeg (op : Byte) : Act Unit := do
  let v ← pop
  setRegister (operation op + 8) v

def pushRw (op : Byte) : Act Unit := do
  let v ← rw op
  push v

def popRw (op : Byte) : Act Unit := do
  let v ← pop
  setRW op v

def escape : Act Unit := do
  let v ← readEA
  setData (v.zeroExtend 32)

def xchgRmR : Act Unit := do
  let v ← readEA
  setData (v.zeroExtend 32)
  let r ← getReg
  finishWriteEA r
  setReg v

def movRmR : Act Unit := do
  let _ ← ea
  let r ← getReg
  finishWriteEA r

def movRRm : Act Unit := do
  let v ← readEA
  setReg v

/-- MOV rmw,segreg after the operand is found. -/
def storeSegReg : Act Unit := do
  setWordSize true
  let r ← modRMReg
  let v ← reg (r + 8)
  finishWriteEA v

/-- MOV rmw,segreg. -/
def movRmSeg : Act Unit := do
  let _ ← ea
  storeSegReg

/-- MOV segreg,rmw after the operand is read. -/
def loadSegReg (v : Word) : Act Unit := do
  setData (v.zeroExtend 32)
  let r ← modRMReg
  setRegister (r + 8) v

/-- MOV segreg,rmw. -/
def movSegRm : Act Unit := do
  setWordSize true
  let v ← readEA
  loadSegReg v

def lea : Act Unit := do
  let address ← ea
  let (useMemory, _) ← operand
  if useMemory then setReg address else runtimeError "LEA needs a memory address"

def popRm : Act Unit := do
  let v ← pop
  let _ ← ea
  finishWriteEA v

def xchgAx (op : Byte) : Act Unit := do
  let c ← core
  setData (c.ax.zeroExtend 32)
  let v ← rw op
  setAX v
  setRW op c.ax

def cbw : Act Unit := do
  let c ← core
  setAX (signExtend c.al)

def cwd : Act Unit := do
  let c ← core
  setDX (if c.ax &&& 0x8000 = 0 then 0 else 0xffff)

def pushf : Act Unit := do
  let c ← core
  push (c.flags &&& 0x0fd7 ||| 0xf000)

def popf : Act Unit := do
  let v ← pop
  setFlags (v ||| 2)

def sahf : Act Unit := modCore fun c => { c with flags := c.flags &&& 0xff02 ||| c.ah.zeroExtend 16 }

def lahf : Act Unit := do
  let c ← core
  setAH ((c.flags &&& 0xd7).truncate 8)

def movAccumX : Act Unit := do
  setSegment dSeg
  let w ← fetchWord
  let v ← read w (-1)
  setData (v.zeroExtend 32)
  setAccum

def movXAccum : Act Unit := do
  setSegment dSeg
  let w ← fetchWord
  let c ← core
  write c.accum w (-1)

def movRb (op : Byte) : Act Unit := do
  let b ← fetchByte
  setByteReg (lowBits op) b

def movRw (op : Byte) : Act Unit := do
  let w ← fetchWord
  setRW op w

def lesLds : Act Unit := do
  let _ ← ea
  farLoad
  let r ← modRMReg
  let i ← scratch (·.savedIP)
  setRegister r i
  let c ← core
  let s ← scratch (·.savedCS)
  setRegister (firstS + (if c.wordSize then 3 else 0)) s

def movRmI : Act Unit := do
  let _ ← ea
  let c ← core
  let v ← fetch c.wordSize
  finishWriteEA v

def salc : Act Unit := do
  let c ← core
  setAL (if c.cf then 0xff else 0)

def xlatb : Act Unit := do
  let c ← core
  let b ← readByte (c.bx + c.al.zeroExtend 16) (-1)
  setAL b

def cmc : Act Unit := modCore fun c => { c with flags := c.flags ^^^ 1 }

/-! ## Jumps -/

/-- The condition of a conditional jump. -/
def jumpCondition (c : Core) (op : Byte) : Bool :=
  match (op &&& 0x0e).toNat with
  | 0x00 => c.of
  | 0x02 => c.cf
  | 0x04 => c.zf
  | 0x06 => c.cf || c.zf
  | 0x08 => c.sf
  | 0x0a => c.pf
  | 0x0c => c.sf != c.of
  | _ => c.sf != c.of || c.zf

def jcond (op : Byte) : Act Unit := do
  let c ← core
  let b ← fetchByte
  jumpShort b (jumpCondition c op == decide (op &&& 1 = 0))

/-- LOOPNE, LOOPE and LOOP. -/
def loop (op : Byte) : Act Unit := do
  let c ← core
  setCX (c.cx - 1)
  let c ← core
  let b ← fetchByte
  jumpShort b (c.cx ≠ 0 && !(op = 0xe0 && c.zf) && !(op = 0xe1 && !c.zf))

def jcxz : Act Unit := do
  let c ← core
  let b ← fetchByte
  jumpShort b (c.cx = 0)

def fetchFar : Act Unit := do
  let i ← fetchWord
  setSavedIP i
  let s ← fetchWord
  setSavedCS s

def callFar : Act Unit := do
  fetchFar
  farCall

def jmpFar : Act Unit := do
  fetchFar
  farJump

def callNear : Act Unit := do
  let w ← fetchWord
  setData (w.zeroExtend 32)
  let c ← core
  call (c.ip + w)

def jmpNear : Act Unit := do
  let t ← fetchWord
  let c ← core
  doJump (c.ip + t)

def jmpShort : Act Unit := do
  let b ← fetchByte
  jumpShort b true

/-- `savedCS` of RET: popped where the return is far. -/
def retCS (op : Byte) : Act Word := if op &&& 8 = 0 then (fun c => c.cs) <$> core else pop

def ret (op : Byte) : Act Unit := do
  let i ← pop
  setSavedIP i
  let s ← retCS op
  setSavedCS s
  let c ← core
  onlyIf (!c.wordSize) do
    let w ← fetchWord
    let c ← core
    setRegister rSP (c.sp + w)
  farJump

def iret : Act Unit := do
  let i ← pop
  doJump i
  let s ← pop
  setRegister rCS s
  let f ← pop
  setFlags (f ||| 2)

/-- The instructions of 0xfe and 0xff, told apart by `r`. -/
def miscOperation (r : Nat) : Act Unit :=
  match r with
  | 0 | 1 => do
    let v ← readEA2
    setDestination (v.zeroExtend 32)
    let v ← incdec (r ≠ 0)
    finishWriteEA v
  | 2 => do
    let v ← readEA2
    call v
  | 3 => do
    farLoad
    farCall
  | 4 => do
    let v ← readEA2
    doJump v
  | 5 => do
    farLoad
    farJump
  | _ => do
    let v ← readEA2
    push v

def misc : Act Unit := do
  let _ ← ea
  let c ← core
  let r ← modRMReg
  if (!c.wordSize ∧ 2 ≤ r ∧ r ≤ 6) ∨ r = 7 then runtimeError "" else miscOperation r

/-! ## String instructions and prefixes -/

def movsOnce : Act Unit := do
  let v ← lodS
  stoS v

def cmpsOnce : Act Unit := do
  let d ← lodS
  setDestination (d.zeroExtend 32)
  let s ← lodDIS
  setSource (s.zeroExtend 32)
  sub

def stosOnce : Act Unit := do
  let c ← core
  stoS c.accum

def lodsOnce : Act Unit := do
  let v ← lodS
  setData (v.zeroExtend 32)
  setAccum

def scasOnce : Act Unit := do
  let c ← core
  setDestination (c.accum.zeroExtend 32)
  let s ← lodDIS
  setSource (s.zeroExtend 32)
  sub

/-- A string instruction that does `once`, unless it is to be repeated zero times. -/
def stringInstr (once : Act Unit) (compare : Bool) : Act Unit := do
  let c ← core
  onlyIf (c.rep = 0 || c.cx ≠ 0) once
  doRep compare

def segPrefix (op : Byte) : Act Unit :=
  modCore fun c => { c with segmentOverride := operation op - 4, prefixed := true }

def repPrefix (op : Byte) : Act Unit :=
  modCore fun c => { c with rep := if op = 0xf2 then 1 else 2, prefixed := true }

/-! ## The loop -/

def execute (h : Hooks) (op : Byte) : Act Unit :=
  match decode op with
  | .aluRmR => aluRmR op
  | .aluAccumI => aluAccumI op
  | .pushSeg => pushSeg op
  | .popSeg => popSeg op
  | .segPrefix => segPrefix op
  | .da => da op
  | .aa => aa op
  | .incdecRw => incdecRw op
  | .pushRw => pushRw op
  | .popRw => popRw op
  | .escape => escape
  | .invalid => runtimeError ""
  | .jcond => jcond op
  | .aluRmI => aluRmI op
  | .testRmR => testRmR
  | .xchgRmR => xchgRmR
  | .movRmR => movRmR
  | .movRRm => movRRm
  | .movRmSeg => movRmSeg
  | .lea => lea
  | .movSegRm => movSegRm
  | .popRm => popRm
  | .xchgAx => xchgAx op
  | .cbw => cbw
  | .cwd => cwd
  | .callFar => callFar
  | .wait => pure ()
  | .pushf => pushf
  | .popf => popf
  | .sahf => sahf
  | .lahf => lahf
  | .movAccumX => movAccumX
  | .movXAccum => movXAccum
  | .movs => stringInstr movsOnce false
  | .cmps => stringInstr cmpsOnce true
  | .testAccumI => testAccumI
  | .stos => stringInstr stosOnce false
  | .lods => stringInstr lodsOnce false
  | .scas => stringInstr scasOnce true
  | .movRb => movRb op
  | .movRw => movRw op
  | .ret => ret op
  | .lesLds => lesLds
  | .movRmI => movRmI
  | .int => h.intCd
  | .iret => iret
  | .rot => rot op
  | .aam => aam
  | .aad => aad
  | .salc => salc
  | .xlatb => xlatb
  | .loop => loop op
  | .jcxz => jcxz
  | .callNear => callNear
  | .jmpNear => jmpNear
  | .jmpFar => jmpFar
  | .jmpShort => jmpShort
  | .rep => repPrefix op
  | .cmc => cmc
  | .math => math
  | .stcClc => do
    let c ← core
    setCF c.wordSize
  | .stiCli => do
    let c ← core
    setFlag 0x200 c.wordSize
  | .stdCld => do
    let c ← core
    setFlag 0x400 c.wordSize
  | .misc => misc

/-- What comes before the fetch of an opcode: the prefixes of the last instruction are taken
back, unless it was a prefix itself. -/
def Core.clearPrefix (c : Core) : Core :=
  if c.prefixed then { c with prefixed := false } else { c with segmentOverride := -1, rep := 0 }

def fetchOpcode (h : Hooks) : Act Unit := do
  modCore Core.clearPrefix
  h.startOfInstruction
  let b ← fetchByte
  modCore fun c => { c with opcode := b }

def isString (op : Byte) : Bool := 0xa4 ≤ op && op < 0xb0 && op ≠ 0xa8 && op ≠ 0xa9

/-- A round of the loop, after the opcode is there. -/
def dispatch (h : Hooks) : Act Unit := do
  let c ← core
  if c.rep ≠ 0 ∧ !isString c.opcode then runtimeError "REP prefix with non-string instruction"
  else do
    setWordSize (c.opcode &&& 1 ≠ 0)
    execute h c.opcode

/-- One round of the loop of `run`. -/
def step (h : Hooks) : Act Unit := do
  let c ← core
  onlyIf (!c.repeating) (fetchOpcode h)
  dispatch h

end Venix.Sim86
