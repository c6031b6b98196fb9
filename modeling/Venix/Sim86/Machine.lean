/-
  The 8086 emulator: its state, registers and memory (class `MachineOS` of `machos.h`).

  `Core` is the machine and the state of the emulator that goes from one instruction to the
  next; `Scratch` are the members the helper functions pass values in. An index into an array
  is checked here: one that is out of range is the fault `outOfBounds`, where the source reads
  or writes next to the array. `runtimeError` ends the program, as `exit` in the operating
  system's part does.

  `ios` is an `int`; its overflow wraps. The host is little endian, so a byte register is the
  low or the high byte of one of the first four word registers. `prefixed` is the variable
  `prefix` of `run`. The tracing function `o` is empty in the source and is left out.
-/
import Mathlib.Tactic

namespace Venix.Sim86

abbrev Byte := BitVec 8
abbrev Word := BitVec 16
abbrev DWord := BitVec 32

inductive Fault where
  | runtimeError (message : String)
  | exit (code : Nat)
  | outOfBounds
  deriving DecidableEq, Repr

structure Core where
  ram : Nat → Byte
  initialized : Nat → Byte
  wordSize : Bool
  flags : Word
  ip : Word
  loadSegment : Word
  registers : Nat → Word
  stackLow : Int
  ios : DWord
  segmentOverride : Int
  opcode : Byte
  aluOperation : Nat
  running : Bool
  rep : Nat
  repeating : Bool
  prefixed : Bool

structure Scratch where
  segment : Int
  data : DWord
  remainder : Word
  source : DWord
  destination : DWord
  modRM : Byte
  address : Word
  useMemory : Bool
  savedCS : Word
  savedIP : Word
  deriving DecidableEq

structure Machine extends Core, Scratch

/-- An action of the emulator. -/
abbrev Act := StateT Machine (Except Fault)

def core : Act Core := fun m => .ok (m.toCore, m)

def modCore (f : Core → Core) : Act Unit := fun m => .ok ((), { m with toCore := f m.toCore })

def scratch {α : Type} (f : Scratch → α) : Act α := fun m => .ok (f m.toScratch, m)

def modScratch (f : Scratch → Scratch) : Act Unit :=
  fun m => .ok ((), { m with toScratch := f m.toScratch })

def fault {α : Type} (e : Fault) : Act α := fun _ => .error e

def runtimeError {α : Type} (message : String) : Act α := fault (.runtimeError message)

/-- `x` where `c` holds. -/
def onlyIf (c : Bool) (x : Act Unit) : Act Unit := if c then x else pure ()

/-- `x` where `c` holds and `y` elsewhere. -/
def branch (c : Bool) (x y : Act Unit) : Act Unit := if c then x else y

/-! ## Registers -/

def rAX : Nat := 0
def rCX : Nat := 1
def rDX : Nat := 2
def rBX : Nat := 3
def rSP : Nat := 4
def rBP : Nat := 5
def rSI : Nat := 6
def rDI : Nat := 7
def rCS : Nat := 9

/-- `FirstS`: the first segment register. -/
def firstS : Nat := 8

def eSeg : Int := 0
def cSeg : Int := 1
def sSeg : Int := 2
def dSeg : Int := 3

/-- `registers[i]`. -/
def reg (i : Int) : Act Word := do
  let c ← core
  if 0 ≤ i ∧ i < 12 then pure (c.registers i.toNat) else fault .outOfBounds

/-- `registers[i] = v`. -/
def setRegister (i : Int) (v : Word) : Act Unit :=
  if 0 ≤ i ∧ i < 12 then
    modCore fun c => { c with registers := Function.update c.registers i.toNat v }
  else fault .outOfBounds

/-- The byte registers AL, CL, DL, BL, AH, CH, DH, BH of a register file. -/
def byteOf (registers : Nat → Word) (i : Nat) : Byte :=
  if i < 4 then (registers i).truncate 8 else (registers (i - 4) >>> 8).truncate 8

def withByte (registers : Nat → Word) (i : Nat) (v : Byte) : Nat → Word :=
  if i < 4 then
    Function.update registers i (registers i &&& 0xff00 ||| v.zeroExtend 16)
  else
    Function.update registers (i - 4) (registers (i - 4) &&& 0x00ff ||| v.zeroExtend 16 <<< 8)

/-- `*byteRegisters[i]`. -/
def byteReg (i : Nat) : Act Byte := do
  let c ← core
  if i < 8 then pure (byteOf c.registers i) else fault .outOfBounds

/-- `*byteRegisters[i] = v`. -/
def setByteReg (i : Nat) (v : Byte) : Act Unit :=
  if i < 8 then modCore fun c => { c with registers := withByte c.registers i v }
  else fault .outOfBounds

def Core.ax (c : Core) : Word := c.registers rAX
def Core.cx (c : Core) : Word := c.registers rCX
def Core.dx (c : Core) : Word := c.registers rDX
def Core.bx (c : Core) : Word := c.registers rBX
def Core.sp (c : Core) : Word := c.registers rSP
def Core.bp (c : Core) : Word := c.registers rBP
def Core.si (c : Core) : Word := c.registers rSI
def Core.di (c : Core) : Word := c.registers rDI
def Core.cs (c : Core) : Word := c.registers rCS
def Core.al (c : Core) : Byte := byteOf c.registers 0
def Core.cl (c : Core) : Byte := byteOf c.registers 1
def Core.ah (c : Core) : Byte := byteOf c.registers 4

def setAL (v : Byte) : Act Unit := setByteReg 0 v
def setAH (v : Byte) : Act Unit := setByteReg 4 v

/-! ## Flags -/

def Core.flag (c : Core) (mask : Word) : Bool := c.flags &&& mask ≠ 0
def Core.cf (c : Core) : Bool := c.flag 1
def Core.pf (c : Core) : Bool := c.flag 4
def Core.af (c : Core) : Bool := c.flag 0x10
def Core.zf (c : Core) : Bool := c.flag 0x40
def Core.sf (c : Core) : Bool := c.flag 0x80
def Core.df (c : Core) : Bool := c.flag 0x400
def Core.of (c : Core) : Bool := c.flag 0x800

/-- Give the flag of `mask` the value `b`. -/
def Core.putFlag (c : Core) (mask : Word) (b : Bool) : Core :=
  { c with flags := c.flags &&& ~~~mask ||| (if b then mask else 0) }

def setFlag (mask : Word) (b : Bool) : Act Unit := modCore fun c => c.putFlag mask b

def setCF (b : Bool) : Act Unit := setFlag 1 b
def setAF (b : Bool) : Act Unit := setFlag 0x10 b
def setOF (b : Bool) : Act Unit := setFlag 0x800 b

/-! ## Memory -/

/-- The bit of address `a` in the map of initialized bytes. -/
def initializedBit (c : Core) (a : DWord) : Bool :=
  c.initialized (a >>> 3).toNat &&& (1 <<< (a &&& 7).toNat) ≠ 0

def markInitialized (c : Core) (a : DWord) : Core :=
  let i := (a >>> 3).toNat
  { c with initialized := Function.update c.initialized i
            (c.initialized i ||| 1 <<< (a &&& 7).toNat) }

/-- The segment an access uses: `seg`, or the override, or the one the instruction set. -/
def segmentOf (seg : Int) : Act Int := do
  let c ← core
  if seg ≠ -1 then pure seg
  else if c.segmentOverride ≠ -1 then pure c.segmentOverride
  else scratch (·.segment)

def physicalAddress (offset : Word) (seg : Int) (write : Bool) : Act DWord := do
  modCore fun c => { c with ios := c.ios + 1 }
  let c ← core
  if c.ios = 0 then runtimeError "Cycle counter overflowed."
  else do
    let seg ← segmentOf seg
    let segmentAddress ← reg (firstS + seg)
    let a : DWord := ((segmentAddress.zeroExtend 32 <<< 4) + offset.zeroExtend 32) &&& 0xfffff
    let bad : Bool := write && a < (c.loadSegment.zeroExtend 32 <<< 4) - 0x100 && c.running
    if (a >>> 3).toNat < 0x20000 then do
      onlyIf write (modCore fun c => markInitialized c a)
      let c ← core
      if !initializedBit c a || bad then runtimeError "" else pure a
    else fault .outOfBounds

def readByte (offset : Word) (seg : Int) : Act Byte := do
  let a ← physicalAddress offset seg false
  let c ← core
  if a.toNat < 0x100000 then pure (c.ram a.toNat) else fault .outOfBounds

def readWord (offset : Word) (seg : Int) : Act Word := do
  let r ← readByte offset seg
  let s ← readByte (offset + 1) seg
  pure (r.zeroExtend 16 + s.zeroExtend 16 <<< 8)

def read (offset : Word) (seg : Int) : Act Word := do
  let c ← core
  if c.wordSize then readWord offset seg
  else do
    let b ← readByte offset seg
    pure (b.zeroExtend 16)

def writeByte (value : Byte) (offset : Word) (seg : Int) : Act Unit := do
  let a ← physicalAddress offset seg true
  if a.toNat < 0x100000 then modCore fun c => { c with ram := Function.update c.ram a.toNat value }
  else fault .outOfBounds

def writeWord (value : Word) (offset : Word) (seg : Int) : Act Unit := do
  writeByte (value.truncate 8) offset seg
  writeByte ((value >>> 8).truncate 8) (offset + 1) seg

def write (value : Word) (offset : Word) (seg : Int) : Act Unit := do
  let c ← core
  if c.wordSize then writeWord value offset seg else writeByte (value.truncate 8) offset seg

def fetchByte : Act Byte := do
  let c ← core
  let b ← readByte c.ip cSeg
  modCore fun c => { c with ip := c.ip + 1 }
  pure b

def fetchWord : Act Word := do
  let w ← fetchByte
  let v ← fetchByte
  pure (w.zeroExtend 16 + v.zeroExtend 16 <<< 8)

def fetch (wordSize : Bool) : Act Word :=
  if wordSize then fetchWord
  else do
    let b ← fetchByte
    pure (b.zeroExtend 16)

end Venix.Sim86
