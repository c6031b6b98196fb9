/-
  `load` of `pcvenix.h`: the emulator reads a program and starts its stack.

  `loadImage` is the part that reads the file, `markImage` the loop that marks the memory in use,
  and `pushArgs` the part that pushes the arguments. `args` has 100 elements. The members of
  `MachineOS` that neither the constructor nor `init` sets are 0 here.
-/
import Venix.Load.Exec
import Venix.Sim86.Machine

namespace Venix.Sim86

open Venix.Load

/-- The members of class `Venix` that `load` sets. -/
structure Loaded where
  machine : Machine
  brk : Word
  magic : Word
  stack : Word

/-- The register DS. -/
def rDS : Nat := 11

/-- The machine after the constructor and `init`. -/
def fresh : Machine where
  ram _ := 0
  initialized _ := 0
  wordSize := false
  flags := 2
  ip := 0x100
  loadSegment := 0x0212
  registers _ := 0
  stackLow := 0
  ios := 0
  segmentOverride := -1
  opcode := 0
  aluOperation := 0
  running := false
  rep := 0
  repeating := false
  prefixed := false
  segment := 0
  data := 0
  remainder := 0
  source := 0
  destination := 0
  modRM := 0
  address := 0
  useMemory := false
  savedCS := 0
  savedIP := 0

/-! ## The image -/

/-- What `load` has when it has read the file: the memory, DS, `endMem` and `ptr`. -/
structure Placed where
  mem : Nat → Byte
  ds : Word
  endMem : DWord
  ptr : DWord

/-- The two branches of `load` that read the file. -/
def readImage (hdr : Exec) (file : List Byte) (m : Machine) : Option Placed := do
  let loadOffset : DWord := m.loadSegment.zeroExtend 32 <<< 4
  let s : Loading := ⟨m.ram, file⟩
  if hdr.aMagic = omagic then
    let (s, ptr) ← placeTiny 0 0x100000 loadOffset hdr s
    let endMem := if hdr.aStack ≠ 0 then (loadOffset + ptr) <<< 4 else (loadOffset + 0x10000) <<< 4
    some ⟨s.mem, m.loadSegment, endMem, ptr⟩
  else
    let s ← fread 0 0x100000 loadOffset (sizeT hdr.aText) s
    let ptr := roundText hdr.aText
    let ds := m.loadSegment + (ptr >>> 4).truncate 16
    let dataOffset : Word := (loadOffset + ptr).truncate 16
    let data : DWord := dataOffset.zeroExtend 32
    let (s, ptr) ← placeData 0 0x100000 data hdr s
    let endMem := if hdr.aStack ≠ 0 then (data + ptr) <<< 4 else (data + 0x10000) <<< 4
    some ⟨s.mem, ds, endMem, ptr⟩

/-- The loop that marks `n` bytes from `i` on. -/
def markUse : Nat → DWord → Machine → Except Fault Machine
  | 0, _, m => .ok m
  | n + 1, i, m =>
    if (i >>> 3).toNat < 0x20000 then
      markUse n (i + 1) { m with toCore := markInitialized m.toCore i }
    else .error .outOfBounds

/-- The registers before the arguments are pushed. -/
def loadRegisters (m : Machine) (ds : Word) : Nat → Word := fun i =>
  if i < firstS then 0
  else if i = rCS then m.loadSegment
  else if i < 12 then ds
  else m.registers i

/-- `load` up to the break, less the loop; and `endMem` and `sp`. -/
def loadImage (hdr : Exec) (file : List Byte) (m : Machine) :
    Except Fault (Loaded × DWord × Word) :=
  if hdr.aMagic ≠ omagic ∧ hdr.aMagic ≠ nmagic then .error (.exit 1)
  else
    match readImage hdr file m with
    | none => .error .outOfBounds
    | some p =>
      let m : Machine :=
        { m with
          ram := p.mem
          registers := loadRegisters m p.ds
          ip := hdr.aEntry.truncate 16 }
      .ok (⟨m, p.ptr.truncate 16, hdr.aMagic, hdr.aStack⟩, p.endMem, initialSp hdr)

/-- The loop over the memory in use. -/
def markImage (endMem : DWord) (m : Machine) : Except Fault Machine :=
  let startMem : DWord := m.loadSegment.zeroExtend 32 <<< 4
  markUse (endMem.toNat - startMem.toNat) startMem m

/-! ## The arguments -/

def copyout : List Byte → Word → Act Unit
  | [], _ => pure ()
  | b :: l, uptr => do
    writeByte b uptr dSeg
    copyout l (uptr + 1)

/-- Push the strings; and their addresses. -/
def pushStrings : List (List Byte) → Word → Act (Word × List Word)
  | [], sp => pure (sp, [])
  | s :: rest, sp => do
    let sp := evenSp (sp - BitVec.ofNat 16 (s.length + 1))
    copyout (s ++ [0]) sp
    let (last, args) ← pushStrings rest sp
    pure (last, sp :: args)

/-- `load` from the arguments on. -/
def pushArgs (argv : List (List Byte)) (sp : Word) : Act Unit := do
  let argc := argv.length + 1
  if argc ≤ 100 then do
    let (sp, args) ← pushStrings argv sp
    let sp := evenSp sp - 2
    copyout (wordBytes 0) sp
    let sp := sp - BitVec.ofNat 16 (2 * argc)
    copyout ((args ++ [0]).flatMap wordBytes) sp
    let sp := sp - 2
    copyout (wordBytes (BitVec.ofNat 16 (argc - 1))) sp
    setRegister rSP sp
  else fault .outOfBounds

def load (hdr : Exec) (file : List Byte) (argv : List (List Byte)) (m : Machine) :
    Except Fault Loaded :=
  match loadImage hdr file m with
  | .error e => .error e
  | .ok (v, endMem, sp) =>
    match markImage endMem v.machine with
    | .error e => .error e
    | .ok m =>
      match pushArgs argv sp m with
      | .error e => .error e
      | .ok (_, m) => .ok { v with machine := m }

end Venix.Sim86
