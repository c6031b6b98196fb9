/-
  `venix_load` of vm86venix's `venix.c`.

  The memory of the guest is mapped from 64 KiB to 1 MiB of the host's addresses, and zero; a store
  anywhere else is `none`. As in the other emulator, `loadImage` reads the file and `pushArgs`
  pushes the arguments, and `args` has 100 elements.
-/
import Venix.Load.Exec

namespace Venix.Vm86

open Venix.Load Venix.Lib

def mapLo : Nat := 0x10000
def mapHi : Nat := 0x100000

/-- The memory, and the members of the context that `venix_load` sets. -/
structure Vm where
  mem : Nat → Byte
  cs : BitVec 32
  ds : BitVec 32
  eip : BitVec 32
  esp : BitVec 32
  brk : BitVec 16
  magic : BitVec 16
  stack : BitVec 16

/-! ## The image -/

/-- What `venix_load` has when it has read the file: the memory, DS and `ptr`. -/
structure Placed where
  mem : Nat → Byte
  ds : BitVec 32
  ptr : BitVec 32

/-- The two branches of `venix_load` that read the file. -/
def readImage (hdr : Exec) (file : List Byte) (memory : BitVec 32) : Option Placed := do
  let loadSegment := memory >>> 4
  let s : Loading := ⟨fun _ => 0, file⟩
  if hdr.aMagic = omagic then
    let (s, ptr) ← placeTiny mapLo mapHi memory hdr s
    some ⟨s.mem, loadSegment, ptr⟩
  else
    let s ← fread mapLo mapHi memory (sizeT hdr.aText) s
    let ptr := roundText hdr.aText
    let ds := loadSegment + (ptr >>> 4)
    let (s, ptr) ← placeData mapLo mapHi (memory + ptr) hdr s
    some ⟨s.mem, ds, ptr⟩

/-- `venix_load` up to the break; and `sp`. -/
def loadImage (hdr : Exec) (file : List Byte) (memory : BitVec 32) : Option (Vm × BitVec 16) :=
  if hdr.aMagic ≠ omagic ∧ hdr.aMagic ≠ nmagic then none
  else
    match readImage hdr file memory with
    | none => none
    | some p =>
      some (⟨p.mem, memory >>> 4, p.ds, hdr.aEntry, 0, p.ptr.truncate 16, hdr.aMagic, hdr.aStack⟩,
        initialSp hdr)

/-! ## The arguments -/

def copyout (l : List Byte) (uptr : BitVec 16) (v : Vm) : Option Vm :=
  let up := uptr.toNat + (v.ds <<< 4).toNat
  if l = [] ∨ (mapLo ≤ up ∧ up + l.length ≤ mapHi) then some { v with mem := store v.mem up l }
  else none

/-- Push the strings; and their addresses. -/
def pushStrings : List (List Byte) → BitVec 16 → Vm → Option (BitVec 16 × List (BitVec 16) × Vm)
  | [], sp, v => some (sp, [], v)
  | s :: rest, sp, v => do
    let sp := evenSp (sp - BitVec.ofNat 16 (s.length + 1))
    let v ← copyout (s ++ [0]) sp v
    let (last, args, v) ← pushStrings rest sp v
    some (last, sp :: args, v)

/-- `venix_load` from the arguments on. -/
def pushArgs (argv : List (List Byte)) (sp : BitVec 16) (v : Vm) : Option Vm := do
  let argc := argv.length
  if argc < 100 then
    let (sp, args, v) ← pushStrings argv sp v
    let sp := evenSp sp - 2
    let v ← copyout (wordBytes 0) sp v
    let sp := sp - BitVec.ofNat 16 (2 * argc)
    let v ← copyout (((args ++ [0]).take argc).flatMap wordBytes) sp v
    let sp := sp - 2
    let v ← copyout (wordBytes (BitVec.ofNat 16 argc)) sp v
    some { v with esp := sp.zeroExtend 32 }
  else none

def venixLoad (hdr : Exec) (file : List Byte) (argv : List (List Byte)) (memory : BitVec 32) :
    Option Vm := do
  let (v, sp) ← loadImage hdr file memory
  pushArgs argv sp v

end Venix.Vm86
