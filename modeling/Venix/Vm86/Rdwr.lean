/-
  `rdwr` and `venix_seek` of vm86venix's `venix.c`.

  The registers are those of the context the host keeps of the guest. As in `Vm86.Load`, an access
  outside the memory of the guest is `none`.
-/
import Venix.Emul.Host
import Venix.Vm86.Fds
import Venix.Vm86.Load

namespace Venix.Vm86

open Venix.Load Venix.Lib
open Venix.Emul hiding Byte

/-- The guest, and the descriptors. -/
structure Ctx extends Vm where
  eax : BitVec 32
  ecx : BitVec 32
  edx : BitVec 32
  esi : BitVec 32
  openFd : Fin Emul.venixNofile → Int

namespace Ctx

def arg1 (uc : Ctx) : Word := uc.eax.truncate 16
def arg2 (uc : Ctx) : Word := uc.edx.truncate 16
def arg3 (uc : Ctx) : Word := uc.ecx.truncate 16
def arg4 (uc : Ctx) : Word := uc.esi.truncate 16

/-- `open_fd[fd]`. -/
def hostFd (uc : Ctx) (fd : Nat) : Option Int :=
  if h : fd < Emul.venixNofile then some (uc.openFd ⟨fd, h⟩) else none

def badFd (uc : Ctx) (fd : Nat) : Bool :=
  match uc.hostFd fd with
  | none => true
  | some d => d = -1

/-- `bad_addr`; the registers of the context are signed. -/
def badAddr (uc : Ctx) (addr : Word) : Bool :=
  if uc.stack = 0 ∧ (addr.toNat : Int) > uc.esp.toInt then false else addr ≥ uc.brk

/-! ## Results -/

def sysError (uc : Ctx) (e : DWord) : Ctx :=
  { uc with
    ecx := e
    eax := 0xffff }

def sysRetvalInt (uc : Ctx) (errno : DWord) (r : Word) : Ctx :=
  if r = 0xffff then uc.sysError errno
  else
    { uc with
      ecx := 0
      eax := r.zeroExtend 32 }

def sysRetvalLong (uc : Ctx) (errno : DWord) (r : DWord) : Ctx :=
  if r = 0xffffffff then uc.sysError errno
  else
    { uc with
      ecx := 0
      eax := r &&& 0xffff
      edx := r >>> 16 }

/-! ## The calls -/

def copyin (uc : Ctx) (uptr : Word) (len : Nat) : Option (List Byte) :=
  let up := uptr.toNat + (uc.ds <<< 4).toNat
  if len = 0 ∨ (mapLo ≤ up ∧ up + len ≤ mapHi) then
    some ((List.range len).map fun i => uc.mem (up + i))
  else none

/-- `copyout` of a list of bytes. -/
def copyout (uc : Ctx) (l : List Byte) (uptr : Word) : Option Ctx :=
  (Vm86.copyout l uptr uc.toVm).map fun vm => { uc with toVm := vm }

/-- The buffer before the call of the host. -/
def fillBuffer (uc : Ctx) (isread : Bool) (ptr len : Word) (buffer : List Byte) :
    Option (List Byte) :=
  if isread then some buffer else uc.copyin ptr len.toNat

/-- The guest after a call that gave `buffer`. -/
def takeBuffer (uc : Ctx) (isread : Bool) (ptr len : Word) (buffer : List Byte) : Option Ctx :=
  if isread then uc.copyout (buffer.take len.toNat) ptr else some uc

/-- The part of `rdwr` between `malloc` and `free`. -/
def rdwrBuffer (uc : Ctx) (isread : Bool) (fd : Int) (fn : RdwrFn) (ptr len : Word)
    (buffer : List Byte) : Option Ctx := do
  let buffer ← uc.fillBuffer isread ptr len buffer
  let r := fn fd buffer
  if r.rv = -1 then some (uc.sysError r.errno)
  else
    let uc ← uc.takeBuffer isread ptr len r.buffer
    some (uc.sysRetvalInt r.errno (BitVec.ofInt 16 r.rv))

/-- `rdwr`; `malloc` gives a buffer that holds `buffer`, if it gives one. -/
def rdwr (uc : Ctx) (errno : DWord) (isread : Bool) (buffer : Option (List Byte)) (fn : RdwrFn) :
    Option Ctx :=
  match uc.hostFd uc.arg1.toNat with
  | none => some (uc.sysError eBADF)
  | some fd =>
    if uc.badFd uc.arg1.toNat then some (uc.sysError eBADF)
    else if uc.arg3 = 0 then some (uc.sysRetvalInt errno 0)
    else if uc.badAddr uc.arg2 then some (uc.sysError eFAULT)
    else
      match buffer with
      | none => none
      | some buffer => uc.rdwrBuffer isread fd fn uc.arg2 uc.arg3 buffer

/-- `venix_seek`, which does not test the descriptor. -/
def venixSeek (uc : Ctx) (lseek : LseekFn) : Option Ctx :=
  match uc.hostFd uc.arg1.toNat with
  | none => none
  | some fd =>
    let off : DWord := uc.arg2.zeroExtend 32 ||| uc.arg3.zeroExtend 32 <<< 16
    let (rv, errno) := lseek fd off.toInt uc.arg4.toNat
    some (uc.sysRetvalLong errno (BitVec.ofInt 32 rv))

end Ctx

end Venix.Vm86
