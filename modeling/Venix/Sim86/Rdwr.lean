/-
  `rdwr` and `venix_seek` of `pcvenix.h`.

  `rdwr` moves the data of a read or a write through a buffer that `malloc` gives. What the buffer
  holds then is a parameter, as is what the host's call makes of it.
-/
import Venix.Emul.Host
import Venix.Sim86.Load
import Venix.Sim86.Run

namespace Venix.Sim86

open Venix.Emul hiding Byte DWord

/-- The members of class `Venix` that these calls read. -/
structure Os where
  brk : Word
  stack : Word
  openFd : Fin venixNofile → Int

namespace Os

/-- `open_fd[fd]`. -/
def hostFd (v : Os) (fd : Nat) : Option Int :=
  if h : fd < venixNofile then some (v.openFd ⟨fd, h⟩) else none

/-- `bad_fd`, of a descriptor that is a word and so not negative. -/
def badFd (v : Os) (fd : Nat) : Bool :=
  match v.hostFd fd with
  | none => true
  | some d => d = -1

def badAddr (v : Os) (c : Core) (addr : Word) : Bool :=
  if v.stack = 0 ∧ addr > c.sp then false else addr ≥ v.brk

end Os

/-! ## Results -/

def sysError (e : DWord) : Act Unit := do
  setCX (e.truncate 16)
  setAX 0xffff

def sysRetvalInt (errno : DWord) (r : Word) : Act Unit :=
  if r = 0xffff then sysError errno
  else do
    setCX 0
    setAX r

def sysRetvalLong (errno : DWord) (r : DWord) : Act Unit :=
  if r = 0xffffffff then sysError errno
  else do
    setCX 0
    setAX (r.truncate 16)
    setDX ((r >>> 16).truncate 16)

/-! ## The calls -/

def copyin : Word → Nat → Act (List Byte)
  | _, 0 => pure []
  | uptr, n + 1 => do
    let ch ← readByte uptr dSeg
    let l ← copyin (uptr + 1) n
    pure (ch :: l)

/-- The buffer before the call of the host. -/
def fillBuffer (isread : Bool) (ptr len : Word) (buffer : List Byte) : Act (List Byte) :=
  if isread then pure buffer else copyin ptr len.toNat

/-- The part of `rdwr` between `malloc` and `free`. -/
def rdwrBuffer (isread : Bool) (fd : Int) (fn : RdwrFn) (ptr len : Word) (buffer : List Byte) :
    Act Unit := do
  let buffer ← fillBuffer isread ptr len buffer
  let r := fn fd buffer
  if r.rv = -1 then sysError r.errno
  else do
    onlyIf isread (copyout (r.buffer.take len.toNat) ptr)
    sysRetvalInt r.errno (BitVec.ofInt 16 r.rv)

/-- `rdwr`; `malloc` gives a buffer that holds `buffer`, if it gives one. -/
def rdwr (v : Os) (isread : Bool) (buffer : Option (List Byte)) (fn : RdwrFn) : Act Unit := do
  let c ← core
  match v.hostFd c.ax.toNat with
  | none => sysError eBADF
  | some fd =>
    if v.badFd c.ax.toNat then sysError eBADF
    else if v.badAddr c c.dx then sysError eFAULT
    else
      match buffer with
      | none => fault (.exit 1)
      | some buffer => rdwrBuffer isread fd fn c.dx c.cx buffer

/-- `venix_seek`, which does not test the descriptor. -/
def venixSeek (v : Os) (lseek : LseekFn) : Act Unit := do
  let c ← core
  match v.hostFd c.ax.toNat with
  | none => fault .outOfBounds
  | some fd =>
    let off : DWord := c.dx.zeroExtend 32 ||| c.cx.zeroExtend 32 <<< 16
    let (rv, errno) := lseek fd off.toInt c.si.toNat
    sysRetvalLong errno (BitVec.ofInt 32 rv)

end Venix.Sim86
