/-
  `exece` (`sys1.c`): the arguments go through blocks of swap space onto the new stack.

  The buffer cache is taken as what it was proved to be: a block that was written is read back.
  `busy` are the blocks whose buffers the call holds, `space` the swap space that it holds, and
  `inodes` the inodes. What `namei`, `access` and `malloc` return is given. Of `getxfile` the sizes
  are here and what the memory is afterwards; text tables, set-user-id and accounting are left out,
  as are signals. An access of the user's memory may fail, a word at an odd address always does.
-/
import Venix.Lib.Bytes
import Venix.Kernel.Text

namespace Venix.Kernel

open Venix.Lib

inductive Errno where
  | e2big
  | efault
  | eacces
  | enoexec
  | enomem
  | etxtbsy
  | other (n : Nat)
  deriving DecidableEq

def ncargs : Nat := 5120
def bsize : Nat := 512
def ssize : BitVec 16 := 20
def usize : Nat := 16

/-! ## The memory of a user -/

structure Space where
  readable : Nat → Bool
  writable : Nat → Bool
  byte : Nat → Byte

namespace Space

def fubyte (m : Space) (a : BitVec 16) : Option Byte :=
  if m.readable a.toNat then some (m.byte a.toNat) else none

/-- A word, where there is one. -/
def word (m : Space) (a : Nat) : Option (BitVec 16) :=
  if a % 2 = 0 ∧ m.readable a ∧ m.readable (a + 1) then some (m.byte (a + 1) ++ m.byte a) else none

/-- -1 also where the access fails. -/
def fuword (m : Space) (a : BitVec 16) : BitVec 16 := (m.word a.toNat).getD (-1)

def subyte (m : Space) (a : BitVec 16) (c : Byte) : Space :=
  if m.writable a.toNat then { m with byte := Function.update m.byte a.toNat c } else m

def suword (m : Space) (a : BitVec 16) (w : BitVec 16) : Space :=
  let n := a.toNat
  if n % 2 = 0 ∧ m.writable n ∧ m.writable (n + 1) then
    let lo : Byte := w.setWidth 8
    let hi : Byte := (w >>> 8).setWidth 8
    { m with byte := Function.update (Function.update m.byte n lo) (n + 1) hi }
  else m

end Space

/-! ## `getxfile` -/

/-- The header of the file. -/
structure Exdata where
  mag : BitVec 16
  tsize : BitVec 16
  dsize : BitVec 16
  bsize : BitVec 16

/-- What `getxfile` depends on: errors of the first `readi` and of later calls, whether the header
    is short, the header, whether the text may not be shared, the present process, the machine,
    and the bytes of the new text and data. -/
structure Xfile where
  readErr : Option Errno
  short : Bool
  x : Exdata
  textBusy : Bool
  uSep : Bool
  uTsize : BitVec 16
  cpu40 : Bool
  maxmem : Nat
  lateErr : Option Errno
  content : Nat → Byte

def ctos (x : BitVec 16) : Nat := (x.toNat + 127) / 128

/-- Whether the segments fit, in `estabur`. -/
def estabur (f : Xfile) (nt nd ns : BitVec 16) (sep : Bool) : Bool :=
  (if sep then !f.cpu40 && ctos nt ≤ 8 && ctos nd + ctos ns ≤ 8
    else ctos nt + ctos nd + ctos ns ≤ 8) &&
    nt.toNat + nd.toNat + ns.toNat + usize ≤ f.maxmem

/-- The memory with segments of these sizes, and a stack of zeros. -/
def layout (f : Xfile) (ts ds ss : BitVec 16) (sep : Bool) : Space :=
  let low := if sep then 0 else 8192 * ctos ts
  let bottom := 65536 - 64 * ss.toNat
  let writable := fun a =>
    (low ≤ a && a < low + 64 * ds.toNat) || (bottom ≤ a && a < 65536 : Bool)
  { readable := fun a => writable a || (!sep && a < 64 * ts.toNat)
    writable := writable
    byte := fun a => if a < bottom then f.content a else 0 }

/-- `getxfile` from `estabur` on. -/
def newImage (f : Xfile) (ts ds ss : BitVec 16) (sep : Bool) : Except Errno (Option Space) :=
  if ¬estabur f ts ds ss sep then .error .enomem
  else
    match f.lateErr with
    | some e => .error e
    | none => .ok (some (layout f ts ds ss sep))

/-- The new memory; or nothing, if only the text was replaced. -/
def getxfile (f : Xfile) (nargc : BitVec 16) : Except Errno (Option Space) :=
  match f.readErr with
  | some e => .error e
  | none =>
    if f.short then .error .enoexec
    else
      let x := f.x
      let sum := x.dsize.toNat + x.tsize.toNat
      if x.mag = 0o407 ∧ sum ≥ 65536 then .error .enomem
      else if x.mag ≠ 0o407 ∧ x.mag ≠ 0o411 ∧ x.mag ≠ 0o405 ∧ x.mag ≠ 0o410 then .error .enoexec
      else
        let dsize := if x.mag = 0o407 then x.dsize + x.tsize else x.dsize
        let tsize := if x.mag = 0o407 then 0 else x.tsize
        let sep := x.mag = 0o411
        let overlay := x.mag = 0o405
        if tsize ≠ 0 ∧ f.textBusy then .error .etxtbsy
        else if dsize.toNat + x.bsize.toNat ≥ 65536 then .error .enomem
        else
          let ts := btoc tsize
          let ds := btoc (dsize + x.bsize)
          let ss := ssize + btoc nargc
          if overlay then
            if (¬f.uSep ∧ ctos ts ≠ ctos f.uTsize) ∨ nargc ≠ 0 then .error .enomem
            else .ok none
          else newImage f ts ds ss sep

/-! ## `exece` -/

/-- What the call depends on. -/
structure Execa where
  /-- the user's memory, and the arguments of the call -/
  mem : Space
  argp : BitVec 16
  envp : BitVec 16
  /-- the error of `namei`, or of `access` and the checks after it -/
  namei : Option Errno
  access : Option Errno
  regular : Bool
  execBits : Bool
  /-- what `malloc` of swap space returns -/
  malloc : Nat
  swplo : Nat
  /-- what is in a buffer that `getblk` returns -/
  junk : Nat → Nat → Byte
  file : Xfile

structure Exec where
  err : Option Errno
  bno : Nat
  na : Nat
  ne : Nat
  nc : Nat
  bp : Option Nat
  cp : Nat
  buf : Nat → Byte
  disk : Nat → Nat → Byte
  busy : List Nat
  space : List Nat
  inodes : Nat

/-- How the call ended: on the new stack there is what is in the memory from `sp` on. -/
inductive ExecRet where
  | failed (e : Errno)
  | overlaid
  | panic
  | started (mem : Space) (sp : BitVec 16)

namespace Exec

def getblk (x : Execa) (b : Nat) (s : Exec) : Exec :=
  { s with
    bp := some b
    buf := x.junk b
    busy := b :: s.busy }

def bread (b : Nat) (s : Exec) : Exec :=
  { s with
    bp := some b
    buf := s.disk b
    busy := b :: s.busy }

def bawrite (b : Nat) (s : Exec) : Exec :=
  { s with
    disk := Function.update s.disk b s.buf
    busy := s.busy.erase b }

def brelse (b : Nat) (s : Exec) : Exec := { s with busy := s.busy.erase b }

/-- `if (bp) f(bp);` -/
def ifBp (f : Nat → Exec → Exec) (s : Exec) : Exec :=
  match s.bp with
  | some b => f b s
  | none => s

/-- The block of the swap space for the next character. -/
def block (x : Execa) (s : Exec) : Nat := x.swplo + s.bno + s.nc / bsize

/-- The end of the loop that collects: one character is stored. -/
def store (x : Execa) (s : Exec) (c : Byte) : Exec :=
  let s := if s.nc % bsize = 0 then { getblk x (s.block x) (s.ifBp bawrite) with cp := 0 } else s
  { s with
    nc := s.nc + 1
    buf := Function.update s.buf s.cp c
    cp := s.cp + 1 }

/-- The error after the checks of a character. -/
def checkChar (x : Execa) (ap : BitVec 16) (s : Exec) : Option Errno :=
  let err := if s.nc ≥ ncargs - 1 then some .e2big else s.err
  if x.mem.fubyte ap = none then some .efault else err

/-- The inner loop that collects the string at `ap`. -/
def collectStr (x : Execa) : Nat → BitVec 16 → Exec → Option Exec
  | 0, _, _ => none
  | n + 1, ap, s =>
    match s.checkChar x ap with
    | some e => some { s with err := some e }
    | none =>
      let c := (x.mem.fubyte ap).getD 0
      let s := s.store x c
      if c ≠ 0 then collectStr x n (ap + 1) s else some s

def strBound : Nat := ncargs

/-- The pointer to the next string, which is 0 at the end, and what is left. -/
def nextPtr (x : Execa) (argp envp : BitVec 16) (s : Exec) :
    BitVec 16 × BitVec 16 × BitVec 16 × Exec :=
  let ap := if argp ≠ 0 then x.mem.fuword argp else 0
  let argp := if argp ≠ 0 then argp + 2 else 0
  if ap = 0 ∧ envp ≠ 0 then
    let ap := x.mem.fuword envp
    if ap = 0 then (0, 0, envp, s) else (ap, 0, envp + 2, { s with ne := s.ne + 1 })
  else (ap, argp, envp, s)

/-- The loop that collects the arguments. -/
def collect (x : Execa) : Nat → BitVec 16 → BitVec 16 → Exec → Option Exec
  | 0, _, _, _ => none
  | n + 1, argp, envp, s =>
    match nextPtr x argp envp s with
    | (ap, argp, envp, s) =>
      if ap = 0 then some s
      else
        let s := { s with na := s.na + 1 }
        let s := if ap = -1 then { s with err := some .efault } else s
        match collectStr x strBound ap s with
        | none => none
        | some s => if s.err ≠ none then some s else collect x n argp envp s

def collectBound : Nat := ncargs + 1

/-- The buffer with the next character to copy back. -/
def fill (x : Execa) (s : Exec) : Exec :=
  if s.nc % bsize = 0 then { bread (s.block x) (s.ifBp brelse) with cp := 0 } else s

/-- The inner loop that copies a string back to `ucp`. -/
def copyStr (x : Execa) : Nat → Space → BitVec 16 → Exec → Option (Space × BitVec 16 × Exec)
  | 0, _, _, _ => none
  | n + 1, m, ucp, s =>
    let s := s.fill x
    let c := s.buf s.cp
    let m := m.subyte ucp c
    let s := { s with
      cp := s.cp + 1
      nc := s.nc + 1 }
    if c ≠ 0 then copyStr x n m (ucp + 1) s else some (m, ucp + 1, s)

/-- The loop that copies the arguments back, with `na` of them left. -/
def copyBack (x : Execa) (ne : Nat) : Nat → Space → BitVec 16 → BitVec 16 → Exec →
    Option (Space × BitVec 16 × BitVec 16 × Exec)
  | na, m, ap, ucp, s =>
    let ap := ap + 2
    let m' := if na = ne then m.suword ap 0 else m
    let ap := if na = ne then ap + 2 else ap
    match na with
    | 0 => some (m', ap, ucp, s)
    | na + 1 =>
      match copyStr x strBound (m'.suword ap ucp) ucp s with
      | none => none
      | some (m, ucp, s) => copyBack x ne na m ap ucp s

/-- The second half of `exece`. -/
def putArgs (x : Execa) (m : Space) (nc : Nat) (s : Exec) :
    Option (Space × BitVec 16 × Exec) := do
  let ucp : BitVec 16 := -BitVec.ofNat 16 nc - 2
  let sp := ucp - BitVec.ofNat 16 (s.na * 2) - 6
  let m := m.suword sp (BitVec.ofNat 16 (s.na - s.ne))
  let (m, ap, ucp, s) ← copyBack x s.ne s.na m sp ucp { s with nc := 0 }
  let m := m.suword ap 0
  let m := m.suword ucp 0
  return (m, sp, s)

/-- `bad`. -/
def bad (s : Exec) : Exec :=
  let s := s.ifBp brelse
  let s := if s.bno ≠ 0 then { s with space := s.space.erase s.bno } else s
  { s with inodes := s.inodes - 1 }

def start (x : Execa) : Exec where
  err := none
  bno := 0
  na := 0
  ne := 0
  nc := 0
  bp := none
  cp := 0
  buf := fun _ => 0
  disk := x.junk
  busy := []
  space := []
  inodes := 0

/-- `exece` after the checks of the file. -/
def execArgs (x : Execa) (s : Exec) : Option (ExecRet × Exec) := do
  let s ← (if x.argp ≠ 0 then collect x collectBound x.argp x.envp s else some s)
  match s.err with
  | some e => return (.failed e, s.bad)
  | none =>
    let s := { s.ifBp bawrite with bp := none }
    let nc := (s.nc + 1) / 2 * 2
    match getxfile x.file (BitVec.ofNat 16 nc) with
    | .error e => return (.failed e, s.bad)
    | .ok none => return (.overlaid, s.bad)
    | .ok (some m) =>
      let (m, sp, s) ← putArgs x m nc s
      return (.started m sp, s.bad)

/-- `exece`: how the call ended, and what it holds then. -/
def exece (x : Execa) : Option (ExecRet × Exec) :=
  match x.namei with
  | some e => some (.failed e, start x)
  | none =>
    let s := { start x with inodes := 1 }
    match x.access with
    | some e => some (.failed e, s.bad)
    | none =>
      if ¬x.regular ∨ ¬x.execBits then some (.failed .eacces, s.bad)
      else if x.malloc = 0 then some (.panic, s)
      else
        execArgs x { s with
          bno := x.malloc
          space := [x.malloc] }

end Exec

end Venix.Kernel
