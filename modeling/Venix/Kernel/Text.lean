/-
  Shared text segments (`text.c`, `struct text` of `text.h`), with the functions of `slp.c` and
  `sys1.c` that count the users of one: `swapin`, `newproc`, `expand` and `exit`.

  `x_count` and `x_ccount` are a `char`. Core and swap space come from the maps of `malloc.c`. The
  fields `coreLog` and `swapLog` are no part of the source: for each slot they hold what has been
  obtained and freed for it, the newest first.

  An operation runs to its end. It is `none` if it panics, follows a null pointer, or waits for a
  lock that is held. `xalloc` without core for the text swaps its process out and ends later, when
  the process runs again: `cont` is what is left to do. What is copied or read, the wakeups, and
  what `iput` does to an inode without references are left out.
-/
import Venix.Kernel.Map
import Venix.Lib.Loan
import Venix.Lib.Run

namespace Venix.Kernel

open Venix.Lib

/-- `NPROC` of `param.h`. -/
abbrev nproc : Nat := 150

/-- `NTEXT` of `param.h`. -/
abbrev ntext : Nat := 40

instance : NeZero nproc := ⟨by decide⟩
instance : NeZero ntext := ⟨by decide⟩

def btoc (x : BitVec 16) : BitVec 16 := (x + 63) >>> 6

/-- An `int` is signed, and so is the shift. -/
def ctod (x : BitVec 16) : BitVec 16 := (x + 7).sshiftRight 3

structure Text where
  xDaddr : BitVec 16
  xCaddr : BitVec 16
  xSize : BitVec 16
  /-- The inode, or `none` in a slot that is not in use. -/
  xIptr : Option Nat
  xCount : BitVec 8
  xCcount : BitVec 8
  xWrit : Bool
  xLoad : Bool
  xLock : Bool
  xWant : Bool

/-- What is left of `xalloc` for a process that it swapped out: with a text that was there, and
with one that it has to read. -/
inductive Cont where
  | attach (k : Fin ntext)
  | read (k : Fin ntext)

/-- `p_stat`, where a process that runs, sleeps or is stopped is `live`. -/
inductive PStat where
  | free
  | live
  | zomb
  deriving DecidableEq

structure TProc where
  stat : PStat
  textp : Option (Fin ntext)
  load : Bool
  size : BitVec 16
  addr : BitVec 16
  cont : Option Cont

/-- The base and the size of a piece of core or of swap space. -/
abbrev Region := BitVec 16 × BitVec 16

structure Texts where
  text : Fin ntext → Text
  proc : Fin nproc → TProc
  coremap : List MapEnt
  swapmap : List MapEnt
  /-- `ISVTX` of `i_mode`. -/
  isvtx : Nat → Bool
  /-- `ITEXT` of `i_flag`. -/
  itext : Nat → Bool
  iCount : Nat → Int
  coreLog : Fin ntext → List (Loan Region)
  swapLog : Fin ntext → List (Loan Region)

namespace Texts

/-! ## Parts of the state -/

def setText (s : Texts) (k : Fin ntext) (x : Text) : Texts :=
  { s with text := Function.update s.text k x }

def setProc (s : Texts) (p : Fin nproc) (q : TProc) : Texts :=
  { s with proc := Function.update s.proc p q }

def mallocCore (s : Texts) (size : BitVec 16) : Option (BitVec 16 × Texts) :=
  (malloc size s.coremap).map fun r => (r.1, { s with coremap := r.2 })

def mfreeCore (s : Texts) (size a : BitVec 16) : Option Texts :=
  (mfree size a s.coremap).map fun m => { s with coremap := m }

def mallocSwap (s : Texts) (size : BitVec 16) : Option (BitVec 16 × Texts) :=
  (malloc size s.swapmap).map fun r => (r.1, { s with swapmap := r.2 })

def mfreeSwap (s : Texts) (size a : BitVec 16) : Option Texts :=
  (mfree size a s.swapmap).map fun m => { s with swapmap := m }

def logCore (s : Texts) (k : Fin ntext) (e : Loan Region) : Texts :=
  { s with coreLog := Function.update s.coreLog k (e :: s.coreLog k) }

def logSwap (s : Texts) (k : Fin ntext) (e : Loan Region) : Texts :=
  { s with swapLog := Function.update s.swapLog k (e :: s.swapLog k) }

/-- `mfree` of the core of a text. -/
def freeTextCore (s : Texts) (k : Fin ntext) : Option Texts :=
  let x := s.text k
  (s.mfreeCore x.xSize x.xCaddr).map (·.logCore k (.freed (x.xCaddr, x.xSize)))

/-- `mfree` of the swap space of a text. -/
def freeTextSwap (s : Texts) (k : Fin ntext) : Option Texts :=
  let x := s.text k
  (s.mfreeSwap (ctod x.xSize) x.xDaddr).map (·.logSwap k (.freed (x.xDaddr, ctod x.xSize)))

/-- The inode of a text that is forgotten. `iput` and the branch for a locked inode both take one
from `i_count`. -/
def dropInode (s : Texts) (ip : Nat) : Texts :=
  { s with
    itext := Function.update s.itext ip false
    iCount := Function.update s.iCount ip (s.iCount ip - 1) }

/-! ## `text.c` -/

/-- `xlock`; it would sleep while the text is locked. -/
def xlock (s : Texts) (k : Fin ntext) : Option Texts :=
  if (s.text k).xLock then none else some (s.setText k { s.text k with xLock := true })

def xunlock (s : Texts) (k : Fin ntext) : Texts :=
  s.setText k { s.text k with xLock := false, xWant := false }

def xccdec (s : Texts) (xp : Option (Fin ntext)) : Option Texts :=
  match xp with
  | none => some s
  | some k =>
    if (s.text k).xCcount = 0 then some s
    else do
      let s ← s.xlock k
      let s := s.setText k { s.text k with xCcount := (s.text k).xCcount - 1 }
      if (s.text k).xCcount = 0 then do
        -- A text that was written into is copied to its swap space.
        let s := s.setText k { s.text k with xWrit := false }
        let s ← s.freeTextCore k
        return s.xunlock k
      else return s.xunlock k

/-- `xswap`, which panics without swap space. -/
def xswap (s : Texts) (p : Fin nproc) (ff : Bool) (os : BitVec 16) : Option Texts := do
  let os := if os = 0 then (s.proc p).size else os
  let (a, s) ← s.mallocSwap (ctod (s.proc p).size)
  if a = 0 then none
  else
    let s ← s.xccdec (s.proc p).textp
    let s ← (if ff then s.mfreeCore os (s.proc p).addr else some s)
    return s.setProc p { s.proc p with addr := a, load := false }

/-- `xfree` of the process `p`. -/
def xfree (s : Texts) (p : Fin nproc) : Option Texts :=
  match (s.proc p).textp with
  | none => some s
  | some k => do
    let s ← s.xlock k
    let s := s.setText k { s.text k with xLock := false }
    let s := s.setProc p { s.proc p with textp := none }
    let s := s.setText k { s.text k with xCount := (s.text k).xCount - 1 }
    match (s.text k).xIptr with
    | none => none
    | some ip =>
      if (s.text k).xCount = 0 ∧ ¬s.isvtx ip then do
        let s := s.setText k { s.text k with xIptr := none }
        let s ← s.freeTextSwap k
        let s ← s.freeTextCore k
        return s.dropInode ip
      else s.xccdec (some k)

/-- `xexpand` of the process `p`, and whether it found core. If not, the process is swapped out. -/
def xexpand (s : Texts) (p : Fin nproc) (k : Fin ntext) : Option (Bool × Texts) := do
  let (a, s) ← s.mallocCore (s.text k).xSize
  if a ≠ 0 then
    let s := s.setText k { s.text k with xCaddr := a }
    let s := s.logCore k (.got (a, (s.text k).xSize))
    let s := s.setText k { s.text k with xCcount := (s.text k).xCcount + 1 }
    return (true, s.xunlock k)
  else
    let s := s.setText k { s.text k with xCaddr := a }
    let s ← s.xswap p true 0
    return (false, s.xunlock k)

/-- The search of `xalloc`: the slot of the inode, or else the first slot not in use. -/
def findText (s : Texts) (ip : Nat) : List (Fin ntext) → Option (Fin ntext) →
    Fin ntext ⊕ Option (Fin ntext)
  | [], xp1 => .inr xp1
  | k :: ks, xp1 =>
    match (s.text k).xIptr with
    | none => s.findText ip ks (if xp1 = none then some k else xp1)
    | some i => if i = ip then .inl k else s.findText ip ks xp1

/-- `xalloc` once the text is read. -/
def readText (s : Texts) (k : Fin ntext) : Texts :=
  s.setText k { s.text k with xWrit := true, xLoad := false, xLock := false, xWant := false }

/-- `xalloc` of the process `p` where the slot `k` has the inode. -/
def attachText (s : Texts) (p : Fin nproc) (k : Fin ntext) : Option Texts := do
  let s ← s.xlock k
  let s := s.setText k { s.text k with xCount := (s.text k).xCount + 1 }
  let s := s.setProc p { s.proc p with textp := some k }
  if (s.text k).xCcount = 0 then do
    let (done, s) ← s.xexpand p k
    if done then return s.xunlock k
    else return s.setProc p { s.proc p with cont := some (.attach k) }
  else
    let s := s.setText k { s.text k with xCcount := (s.text k).xCcount + 1 }
    return s.xunlock k

/-- `xalloc` of the process `p` where the slot `k` is not in use. It panics without swap space. -/
def newText (s : Texts) (p : Fin nproc) (k : Fin ntext) (ip : Nat) (tsize : BitVec 16) :
    Option Texts := do
  let s := s.setText k
    { s.text k with
      xWrit := false
      xLoad := true
      xLock := true
      xWant := false
      xCount := 1
      xCcount := 0
      xIptr := some ip
      xSize := btoc tsize }
  let s := { s with
    itext := Function.update s.itext ip true
    iCount := Function.update s.iCount ip (s.iCount ip + 1) }
  let (d, s) ← s.mallocSwap (ctod (s.text k).xSize)
  let s := s.setText k { s.text k with xDaddr := d }
  if d = 0 then none
  else do
    let s := s.logSwap k (.got (d, ctod (s.text k).xSize))
    let s := s.setProc p { s.proc p with textp := some k }
    let (done, s) ← s.xexpand p k
    if done then return s.readText k
    else return s.setProc p { s.proc p with cont := some (.read k) }

/-- `xalloc` of the process `p`, for a text of `tsize` bytes. Without a slot the process gets a
signal. -/
def xalloc (s : Texts) (p : Fin nproc) (ip : Nat) (tsize : BitVec 16) : Option Texts :=
  if tsize = 0 then some s
  else
    match s.findText ip (List.finRange ntext) none with
    | .inl k => s.attachText p k
    | .inr none => some s
    | .inr (some k) => s.newText p k ip tsize

def xuntext (s : Texts) (k : Fin ntext) : Option Texts := do
  let s ← s.xlock k
  if (s.text k).xCount ≠ 0 then return s.xunlock k
  else
    match (s.text k).xIptr with
    | none => none
    | some ip => do
      let s := s.setText k { s.text k with xLock := false, xIptr := none }
      let s ← s.freeTextSwap k
      return s.dropInode ip

/-! ## `slp.c` and `sys1.c` -/

/-- The part of `swapin` for the text, and whether it found core. -/
def swapinText (s : Texts) (k : Fin ntext) : Option (Bool × Texts) := do
  let s ← s.xlock k
  if (s.text k).xCcount = 0 then do
    let (x, s) ← s.mallocCore (s.text k).xSize
    if x = 0 then return (false, s.xunlock k)
    else
      let s := s.setText k { s.text k with xCaddr := x }
      let s := s.logCore k (.got (x, (s.text k).xSize))
      let s := s.setText k { s.text k with xCcount := (s.text k).xCcount + 1 }
      return (true, s.xunlock k)
  else
    let s := s.setText k { s.text k with xCcount := (s.text k).xCcount + 1 }
    return (true, s.xunlock k)

/-- The end of `swapin`, with the core `a` for the data. -/
def swapinData (s : Texts) (p : Fin nproc) (a : BitVec 16) : Option Texts := do
  let s ← s.mfreeSwap (ctod (s.proc p).size) (s.proc p).addr
  return s.setProc p { s.proc p with addr := a, load := true }

def swapin (s : Texts) (p : Fin nproc) : Option Texts := do
  let (a, s) ← s.mallocCore (s.proc p).size
  if a = 0 then return s
  else
    match (s.proc p).textp with
    | none => s.swapinData p a
    | some k => do
      let (done, s) ← s.swapinText k
      if done then s.swapinData p a else s.mfreeCore (s.proc p).size a

/-- The part of `newproc` for the text. -/
def shareText (s : Texts) : Option (Fin ntext) → Texts
  | none => s
  | some k =>
    s.setText k { s.text k with
      xCount := (s.text k).xCount + 1
      xCcount := (s.text k).xCcount + 1 }

/-- `newproc` of the process `p`, where `q` is the slot that it found. -/
def newproc (s : Texts) (p q : Fin nproc) : Option Texts := do
  let s := s.setProc q
    { s.proc q with
      stat := .live
      load := true
      textp := (s.proc p).textp
      size := (s.proc p).size
      cont := none }
  let s := s.shareText (s.proc p).textp
  let (a2, s) ← s.mallocCore (s.proc p).size
  if a2 = 0 then (s.setProc q { s.proc q with addr := (s.proc p).addr }).xswap q false 0
  else return s.setProc q { s.proc q with addr := a2 }

def expand (s : Texts) (p : Fin nproc) (newsize : BitVec 16) : Option Texts := do
  let n := (s.proc p).size
  let a1 := (s.proc p).addr
  let s := s.setProc p { s.proc p with size := newsize }
  if n.toInt ≥ newsize.toInt then s.mfreeCore (n - newsize) (a1 + newsize)
  else
    let (a2, s) ← s.mallocCore newsize
    if a2 = 0 then s.xswap p true n
    else (s.setProc p { s.proc p with addr := a2 }).mfreeCore n a1

/-- `exit`, as far as it frees core. -/
def exit (s : Texts) (p : Fin nproc) : Option Texts := do
  let s ← s.xfree p
  let s ← s.mfreeCore (s.proc p).size (s.proc p).addr
  return s.setProc p { s.proc p with stat := .zomb }

/-- A process that `xexpand` swapped out runs again. -/
def resume (s : Texts) (p : Fin nproc) : Option Texts :=
  match (s.proc p).cont with
  | none => none
  | some (.attach k) => some ((s.xunlock k).setProc p { s.proc p with cont := none })
  | some (.read k) => some ((s.readText k).setProc p { s.proc p with cont := none })

/-! ## Steps -/

/-- `swapout` is the end of `sched`; `wait` forgets a process that has ended, and `chmod` changes
the mode of an inode. -/
inductive Act where
  | xalloc (p : Fin nproc) (ip : Nat) (tsize : BitVec 16)
  | resume (p : Fin nproc)
  | newproc (p q : Fin nproc)
  | xfree (p : Fin nproc)
  | exit (p : Fin nproc)
  | wait (p : Fin nproc)
  | expand (p : Fin nproc) (newsize : BitVec 16)
  | swapout (p : Fin nproc)
  | swapin (p : Fin nproc)
  | xuntext (k : Fin ntext)
  | chmod (ip : Nat) (isvtx : Bool)

/-- The process is in core and may run, with no `xalloc` to end. -/
def Running (s : Texts) (p : Fin nproc) : Prop :=
  (s.proc p).stat = .live ∧ (s.proc p).load = true ∧ (s.proc p).cont.isNone

instance (s : Texts) (p : Fin nproc) : Decidable (s.Running p) := by
  unfold Running
  infer_instance

/-- When the kernel makes a step: `exec` calls `xalloc` after `xfree`, `swtch` runs a process that
is in core, `sched` swaps one in that is not, and out one that is; `xumount` and `xrele` look for
a slot that is in use. -/
def Enabled (s : Texts) : Act → Prop
  | .xalloc p _ _ => s.Running p ∧ (s.proc p).textp = none
  | .resume p => (s.proc p).stat = .live ∧ (s.proc p).load = true
  | .newproc p q => s.Running p ∧ (s.proc q).stat = .free
  | .xfree p => s.Running p
  | .exit p => s.Running p
  | .wait p => (s.proc p).stat = .zomb
  | .expand p _ => s.Running p
  | .swapout p => (s.proc p).stat = .live ∧ (s.proc p).load = true
  | .swapin p => (s.proc p).stat = .live ∧ (s.proc p).load = false
  | .xuntext k => (s.text k).xIptr.isSome
  | .chmod _ _ => True

instance (s : Texts) (a : Act) : Decidable (s.Enabled a) := by
  cases a <;> unfold Enabled <;> infer_instance

def act (s : Texts) : Act → Option Texts
  | .xalloc p ip tsize => s.xalloc p ip tsize
  | .resume p => s.resume p
  | .newproc p q => s.newproc p q
  | .xfree p => s.xfree p
  | .exit p => s.exit p
  | .wait p => some (s.setProc p { s.proc p with stat := .free, load := false })
  | .expand p newsize => s.expand p newsize
  | .swapout p => (s.setProc p { s.proc p with load := false }).xswap p true 0
  | .swapin p => s.swapin p
  | .xuntext k => s.xuntext k
  | .chmod ip b => some { s with isvtx := Function.update s.isvtx ip b }

def step (s : Texts) (a : Act) : Except Unit (Texts × Unit) :=
  if s.Enabled a then
    match s.act a with
    | none => .error ()
    | some s => .ok (s, ())
  else .error ()

end Texts

end Venix.Kernel
