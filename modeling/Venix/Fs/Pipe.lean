/-
  Pipes (`pipe.c`): `readp`, `writep`, `plock` and `prele` on one pipe, by any number of processes.

  A step takes a process from one point where it may sleep to the next: the start of the loop,
  where it waits for the lock, and the transfer, where it has the lock and may wait for the disk.
  The transfer is `readi` or `writei` on the inode. What a step moved is read off the memory of
  the process: for a read the bytes that are there after it, for a write those there before it.

  `ILOCK`, `IWANT`, `IREAD` and `IWRITE` are fields of their own. `close` is the part of `closef`
  that the others see, for a side that is not the last.
-/
import Venix.Fs.Rdwri

namespace Venix.Fs

open Venix.Lib

def pipsiz : Nat := 4096

/-- What a process sleeps on: the inode, and the addresses after it for writers and readers. -/
inductive PipeChan where
  | inode | writers | readers
  deriving DecidableEq

/-- Where a process is. `loop` is before `plock`, and `io` has the lock. -/
inductive PipePc where
  | idle | readLoop | readIo | writeLoop | writeIo
  deriving DecidableEq

/-- A process: `u` and `err` are its user structure, and `c` the variable of `writep`. -/
structure PipeProc where
  pc : PipePc
  asleep : Option PipeChan
  u : User
  err : Option Errno
  c : Nat

structure Pipe (P : Type) where
  v : Vol
  ip : Inode
  lock : Bool
  want : Bool
  iread : Bool
  iwrite : Bool
  count : Nat
  offset : Int
  proc : P → PipeProc

/-- What a step moved, and the error if there was one. -/
inductive PipeOut (P : Type) where
  | got (p : P) (bytes : List Byte) (err : Option Errno)
  | put (p : P) (bytes : List Byte) (err : Option Errno)
  | epipe (p : P)

variable {P : Type} [DecidableEq P]

namespace Pipe

def setProc (s : Pipe P) (p : P) (q : PipeProc) : Pipe P :=
  { s with proc := Function.update s.proc p q }

def setPc (s : Pipe P) (p : P) (pc : PipePc) : Pipe P :=
  s.setProc p { s.proc p with pc := pc }

def sleep (s : Pipe P) (p : P) (chan : PipeChan) : Pipe P :=
  s.setProc p { s.proc p with asleep := some chan }

def wakeup (s : Pipe P) (chan : PipeChan) : Pipe P :=
  { s with proc := fun p =>
      if (s.proc p).asleep = some chan then { s.proc p with asleep := none } else s.proc p }

def prele (s : Pipe P) : Pipe P :=
  let s := { s with lock := false }
  if s.want then wakeup { s with want := false } .inode else s

/-- One turn of the loop of `plock`: sleep, or take the lock and go on with `next`. -/
def plock (s : Pipe P) (p : P) (next : Pipe P → Pipe P × Option (PipeOut P)) :
    Pipe P × Option (PipeOut P) :=
  if s.lock then (sleep { s with want := true } p .inode, none) else next { s with lock := true }

/-! ## `readp` -/

/-- After the lock: wait where the pipe is empty. -/
def readLoop (s : Pipe P) (p : P) : Pipe P × Option (PipeOut P) :=
  if s.ip.iSize = 0 then
    let s := s.prele
    if s.count < 2 then (s.setPc p .idle, none)
    else (sleep { s with iread := true } p .readers, none)
  else (s.setPc p .readIo, none)

/-- The bytes that a transfer moved to or from the memory `m`: `u` was the request before it, and
    `u'` is what is left of it. -/
def moved (m u u' : User) : List Byte :=
  (List.range (u.uCount - u'.uCount)).map fun j => (m.core u.uSegflg (u.uBase + j)).getD 0

/-- After the transfer `r` for the request `u`: a reader that has caught up with the writers resets
    the offset and the size. -/
def readEnd (s : Pipe P) (p : P) (u : User) (r : Rw) : Pipe P × Option (PipeOut P) :=
  let s := { s with v := r.v, ip := r.ip, offset := r.u.uOffset }
  let s : Pipe P := s.setProc p { s.proc p with pc := .idle, u := r.u, err := r.v.uError }
  let s :=
    if s.offset = s.ip.iSize then
      let s := { s with offset := 0, ip := { s.ip with iSize := 0 } }
      if s.iwrite then wakeup { s with iwrite := false } .writers else s
    else s
  (s.prele, some (.got p (moved r.u u r.u) r.v.uError))

def readIo (d : Dev) (rdisk : Daddr → Block) (s : Pipe P) (p : P) : Pipe P × Option (PipeOut P) :=
  let q := s.proc p
  let u := { q.u with uOffset := s.offset }
  s.readEnd p u (readi d ⟨{ s.v with uError := q.err }, s.ip, u, rdisk⟩)

/-! ## `writep` -/

/-- After the lock: return if all is written or nobody reads, wait where the pipe is full. -/
def writeLoop (s : Pipe P) (p : P) : Pipe P × Option (PipeOut P) :=
  if (s.proc p).c = 0 then
    let s := s.prele
    let q := s.proc p
    (s.setProc p { q with pc := .idle, u := { q.u with uCount := 0 } }, none)
  else if s.count < 2 then (s.prele.setPc p .idle, some (.epipe p))
  else if s.ip.iSize ≥ pipsiz then (sleep (prele { s with iwrite := true }) p .writers, none)
  else (s.setPc p .writeIo, none)

def writeEnd (s : Pipe P) (p : P) (u : User) (r : Rw) : Pipe P × Option (PipeOut P) :=
  let q := s.proc p
  let q := { q with pc := .writeLoop, u := r.u, err := r.v.uError, c := q.c - u.uCount }
  let s : Pipe P := setProc { s with v := r.v, ip := r.ip } p q
  let s := s.prele
  let s := if s.iread then wakeup { s with iread := false } .readers else s
  (s, some (.put p (moved u u r.u) r.v.uError))

def writeIo (d : Dev) (rdisk : Daddr → Block) (s : Pipe P) (p : P) : Pipe P × Option (PipeOut P) :=
  let q := s.proc p
  let u := { q.u with uOffset := s.ip.iSize, uCount := min q.c pipsiz }
  s.writeEnd p u (writei d ⟨{ s.v with uError := q.err }, s.ip, u, rdisk⟩)

/-! ## Steps -/

inductive Act (P : Type) where
  | read (p : P) (u : User)
  | write (p : P) (u : User)
  | run (p : P) (d : Dev) (rdisk : Daddr → Block)
  | close

inductive Stop where
  | disabled
  deriving DecidableEq

def step (s : Pipe P) : Act P → Except Stop (Pipe P × Option (PipeOut P))
  | .read p u =>
    if (s.proc p).pc = .idle then .ok (s.setProc p ⟨.readLoop, none, u, none, 0⟩, none)
    else .error .disabled
  | .write p u =>
    if (s.proc p).pc = .idle then .ok (s.setProc p ⟨.writeLoop, none, u, none, u.uCount⟩, none)
    else .error .disabled
  | .run p d rdisk =>
    if (s.proc p).asleep.isSome then .error .disabled
    else
      match (s.proc p).pc with
      | .idle => .error .disabled
      | .readLoop => .ok (s.plock p fun s => s.readLoop p)
      | .readIo => .ok (s.readIo d rdisk p)
      | .writeLoop => .ok (s.plock p fun s => s.writeLoop p)
      | .writeIo => .ok (s.writeIo d rdisk p)
  | .close =>
    if s.lock ∨ s.count < 2 then .error .disabled
    else
      let s := { s with iread := false, iwrite := false, count := s.count - 1 }
      .ok (((s.wakeup .writers).wakeup .readers).prele, none)

end Pipe

end Venix.Fs
