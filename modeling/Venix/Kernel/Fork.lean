/-
  The identities of processes: `newproc` of `slp.c`, and `fork`, `exit` and `wait` of `sys1.c`.

  Of a process only its state, its owner and the ids count here. `fork` is given whether there is
  swap space for the largest image. The loop of `newproc` that looks for an id has a bound for its
  turns; past it, and on a panic, the result is `none`. A process takes its own pid as its group
  when it opens a terminal without one.
-/
import Venix.Kernel.Text

namespace Venix.Kernel

open Venix.Lib

structure PidProc where
  stat : PStat
  uid : BitVec 16
  pid : Int
  pgrp : Int
  ppid : Int
  deriving DecidableEq

structure Pids where
  proc : Fin nproc → PidProc
  mpid : Int

/-- `MAXUPRC` of `param.h`. -/
def maxuprc : Nat := 25

/-- What `fork` returns: an error, or the values in the parent and in the child. -/
inductive ForkRet where
  | enomem
  | eagain
  | ok (parent child : Int)
  deriving DecidableEq

namespace Pids

/-! ## `newproc` -/

/-- The loop of `newproc` over the table: whether `mpid` is taken, and the slot found so far. -/
def scanProcs (s : Pids) (mpid : Int) : List (Fin nproc) → Option (Fin nproc) →
    Bool × Option (Fin nproc)
  | [], p => (false, p)
  | rpp :: rest, p =>
    let p := if (s.proc rpp).stat = .free ∧ p = none then some rpp else p
    if (s.proc rpp).pid = mpid ∨ (s.proc rpp).pgrp = mpid then (true, p)
    else s.scanProcs mpid rest p

/-- `retry` of `newproc`: the id, and the slot. -/
def retry (s : Pids) : Nat → Int → Option (Fin nproc) → Option (Int × Option (Fin nproc))
  | 0, _, _ => none
  | fuel + 1, mpid, p =>
    let mpid := mpid + 1
    if mpid ≥ 30000 then s.retry fuel 0 p
    else
      match s.scanProcs mpid (List.finRange nproc) p with
      | (true, p) => s.retry fuel mpid p
      | (false, p) => some (mpid, p)

def retryBound : Nat := 30001

/-- `newproc` of the process `up`. -/
def newproc (s : Pids) (up : Fin nproc) : Option Pids := do
  let (mpid, p) ← s.retry retryBound s.mpid none
  match p with
  | none => none
  | some rpp =>
    let rip := s.proc up
    let child := { rip with stat := .live, pid := mpid, ppid := rip.pid }
    return { proc := Function.update s.proc rpp child, mpid := mpid }

/-! ## `fork`, `exit` and `wait` -/

/-- The loop of `fork`: how many processes the user has, and a slot for the child. -/
def forkScan (s : Pids) (uid : BitVec 16) : List (Fin nproc) → Nat → Option (Fin nproc) →
    Nat × Option (Fin nproc)
  | [], a, p2 => (a, p2)
  | p1 :: rest, a, p2 =>
    if (s.proc p1).stat = .free ∧ p2 = none then s.forkScan uid rest a (some p1)
    else if (s.proc p1).uid = uid ∧ (s.proc p1).stat ≠ .free then s.forkScan uid rest (a + 1) p2
    else s.forkScan uid rest a p2

/-- `fork` of the process `p1` for the user `uid`. -/
def fork (s : Pids) (p1 : Fin nproc) (uid : BitVec 16) (swap : Bool) : Option (ForkRet × Pids) :=
  if ¬swap then some (.enomem, s)
  else
    match s.forkScan uid (List.finRange nproc) 0 none with
    | (_, none) => some (.eagain, s)
    | (a, some p2) =>
      if uid ≠ 0 ∧ (p2.val = nproc - 1 ∨ a > maxuprc) then some (.eagain, s)
      else do
        let s' ← s.newproc p1
        return (.ok (s'.proc p2).pid (s.proc p1).pid, s')

/-- `exit`: the children go to the process 1. -/
def exit (s : Pids) (p : Fin nproc) : Pids :=
  let zomb := { s.proc p with stat := .zomb }
  let proc := Function.update s.proc p zomb
  { s with proc := fun q =>
      if (proc q).ppid = zomb.pid then { proc q with ppid := 1 } else proc q }

/-- `wait` of the process `p`, if it has a child that has ended; else it sleeps or fails. -/
def wait (s : Pids) (p : Fin nproc) : Pids :=
  match (List.finRange nproc).find? fun q =>
      (s.proc q).ppid = (s.proc p).pid ∧ (s.proc q).stat = .zomb with
  | none => s
  | some q =>
    let gone := { s.proc q with pid := 0, ppid := 0, pgrp := 0, stat := .free }
    { s with proc := Function.update s.proc q gone }

/-! ## Steps -/

inductive Act where
  | fork (p : Fin nproc) (uid : BitVec 16) (swap : Bool)
  | setpgrp (p : Fin nproc)
  | exit (p : Fin nproc)
  | wait (p : Fin nproc)

/-- The process that makes the step. -/
def Act.who : Act → Fin nproc
  | .fork p _ _ => p
  | .setpgrp p => p
  | .exit p => p
  | .wait p => p

def act (s : Pids) : Act → Option Pids
  | .fork p uid swap => (s.fork p uid swap).map (·.2)
  | .setpgrp p =>
    some { s with proc := Function.update s.proc p { s.proc p with pgrp := (s.proc p).pid } }
  | .exit p => some (s.exit p)
  | .wait p => some (s.wait p)

def step (s : Pids) (a : Act) : Except Unit (Pids × Unit) :=
  if (s.proc a.who).stat = .live then
    match s.act a with
    | none => .error ()
    | some s => .ok (s, ())
  else .error ()

/-- The table when `main` starts: the process 0 has the pid 0. -/
def boot : Pids :=
  { proc := fun p => ⟨if p.val = 0 then .live else .free, 0, 0, 0, 0⟩
    mpid := 0 }

end Pids

end Venix.Kernel
