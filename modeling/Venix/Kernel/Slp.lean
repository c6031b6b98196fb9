/-
  The queues of the processes (`slp.c`): `sleep`, `wakeup`, `setrq`, `setrun` and `swtch`.

  A process that sleeps is on one of the lists `slpque`, by its channel, and one that can run is on
  `runq`; both use the link `p_link`. The hash of a channel is any function here. A loop over a list
  that does not end, and a panic, are `none`; so is a chain of calls between `wakeup` and `setrun`
  that is deeper than the first argument says.

  `runout` and `runin` are set by the swapper before it sleeps on them. Which processes are in core
  changes at any time. `runrun`, `curpri` and the signals are left out.
-/
import Venix.Lib.Chain

namespace Venix.Kernel

open Venix.Lib

/-- `p_stat`; `free` is a slot that is not in use. -/
inductive Stat where
  | free
  | sleep
  | run
  | zomb
  | stop
  deriving DecidableEq

structure Procs (P Chan H : Type) where
  link : P → Option P
  slpque : H → Option P
  runq : Option P
  stat : P → Stat
  wchan : P → Option Chan
  load : P → Bool
  pri : P → Int
  runout : Bool
  runin : Bool
  /-- The process that runs; `none` while `swtch` looks for one. -/
  cur : Option P

/-- The hash, and the addresses of `runout` and `runin`. -/
structure Chans (Chan H : Type) where
  hash : Chan → H
  runout : Chan
  runin : Chan

variable {P Chan H : Type} [DecidableEq P] [DecidableEq Chan] [DecidableEq H] [Fintype P]

namespace Procs

def setWchan (s : Procs P Chan H) (p : P) (c : Option Chan) : Procs P Chan H :=
  { s with wchan := Function.update s.wchan p c }

def setStat (s : Procs P Chan H) (p : P) (st : Stat) : Procs P Chan H :=
  { s with stat := Function.update s.stat p st }

/-! ## `setrq`, `setrun` and `wakeup` -/

/-- The loop of `setrq`: whether `p` is on the queue. -/
def onQueue (s : Procs P Chan H) (p : P) : Nat → Option P → Option Bool
  | _, none => some false
  | 0, some _ => none
  | n + 1, some q => if q = p then some true else s.onQueue p n (s.link q)

/-- A process that is on the queue already is left there. -/
def setrq (s : Procs P Chan H) (p : P) : Option (Procs P Chan H) := do
  if ← s.onQueue p (Fintype.card P) s.runq then return s
  else return { s with link := Function.update s.link p s.runq, runq := some p }

/-- `setrun`, with the `wakeup` that it calls. -/
def setrun (ch : Chans Chan H) (wakeup : Chan → Procs P Chan H → Option (Procs P Chan H)) (p : P)
    (s : Procs P Chan H) : Option (Procs P Chan H) :=
  if s.stat p = .free ∨ s.stat p = .zomb then none
  else
    match s.wchan p with
    | some w => wakeup w s
    | none => do
      let s ← (s.setStat p .run).setrq p
      if s.runout ∧ ¬s.load p then wakeup ch.runout { s with runout := false } else return s

/-- Take a process out of its list, where `q` is the one before it. -/
def unlink (s : Procs P Chan H) (i : H) (q sp : Option P) : Procs P Chan H :=
  match q with
  | none => { s with slpque := Function.update s.slpque i sp }
  | some q => { s with link := Function.update s.link q sp }

/-- The loop of `wakeup`. -/
def wakeLoop (setrun : P → Procs P Chan H → Option (Procs P Chan H)) (chan : Chan) (i : H) :
    Nat → Option P → Option P → Procs P Chan H → Option (Procs P Chan H)
  | _, none, _, s => some s
  | 0, some _, _, _ => none
  | n + 1, some p, q, s =>
    if s.wchan p = some chan ∧ s.stat p ≠ .zomb then do
      let sp := s.link p
      let s ← setrun p ((s.unlink i q sp).setWchan p none)
      wakeLoop setrun chan i n sp q s
    else wakeLoop setrun chan i n (s.link p) (some p) s

omit [Fintype P] in
theorem wakeLoop_none (f : P → Procs P Chan H → Option (Procs P Chan H)) (chan : Chan) (i : H)
    (n : Nat) (q : Option P) (s : Procs P Chan H) : wakeLoop f chan i n none q s = some s := by
  cases n <;> rfl

omit [Fintype P] in
theorem wakeLoop_some (f : P → Procs P Chan H → Option (Procs P Chan H)) (chan : Chan) (i : H)
    (n : Nat) (p : P) (q : Option P) (s : Procs P Chan H) :
    wakeLoop f chan i (n + 1) (some p) q s =
      if s.wchan p = some chan ∧ s.stat p ≠ .zomb then
        (f p ((s.unlink i q (s.link p)).setWchan p none)).bind
          (wakeLoop f chan i n (s.link p) q)
      else wakeLoop f chan i n (s.link p) (some p) s :=
  rfl

def wakeup (ch : Chans Chan H) : Nat → Chan → Procs P Chan H → Option (Procs P Chan H)
  | 0, _, _ => none
  | d + 1, chan, s =>
    wakeLoop (setrun ch (wakeup ch d)) chan (ch.hash chan) (2 * Fintype.card P)
      (s.slpque (ch.hash chan)) none s

/-! ## `sleep` and `swtch` -/

def pzero : Int := 25

/-- The process `p` that runs goes on the list of `chan`. -/
def enqueue (ch : Chans Chan H) (s : Procs P Chan H) (p : P) (chan : Chan) (pri : Int) :
    Procs P Chan H :=
  let h := ch.hash chan
  { (s.setStat p .sleep).setWchan p (some chan) with
    pri := Function.update s.pri p pri
    link := Function.update s.link p (s.slpque h)
    slpque := Function.update s.slpque h (some p)
    cur := none }

/-- `sleep` of the process `p` that runs, up to `swtch`. -/
def sleep (ch : Chans Chan H) (d : Nat) (s : Procs P Chan H) (p : P) (chan : Chan) (pri : Int) :
    Option (Procs P Chan H) :=
  let s := s.enqueue ch p chan pri
  if pri > pzero ∧ s.runin then wakeup ch d ch.runin { s with runin := false } else some s

/-- The search of `swtch`: the process found so far with the one before it and its priority, and
the process before the next one. -/
def best (s : Procs P Chan H) : Nat → Option P → Option P → Option (P × Option P) → Int →
    Option (Option (P × Option P))
  | _, none, _, pp, _ => some pp
  | 0, some _, _, _, _ => none
  | k + 1, some p, q, pp, n =>
    if s.stat p = .run ∧ s.load p ∧ s.pri p < n then
      s.best k (s.link p) (some p) (some (p, q)) (s.pri p)
    else s.best k (s.link p) (some p) pp n

/-- `swtch` once no process runs; it looks again if it finds none. -/
def swtch (s : Procs P Chan H) : Option (Procs P Chan H) :=
  match s.best (Fintype.card P) s.runq none none 128 with
  | none => none
  | some none => some s
  | some (some (p, none)) => some { s with runq := s.link p, cur := some p }
  | some (some (p, some q)) =>
    some { s with link := Function.update s.link q (s.link p), cur := some p }

/-! ## Steps -/

/-- What happens to the queues. `newproc`, `exit`, `wait` and `stop` are the ways a process starts,
ends, is forgotten and is stopped; `load` is the work of the swapper. -/
inductive Act (P Chan : Type) where
  | sleep (chan : Chan) (pri : Int)
  | wakeup (chan : Chan)
  | setrun (p : P)
  | swtch
  | qswtch
  | runout
  | runin
  | load (p : P) (b : Bool)
  | setpri (p : P) (n : Int)
  | newproc (p : P)
  | exit
  | wait (p : P)
  | stop

inductive Stop where
  | disabled
  | lost
  deriving DecidableEq

def ofOption (o : Option (Procs P Chan H)) : Except Stop (Procs P Chan H × Unit) :=
  match o with
  | none => .error .lost
  | some s => .ok (s, ())

def step (ch : Chans Chan H) (d : Nat) (s : Procs P Chan H) :
    Act P Chan → Except Stop (Procs P Chan H × Unit)
  | .sleep chan pri =>
    match s.cur with
    | none => .error .disabled
    | some p => ofOption (s.sleep ch d p chan pri)
  | .wakeup chan => ofOption (wakeup ch d chan s)
  | .setrun p =>
    if s.stat p = .free ∨ s.stat p = .zomb then .error .disabled
    else ofOption (setrun ch (wakeup ch d) p s)
  | .swtch => if s.cur = none then ofOption s.swtch else .error .disabled
  | .qswtch =>
    match s.cur with
    | none => .error .disabled
    | some p => ofOption (({ s with cur := none }).setrq p)
  | .runout => .ok ({ s with runout := true }, ())
  | .runin => .ok ({ s with runin := true }, ())
  | .load p b => .ok ({ s with load := Function.update s.load p b }, ())
  | .setpri p n => .ok ({ s with pri := Function.update s.pri p n }, ())
  | .newproc p =>
    if s.stat p = .free then ofOption ((s.setStat p .run).setrq p) else .error .disabled
  | .exit =>
    match s.cur with
    | none => .error .disabled
    | some p => .ok ({ s.setStat p .zomb with cur := none }, ())
  | .wait p => if s.stat p = .zomb then .ok (s.setStat p .free, ()) else .error .disabled
  | .stop =>
    match s.cur with
    | none => .error .disabled
    | some p => .ok ({ s.setStat p .stop with cur := none }, ())

end Procs

end Venix.Kernel
