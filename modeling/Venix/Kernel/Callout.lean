/-
  Callouts: `timeout` and the part of `clock` that runs what it has put in the table (`clock.c`).

  The table is an array with an entry without a function at its end; each time is the number of
  ticks after the entry before. An index beyond the array is `overflow`. What a callout does is
  any list of further calls of `timeout`, and a tick says what each of its callouts does. A tick
  does not come while another is at work.

  The code does not look at `reg`: it is the call of `timeout` that an entry comes from. `now`,
  `regs`, `lows` and `ran` say what has happened: the number of ticks, the calls of `timeout`, the
  ticks at low priority, and the callouts that were run, each with its tick.
-/
import Venix.Lib.Run

namespace Venix.Kernel

open Venix.Lib

def ncall : Nat := 20

/-- A call of `timeout`, with its number and the number of ticks before it. -/
structure Reg (F A : Type) where
  id : Nat
  since : Nat
  t : Int
  func : F
  arg : A
  deriving DecidableEq

structure Callo (F A : Type) where
  time : Int
  func : Option F
  arg : A
  reg : Reg F A

/-- A callout that was run, and at which tick. -/
structure Ran (F A : Type) where
  tick : Nat
  func : F
  arg : A
  reg : Reg F A
  deriving DecidableEq

structure Clock (F A : Type) where
  callout : Nat → Callo F A
  now : Nat
  regs : List (Reg F A)
  lows : List Nat
  ran : List (Ran F A)

inductive ClockStop where
  | panic
  | overflow
  deriving DecidableEq

variable {F A : Type}

/-- A call of `timeout`: function, argument and time. -/
abbrev Call (F A : Type) : Type := F × A × Int

namespace Clock

/-! ## `timeout` -/

/-- The entry to put the new one before, and what is left of the time there. -/
def place (c : Nat → Callo F A) : Nat → Nat → Int → Option (Nat × Int)
  | 0, _, _ => none
  | n + 1, p, t =>
    if (c p).func.isSome ∧ (c p).time ≤ t then place c n (p + 1) (t - (c p).time) else some (p, t)

/-- The end of the table. -/
def last (c : Nat → Callo F A) : Nat → Nat → Option Nat
  | 0, _ => none
  | n + 1, p => if (c p).func.isSome then last c n (p + 1) else some p

/-- Move `k` entries, from `p1` on, up by one, the last first. -/
def moveUp (c : Nat → Callo F A) (p1 : Nat) : Nat → Nat → Callo F A
  | 0 => c
  | k + 1 => moveUp (Function.update c (p1 + k + 1) (c (p1 + k))) p1 k

/-- The call as it is noted. -/
def newReg (s : Clock F A) (x : Call F A) : Reg F A := ⟨s.regs.length, s.now, x.2.2, x.1, x.2.1⟩

def timeout (s : Clock F A) (x : Call F A) : Except ClockStop (Clock F A) :=
  match place s.callout ncall 0 x.2.2 with
  | none => .error .overflow
  | some (p1, t) =>
    if p1 ≥ ncall - 1 then .error .panic
    else
      let c := Function.update s.callout p1
        { s.callout p1 with time := (s.callout p1).time - t }
      match last c ncall p1 with
      | none => .error .overflow
      | some p2 =>
        if p2 + 1 ≥ ncall then .error .overflow
        else
          let c := moveUp c p1 (p2 + 1 - p1)
          .ok { s with
            callout := Function.update c p1 ⟨t, some x.1, x.2.1, s.newReg x⟩
            regs := s.regs ++ [s.newReg x] }

/-! ## `clock` -/

/-- The first entry with time left, or the end. -/
def firstLeft (c : Nat → Callo F A) : Nat → Nat → Option Nat
  | 0, _ => none
  | n + 1, p =>
    if (c p).time ≤ 0 ∧ (c p).func.isSome then firstLeft c n (p + 1) else some p

def timeouts (s : Clock F A) : List (Call F A) → Except ClockStop (Clock F A)
  | [] => .ok s
  | x :: xs =>
    match s.timeout x with
    | .error e => .error e
    | .ok s => s.timeouts xs

/-- Run the callouts at the start of the table; `calls` is what each of them does. -/
def callouts : Nat → Nat → List (List (Call F A)) → Clock F A →
    Except ClockStop (Nat × Clock F A)
  | 0, _, _, _ => .error .overflow
  | n + 1, p1, calls, s =>
    match (s.callout p1).func with
    | none => .ok (p1, s)
    | some f =>
      if (s.callout p1).time ≤ 0 then
        let run : Ran F A := ⟨s.now, f, (s.callout p1).arg, (s.callout p1).reg⟩
        match timeouts { s with ran := s.ran ++ [run] } calls.head?.toList.flatten with
        | .error e => .error e
        | .ok s => callouts n (p1 + 1) calls.tail s
      else .ok (p1, s)

/-- Move the entries from `p1` on down to `p2`. -/
def moveDown (c : Nat → Callo F A) : Nat → Nat → Nat → Option (Nat → Callo F A)
  | 0, _, _ => none
  | n + 1, p1, p2 =>
    match (c p1).func with
    | none => some (Function.update c p2 { c p2 with func := none })
    | some _ => moveDown (Function.update c p2 (c p1)) n (p1 + 1) (p2 + 1)

def clock (low : Bool) (calls : List (List (Call F A))) (s : Clock F A) :
    Except ClockStop (Clock F A) :=
  let s := { s with
    now := s.now + 1
    lows := if low then s.lows ++ [s.now + 1] else s.lows }
  if (s.callout 0).func.isNone then .ok s
  else
    match firstLeft s.callout ncall 0 with
    | none => .error .overflow
    | some p2 =>
      let c := Function.update s.callout p2 { s.callout p2 with time := (s.callout p2).time - 1 }
      let s := { s with callout := c }
      if low ∧ (s.callout 0).time ≤ 0 then
        match callouts ncall 0 calls s with
        | .error e => .error e
        | .ok (p1, s) =>
          match moveDown s.callout ncall p1 0 with
          | none => .error .overflow
          | some c => .ok { s with callout := c }
      else .ok s

/-! ## Steps -/

inductive Act (F A : Type) where
  | timeout (x : Call F A)
  | clock (low : Bool) (calls : List (List (Call F A)))

def step (s : Clock F A) : Act F A → Except ClockStop (Clock F A × Unit)
  | .timeout x => (s.timeout x).map fun s => (s, ())
  | .clock low calls => (clock low calls s).map fun s => (s, ())

end Clock

end Venix.Kernel
