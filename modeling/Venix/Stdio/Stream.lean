/-
  The output of stdio (`flsbuf.c`, `fseek.c`, `ftell.c`, the macros of `stdio.h`), on one stream and
  its descriptor.

  `_ptr` is kept as its distance from `_base`; `_base` only matters as NULL or not. A store through
  a NULL `_base` or past the buffer gives `none`. The descriptor keeps every byte that it gets with
  the offset at which it lands. A `write` is complete or, at a negative offset, fails; whether one
  has failed is kept. `lseek` fails on a pipe only.
-/
import Mathlib.Tactic

namespace Venix.Stdio

open Function

def BUFSIZ : Nat := 512

def EOF : Int := -1

/-- `struct _iobuf`. -/
structure Iobuf where
  ptr : Nat
  cnt : Int
  base : Bool
  mem : Nat → UInt8
  read : Bool
  wrt : Bool
  nbf : Bool
  mybuf : Bool
  eof : Bool
  err : Bool
  strg : Bool
  rw : Bool

/-- An open descriptor, and what it has received. -/
structure Desc where
  pipe : Bool
  off : Int
  got : List (Int × UInt8)

/-- What the stream finds around it: whether it is `stdout`, on a terminal, whether `malloc` has
room, and the size of the file after what the descriptor has received. -/
structure Env where
  stdout : Bool
  tty : Bool
  room : Bool
  size : List (Int × UInt8) → Int

structure World where
  f : Iobuf
  d : Desc
  failed : Bool

/-! ## System calls -/

/-- Bytes at consecutive offsets. -/
def placed : Int → List UInt8 → List (Int × UInt8)
  | _, [] => []
  | p, c :: l => (p, c) :: placed (p + 1) l

def write (w : World) (l : List UInt8) : Int × World :=
  if w.d.off < 0 then (-1, { w with failed := true })
  else (l.length, { w with
    d := { w.d with
      off := w.d.off + l.length
      got := w.d.got ++ placed w.d.off l } })

def lseek (e : Env) (d : Desc) (offset whence : Int) : Int × Desc :=
  if d.pipe then (-1, d)
  else
    let off := if whence = 1 then offset + d.off else if whence = 2 then offset + e.size d.got
      else offset
    (off, { d with off := off })

/-! ## `putc` -/

/-- The stored byte. -/
def char (c : Int) : UInt8 := UInt8.ofNat (c % 256).toNat

/-- The characters before `_ptr`. -/
def upto (f : Iobuf) (n : Nat) : List UInt8 := (List.range n).map f.mem

/-- The end of `_flsbuf`. -/
def flsbufEnd (c rn n : Int) (w : World) : Int × World :=
  if rn ≠ n then (EOF, { w with f := { w.f with err := true } }) else (c, w)

/-- `_cnt = BUFSIZ - 1; *base++ = c; _ptr = base`. -/
def first (c : Int) (w : World) : World :=
  { w with
    f := { w.f with
      cnt := BUFSIZ - 1
      mem := update w.f.mem 0 (char c)
      ptr := 1 } }

/-- `_flsbuf` from `tryagain` on, `k` times at most. -/
def tryagain (e : Env) (c : Int) : Nat → World → Option (Int × World)
  | 0, _ => none
  | k + 1, w =>
    if w.f.nbf then
      let (n, w) := write w [char c]
      some (flsbufEnd c 1 n { w with f := { w.f with cnt := 0 } })
    else if w.f.base = false then
      if e.stdout then
        if e.tty then tryagain e c k { w with f := { w.f with nbf := true } }
        else
          tryagain e c k { w with
            f := { w.f with
              base := true
              ptr := 0 } }
      else if e.room = false then tryagain e c k { w with f := { w.f with nbf := true } }
      else
        some (flsbufEnd c 0 0 (first c { w with
          f := { w.f with
            base := true
            mybuf := true } }))
    else if 0 < w.f.ptr then
      let rn := w.f.ptr
      let (n, w) := write { w with f := { w.f with ptr := 0 } } (upto w.f rn)
      some (flsbufEnd c rn n (first c w))
    else some (flsbufEnd c 0 0 (first c w))

def flsbuf (e : Env) (c : Int) (w : World) : Option (Int × World) :=
  tryagain e c 2 (if w.f.rw then
    { w with
      f := { w.f with
        wrt := true
        eof := false } }
    else w)

def putc (e : Env) (c : Int) (w : World) : Option (Int × World) :=
  let w : World := { w with f := { w.f with cnt := w.f.cnt - 1 } }
  if w.f.cnt ≥ 0 then
    if w.f.base ∧ w.f.ptr < BUFSIZ then
      some ((char c).toInt8.toInt, { w with
        f := { w.f with
          mem := update w.f.mem w.f.ptr (char c)
          ptr := w.f.ptr + 1 } })
    else none
  else flsbuf e c w

/-! ## `fflush` and `fclose` -/

def fflush (w : World) : Int × World :=
  if w.f.nbf = false ∧ w.f.wrt ∧ w.f.base ∧ 0 < w.f.ptr then
    let n := w.f.ptr
    let (r, w) := write { w with
      f := { w.f with
        ptr := 0
        cnt := BUFSIZ } } (upto w.f n)
    if r ≠ n then (EOF, { w with f := { w.f with err := true } }) else (0, w)
  else (0, w)

/-- The `close` of an open descriptor does not fail. -/
def fclose (w : World) : Int × World :=
  let (r, w) := if (w.f.read ∨ w.f.wrt ∨ w.f.rw) ∧ w.f.strg = false then
      let (r, w) := fflush w
      (r, if w.f.mybuf ∨ w.f.nbf then { w with f := { w.f with base := false } } else w)
    else (EOF, w)
  (r, { w with
    f := { w.f with
      read := false
      wrt := false
      nbf := false
      mybuf := false
      err := false
      eof := false
      strg := false
      rw := false
      cnt := 0 } })

/-! ## `fseek` and `ftell` -/

/-- The end of `fseek`; `p` has no value on a stream that is not open. -/
def fseekEnd (p : Option Int) : Option Int := p.map fun p => if p = -1 then -1 else 0

def fseek (e : Env) (offset ptrname : Int) (w : World) : Option Int × World :=
  let w : World := { w with f := { w.f with eof := false } }
  if w.f.read then
    let early := decide (ptrname < 2) && w.f.base && !w.f.nbf
    let c := w.f.cnt
    let p := if ptrname = 0 then offset + (c - (lseek e w.d 0 1).1) else offset
    let offset := if early && decide (ptrname ≠ 0) then offset - c else offset
    if early && !w.f.rw && decide (c > 0) && decide (p ≤ c) && decide (p ≥ -w.f.ptr) then
      (some 0, { w with
        f := { w.f with
          ptr := (w.f.ptr + p).toNat
          cnt := w.f.cnt - p } })
    else
      let w : World := if w.f.rw then
          { w with
            f := { w.f with
              ptr := 0
              read := false } }
        else w
      let (p, d) := lseek e w.d offset ptrname
      (fseekEnd (some p), { w with
        f := { w.f with cnt := 0 }
        d := d })
  else if w.f.wrt ∨ w.f.rw then
    let w := (fflush w).2
    let w : World := if w.f.rw then
        { w with
          f := { w.f with
            cnt := 0
            wrt := false
            ptr := 0 } }
      else w
    let (p, d) := lseek e w.d offset ptrname
    (fseekEnd (some p), { w with d := d })
  else (fseekEnd none, w)

def ftell (e : Env) (w : World) : Int × World :=
  let w : World := if w.f.cnt < 0 then { w with f := { w.f with cnt := 0 } } else w
  if w.f.read then
    let tres := (lseek e w.d 0 1).1
    if tres < 0 then (tres, w) else (tres - w.f.cnt, w)
  else if w.f.wrt ∨ w.f.rw then
    let adjust : Int := if w.f.wrt ∧ w.f.base ∧ w.f.nbf = false then w.f.ptr else 0
    let tres := (lseek e w.d 0 1).1
    if tres < 0 then (tres, w) else (tres + adjust, w)
  else (-1, w)

/-! ## Opening, and reading -/

/-- The end of `_endopen` with the mode `w`. -/
def endopen (f : Iobuf) : Iobuf :=
  { f with
    cnt := 0
    wrt := true }

/-- `_filbuf` of an input stream that has a buffer; `inp` is what the `read` gives. -/
def filbuf (inp : List UInt8) (f : Iobuf) : Int × Iobuf :=
  let f : Iobuf := { f with
    ptr := 0
    mem := fun i => inp.getD i (f.mem i)
    cnt := inp.length - 1 }
  if f.cnt < 0 then
    (EOF, { f with
      eof := true
      cnt := 0 })
  else ((f.mem 0).toNat, { f with ptr := 1 })

def getc (inp : List UInt8) (f : Iobuf) : Int × Iobuf :=
  let f : Iobuf := { f with cnt := f.cnt - 1 }
  if f.cnt ≥ 0 then ((f.mem f.ptr).toNat, { f with ptr := f.ptr + 1 }) else filbuf inp f

/-! ## Sequences of calls -/

inductive Op where
  | putc (c : Int)
  | fflush
  | fseek (offset ptrname : Int)
  | fclose
  deriving DecidableEq

def step (e : Env) (w : World) : Op → Option World
  | .putc c => (putc e c w).map Prod.snd
  | .fflush => some (fflush w).2
  | .fseek offset ptrname => some (fseek e offset ptrname w).2
  | .fclose => some (fclose w).2

def run (e : Env) (ops : List Op) (w : World) : Option World := ops.foldlM (step e) w

end Venix.Stdio
