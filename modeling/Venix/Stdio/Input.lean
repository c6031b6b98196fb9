/-
  The input of stdio (`filbuf.c`, `ungetc.c`, the macro `getc`), with the `fseek` and the `ftell` of
  `Stdio.Stream`, on one stream over a file that does not change.

  A store through a NULL `_base` or outside of the buffer gives `none`. A `read` gives what the file
  has at the offset of the descriptor, and fails at a negative offset.
-/
import Venix.Stdio.Stream

namespace Venix.Stdio.Input

open Function

/-- What a stream over `file` finds around it. -/
def env (file : List UInt8) : Env where
  stdout := false
  tty := false
  room := false
  size := fun _ => file.length

/-- What `read` stores. -/
def stored (file : List UInt8) (off : Int) (n : Nat) : List UInt8 :=
  if off < 0 then [] else (file.drop off.toNat).take n

/-- What `read` returns. -/
def readCount (file : List UInt8) (off : Int) (n : Nat) : Int :=
  if off < 0 then -1 else (stored file off n).length

/-- The buffer that `_filbuf` gets; `room` is whether `malloc` has room for one. -/
def buffered (room : Bool) (f : Iobuf) : Iobuf :=
  if f.base then f
  else if f.nbf then { f with base := true }
  else if room then
    { f with
      base := true
      mybuf := true }
  else
    { f with
      nbf := true
      base := true }

/-- The size of the buffer. -/
def bufsiz (f : Iobuf) : Nat := if f.nbf then 1 else BUFSIZ

/-- The `read` of `_filbuf`. -/
def fill (file : List UInt8) (w : World) : World :=
  let l := stored file w.d.off (bufsiz w.f)
  { w with
    f := { w.f with
      ptr := 0
      mem := fun i => l.getD i (w.f.mem i)
      cnt := readCount file w.d.off (bufsiz w.f) - 1 }
    d := { w.d with off := w.d.off + l.length } }

/-- The end of `_filbuf`, after the `read`. -/
def filbufEnd (w : World) : Int × World :=
  if w.f.cnt < 0 then
    let w : World := if w.f.cnt = -1 then
        { w with
          f := { w.f with
            eof := true
            read := w.f.read && !w.f.rw } }
      else { w with f := { w.f with err := true } }
    (EOF, { w with f := { w.f with cnt := 0 } })
  else ((w.f.mem 0).toNat, { w with f := { w.f with ptr := 1 } })

def filbuf (file : List UInt8) (room : Bool) (w : World) : Int × World :=
  let w : World := if w.f.rw then { w with f := { w.f with read := true } } else w
  if w.f.read = false ∨ w.f.strg then (EOF, w)
  else filbufEnd (fill file { w with f := buffered room w.f })

def getc (file : List UInt8) (room : Bool) (w : World) : Int × World :=
  let w : World := { w with f := { w.f with cnt := w.f.cnt - 1 } }
  if w.f.cnt ≥ 0 then ((w.f.mem w.f.ptr).toNat, { w with f := { w.f with ptr := w.f.ptr + 1 } })
  else filbuf file room w

/-- `_cnt++; *--_ptr = c`. -/
def push (c : Int) (f : Iobuf) : Option Iobuf :=
  if f.base ∧ 0 < f.ptr ∧ f.ptr ≤ bufsiz f then
    some { f with
      cnt := f.cnt + 1
      ptr := f.ptr - 1
      mem := update f.mem (f.ptr - 1) (char c) }
  else none

def ungetc (c : Int) (f : Iobuf) : Option (Int × Iobuf) :=
  if c = EOF then some (-1, f)
  else if f.read = false ∨ f.ptr = 0 then
    if f.ptr = 0 ∧ f.cnt = 0 then (push c { f with ptr := f.ptr + 1 }).map fun f => (0, f)
    else some (-1, f)
  else (push c f).map fun f => (0, f)

/-! ## Sequences of calls -/

inductive Call where
  | getc (room : Bool)
  | ungetc (c : Int)
  | fseek (offset ptrname : Int)
  | ftell
  deriving DecidableEq

/-- What a call returns, and the state after it. -/
def call (file : List UInt8) (w : World) : Call → Option (Option Int × World)
  | .getc room => some (some (getc file room w).1, (getc file room w).2)
  | .ungetc c => (ungetc c w.f).map fun r => (some r.1, { w with f := r.2 })
  | .fseek offset ptrname => some (fseek (env file) offset ptrname w)
  | .ftell => some (some (ftell (env file) w).1, (ftell (env file) w).2)

/-- What `getc` returns, called once for each of `rooms`. -/
def getcs (file : List UInt8) : List Bool → World → List Int
  | [], _ => []
  | room :: l, w => (getc file room w).1 :: getcs file l (getc file room w).2

/-! ## The stream as it is meant -/

/-- The byte of the file at an offset. -/
def byteAt (file : List UInt8) (p : Int) : Option UInt8 := if p < 0 then none else file[p.toNat]?

/-- A place in the file, and the characters that have been pushed back in front of it. -/
structure Reader where
  pos : Int
  pushed : List UInt8

/-- A byte as `getc` gives it. -/
def given (b : Option UInt8) : Int := (b.map fun b => (b.toNat : Int)).getD EOF

def Reader.getc (file : List UInt8) (t : Reader) : Int × Reader :=
  match t.pushed with
  | b :: l => (b.toNat, ⟨t.pos + 1, l⟩)
  | [] => (given (byteAt file t.pos), ⟨if (byteAt file t.pos).isSome then t.pos + 1 else t.pos, []⟩)

def Reader.ungetc (c : Int) (t : Reader) : Reader := ⟨t.pos - 1, char c :: t.pushed⟩

/-- Where a seek is to. -/
def Reader.target (file : List UInt8) (offset ptrname : Int) (t : Reader) : Int :=
  if ptrname = 1 then t.pos + offset else if ptrname = 2 then file.length + offset else offset

/-- A seek takes back what has been pushed. -/
def Reader.fseek (file : List UInt8) (offset ptrname : Int) (t : Reader) : Reader :=
  ⟨t.target file offset ptrname, []⟩

/-- What a call that has returned `r` means for the reader. -/
def Reader.call (file : List UInt8) (t : Reader) (r : Option Int) : Call → Reader
  | .getc _ => (t.getc file).2
  | .ungetc c => if r = some 0 then t.ungetc c else t
  | .fseek offset ptrname => t.fseek file offset ptrname
  | .ftell => t

/-- The file's bytes from `p` on, as `n` calls of `getc` give them. -/
def bytesFrom (file : List UInt8) (p : Int) (n : Nat) : List Int :=
  (List.range n).map fun k : Nat => if p < 0 then EOF else given (byteAt file (p + k))

end Venix.Stdio.Input
