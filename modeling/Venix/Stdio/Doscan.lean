/-
  The formatted input of stdio (`doscan.c`), on a machine whose `int` has 16 bits and whose `char`
  is signed.

  A stream is the list of the bytes that are left; `getc` of an empty one is `EOF`, and `ungetc`
  puts a byte back. A format is the list of the characters before its NUL; a pointer into it is the
  list of those that are left, or `none` when it is past the NUL. An index outside `_sctab` or
  `numbuf`, and a read of the format past its NUL, end the program: `none`. What is stored through
  the arguments is kept as a list.
-/
import Venix.Lib.Loop

namespace Venix.Stdio

open Venix.Lib

/-- `isdigit` and `isupper`. The table that they look into is for `EOF` and 0..127; what they find
for other characters is outside it. -/
structure Ctype where
  digit : Int → Bool
  upper : Int → Bool
  digit_ascii : ∀ c, -1 ≤ c → c < 128 → (digit c = true ↔ 48 ≤ c ∧ c ≤ 57)
  upper_ascii : ∀ c, -1 ≤ c → c < 128 → (upper c = true ↔ 65 ≤ c ∧ c ≤ 90)

def tolower (c : Int) : Int := c - 65 + 97

def SPC : UInt8 := 1

def STP : UInt8 := 2

/-- `_sctab`. -/
abbrev Sctab := Fin 128 → UInt8

/-- `_sctab[b]`. -/
def look (tab : Sctab) (b : UInt8) : Option UInt8 :=
  if h : b.toNat < 128 then some (tab ⟨b.toNat, h⟩) else none

inductive Size where
  | short
  | regular
  | long
  deriving DecidableEq

/-- What is stored through an argument. -/
inductive Stored where
  | short (v : Int16)
  | int (v : Int16)
  | long (v : Int32)
  | float (numbuf : List UInt8)
  | double (numbuf : List UInt8)
  | chars (l : List UInt8)

/-! ## `_getccl` -/

/-- The loop over all characters. -/
def setClass (t : Bool) (tab : Sctab) : Sctab := fun c =>
  if t then tab c &&& ~~~STP else tab c ||| STP

def enter (t : Bool) (tab : Sctab) (c : Fin 128) : Sctab :=
  Function.update tab c (if t then tab c ||| STP else tab c &&& ~~~STP)

/-- The loop up to `]`. At the NUL the character 0 is entered, `c` is 1 then, and the loop goes on
past it; only the character -1, which is no index, makes `c` 0. -/
def getcclLoop (t : Bool) : List Int8 → Sctab → Option (List Int8 × Sctab)
  | [], _ => none
  | c :: s, tab =>
    if c &&& 0o177 = 93 then some (s, tab)
    else if h : 0 ≤ c.toInt then
      getcclLoop t s (enter t tab ⟨c.toInt.toNat, by have := c.toInt_lt; omega⟩)
    else none

def getccl (s : List Int8) (tab : Sctab) : Option (List Int8 × Sctab) :=
  if s.head? = some 94 then getcclLoop true s.tail (setClass true tab)
  else getcclLoop false s (setClass false tab)

/-! ## `_instr` -/

/-- The first loop; the character that it ends with is left in front. For `EOF` the table is
looked into before it is tested. -/
def instrSkip (tab : Sctab) (ignstp : UInt8) : List UInt8 → Option (List UInt8)
  | [] => none
  | b :: inp => do
    let v ← look tab b
    if v &&& ignstp ≠ 0 then instrSkip tab ignstp inp else return b :: inp

/-- The second loop, with the characters stored, the length that is left and the last `ch`. -/
def instrLoop (tab : Sctab) (ignstp : UInt8) : List UInt8 → Int16 → List UInt8 →
    Option (List UInt8 × Int16 × Option UInt8 × List UInt8)
  | [], len, out => some (out, len, none, [])
  | b :: inp, len, out => do
    let v ← look tab b
    if v &&& ignstp ≠ 0 then return (out, len, some b, inp)
    else if len - 1 ≤ 0 then return (out ++ [b], len - 1, some b, inp)
    else instrLoop tab ignstp inp (len - 1) (out ++ [b])

/-- What `_innum` and `_instr` return, `*eofptr`, what they store and what is left of the
stream. -/
structure Conv where
  result : Bool
  eof : Bool
  stored : Option Stored
  inp : List UInt8

/-- `ptr` says whether there is an argument. -/
def instr (tab : Sctab) (ptr : Bool) (type : Int) (len : Int16) (inp : List UInt8) :
    Option Conv := do
  let len := if type = 99 ∧ len = 30000 then 1 else len
  let inp ← instrSkip tab (if type = 115 then SPC else 0) inp
  let (out, len, ch, inp) ←
    instrLoop tab (if type = 99 then 0 else if type = 91 then STP else SPC) inp len []
  let stored := ptr && out ≠ []
  return {
    result := stored
    eof := ch.isNone
    stored := if stored then some (.chars (if type = 99 then out else out ++ [0])) else none
    inp := match ch with
      | some b => if 0 < len then b :: inp else inp
      | none => inp }

/-! ## `_innum` -/

/-- `*np++ = c`. -/
def put (numbuf : List UInt8) (c : UInt8) : Option (List UInt8) :=
  if numbuf.length < 64 then some (numbuf ++ [c]) else none

/-- The variables of the loop. -/
structure Num where
  numbuf : List UInt8
  ndigit : Nat
  expseen : Bool
  lcval : Int32

def isHex (c : UInt8) : Bool := (97 ≤ c ∧ c ≤ 102) ∨ (65 ≤ c ∧ c ≤ 70)

def addDigit (base : Nat) (lcval : Int32) (c : UInt8) : Int32 :=
  let lcval :=
    if base = 8 then lcval <<< 3 else if base = 10 then ((lcval <<< 2) + lcval) <<< 1
    else lcval <<< 4
  let c := Int32.ofNat c.toNat
  lcval + (if 48 ≤ c ∧ c ≤ 57 then c - 48 else if 97 ≤ c ∧ c ≤ 102 then c - (97 - 10)
    else c - (65 - 10))

def isExp (c : UInt8) : Bool := c = 101 ∨ c = 69

/-- What may come after an `e`. -/
def signOrDigit (c : UInt8) : Bool := c = 43 ∨ c = 45 ∨ (48 ≤ c ∧ c ≤ 57)

/-- The loop, from `--len>=0` on; `c` is in front of the stream. `EOF` is none of the characters
that it looks for. -/
def innumLoop (ct : Ctype) (base : Nat) (float : Bool) : List UInt8 → Int16 → Num →
    Option (Num × List UInt8)
  | [], _, s => some (s, [])
  | c :: inp, len, s =>
    if len - 1 < 0 then some (s, c :: inp)
    else if ct.digit c.toNat ∨ (base = 16 ∧ isHex c) then do
      let numbuf ← put s.numbuf c
      innumLoop ct base float inp (len - 1) {
        numbuf := numbuf
        ndigit := s.ndigit + 1
        expseen := s.expseen
        lcval := addDigit base s.lcval c }
    else if c = 46 then
      if base ≠ 10 ∨ !float then some (s, c :: inp)
      else do
        let numbuf ← put s.numbuf c
        innumLoop ct base float inp (len - 1) {
          s with
          numbuf := numbuf
          ndigit := s.ndigit + 1 }
    else if isExp c ∧ !s.expseen then
      if base ≠ 10 ∨ !float ∨ s.ndigit = 0 then some (s, c :: inp)
      else do
        let numbuf ← put s.numbuf c
        let s : Num :=
          { s with
            numbuf := numbuf
            expseen := true }
        match inp with
        | [] => some (s, [])
        | c₁ :: inp =>
          if !signOrDigit c₁ then some (s, c₁ :: inp)
          else do
            let numbuf ← put s.numbuf c₁
            innumLoop ct base float inp (len - 1) { s with numbuf := numbuf }
    else some (s, c :: inp)

def isBlank (c : UInt8) : Bool := c = 32 ∨ c = 9 ∨ c = 10

/-- The sign: `numbuf`, `len`, `negflg` and what is left of the stream. -/
def innumSign (len : Int16) (inp : List UInt8) : List UInt8 × Int16 × Bool × List UInt8 :=
  match inp with
  | [] => ([], len, false, [])
  | c :: inp =>
    if c = 45 then ([c], len - 1, true, inp)
    else if c = 43 then ([], len - 1, false, inp)
    else ([], len, false, c :: inp)

/-- `scale==FLOAT`. -/
def isFloat (type : Int) : Bool := type = 101 ∨ type = 102

def baseOf (type : Int) : Nat := if type = 111 then 8 else if type = 120 then 16 else 10

def innum (ct : Ctype) (tab : Sctab) (ptr : Bool) (type : Int) (len : Int16) (size : Size)
    (inp : List UInt8) : Option Conv :=
  if type = 99 ∨ type = 115 ∨ type = 91 then instr tab ptr type len inp
  else do
    let (numbuf, len, negflg, inp) := innumSign len (inp.dropWhile isBlank)
    let (s, inp) ← innumLoop ct (baseOf type) (isFloat type) inp len ⟨numbuf, 0, false, 0⟩
    let lcval := if negflg then -s.lcval else s.lcval
    if !ptr ∨ s.numbuf = [] then
      return {
        result := false
        eof := inp = []
        stored := none
        inp := inp }
    else
      let numbuf ← put s.numbuf 0
      return {
        result := true
        eof := inp = []
        stored := some (
          if isFloat type then
            match size with
            | .long => .double numbuf
            | _ => .float numbuf
          else
            match size with
            | .short => .short lcval.toInt16
            | .regular => .int lcval.toInt16
            | .long => .long lcval)
        inp := inp }

/-! ## `_doscan` -/

/-- `*fmt++`: the character and the pointer after it. -/
def next : Option (List Int8) → Option (Int × Option (List Int8))
  | none => none
  | some [] => some (0, none)
  | some (c :: fmt) => some (c.toInt, some fmt)

/-- The loop over the digits of a width; `ch` has been read. -/
def width (ct : Ctype) : List Int8 → Int → Int16 → Option (Int × Option (List Int8) × Int16)
  | fmt, ch, len =>
    if ct.digit ch then
      let len := len * 10 + Int16.ofInt ch - 48
      match fmt with
      | [] => if ct.digit 0 then none else some (0, none, len)
      | c :: fmt => width ct fmt c.toInt len
    else some (ch, some fmt, len)

structure Scan where
  fmt : Option (List Int8)
  inp : List UInt8
  tab : Sctab
  nmatch : Nat
  out : List Stored

/-- `def:`; `fmt` is the pointer after `ch`. -/
def literal (s : Scan) (ch : Int) (fmt : Option (List Int8)) :
    Turn Scan (Int × Scan) :=
  match s.inp with
  | [] => .done (-1, s)
  | ch₁ :: inp =>
    if (ch₁.toNat : Int) ≠ ch then .done (s.nmatch, s)
    else .more
      { s with
        fmt := fmt
        inp := inp }

/-- From the `isupper` on: `fmt`, `ch`, `size` and the table are those of the directive. -/
def convert (ct : Ctype) (s : Scan) (ptr : Bool) (ch : Int) (len : Int16) (size : Size)
    (fmt : Option (List Int8)) (tab : Sctab) : Option (Turn Scan (Int × Scan)) := do
  let (ch, size) := if ct.upper ch then (tolower ch, Size.long) else (ch, size)
  if ch = 0 then return .done (-1, s)
  let r ← innum ct tab ptr ch len size s.inp
  let s : Scan :=
    { fmt := fmt
      inp := r.inp
      tab := tab
      nmatch := if r.result ∧ ptr then s.nmatch + 1 else s.nmatch
      out := s.out ++ r.stored.toList }
  if r.eof then return .done (if s.nmatch ≠ 0 then s.nmatch else -1, s)
  return .more s

/-- After the width. -/
def modifier (ct : Ctype) (s : Scan) (ptr : Bool) (ch : Int) (len : Int16)
    (fmt : Option (List Int8)) : Option (Turn Scan (Int × Scan)) := do
  let len := if len = 0 then 30000 else len
  if ch = 108 then
    let (ch, fmt) ← next fmt
    convert ct s ptr ch len .long fmt s.tab
  else if ch = 104 then
    let (ch, fmt) ← next fmt
    convert ct s ptr ch len .short fmt s.tab
  else if ch = 91 then
    let (fmt, tab) ← getccl (← fmt) s.tab
    convert ct s ptr ch len .regular (some fmt) tab
  else convert ct s ptr ch len .regular fmt s.tab

/-- After the `%`. -/
def percent (ct : Ctype) (s : Scan) (fmt : Option (List Int8)) : Option (Turn Scan (Int × Scan)) := do
  let (ch, fmt) ← next fmt
  if ch = 37 then return literal s ch fmt
  else
    let (ch, fmt, ptr) ← (if ch ≠ 42 then some (ch, fmt, true)
      else (next fmt).map fun r => (r.1, r.2, false))
    -- a NUL is no digit, so the loop is not entered past it
    match fmt with
    | none => if ct.digit ch then none else modifier ct s ptr ch 0 none
    | some rest =>
      let (ch, fmt, len) ← width ct rest ch 0
      modifier ct s ptr ch len fmt

/-- One turn of the loop. -/
def turn (ct : Ctype) (s : Scan) : Option (Turn Scan (Int × Scan)) := do
  let (ch, fmt) ← next s.fmt
  if ch = 0 then return .done (s.nmatch, s)
  else if ch = 37 then percent ct s fmt
  else if ch = 32 ∨ ch = 10 ∨ ch = 9 then
    return .more
      { s with
        fmt := fmt
        inp := s.inp.dropWhile isBlank }
  else return literal s ch fmt

end Venix.Stdio
