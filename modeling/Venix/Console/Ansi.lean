/-
  The interpreter of ANSI X3.64 sequences of the console window (`ansi.c`).

  `ansi` takes a buffer of bytes. In the state `norm` the printable ones go to `rastex`, which stops
  at a control character or at the right edge; the others move the parser, whose state, parameter
  index and parameters stay in the window from one call to the next. `rastex` draws one character
  after the other, as far as the parser can see, so it is given here by what one character does.
  The functions of the tables act on the screen and see at most the parameters below `w_nparam`.
-/
import Mathlib.Data.List.Basic

namespace Venix.Ansi

/-! ## Dispatch tables -/

/-- The functions that the tables name. -/
inductive Fint where
  | anul | aerror | abell | abacks | aht | alf | acr | aso | asi | anel | ari
  | aich | acuu | acud | acuf | acub | acup | aed | ael | ail | adl | asu | asd | asgr | adch
  | awrap | aabsvector | arelvector | adrawbox | aloadvpat | asetvpat | asetvmode | aloadrpat
  | asetrpat | ainitgraph | avertsynch | aerasegraph | arasterop | asetrtext | afillarea | adrawraster
  deriving DecidableEq, Repr

open Fint

/-- Whether the function looks at `w_nparam` or at parameters (`apn`, `apntrue`, `aps`). -/
def Fint.looks : Fint → Bool
  | aich | acuu | acud | acuf | acub | acup | aed | ael | ail | adl | asu | asd | asgr | adch => true
  | awrap | aabsvector | arelvector | adrawbox | asetvmode | arasterop => true
  | _ => false

/-- Control characters, from NUL on. -/
def ctrldisp : List Fint :=
  [anul, aerror, aerror, aerror, aerror, aerror, aerror, abell,
   abacks, aht, alf, alf, alf, acr, aso, asi,
   aerror, anul, aerror, anul, aerror, aerror, aerror, aerror,
   aerror, aerror, aerror, aerror, aerror, aerror, aerror, aerror]

/-- `esc` and a character, from `@` to `~`. -/
def escdisp : List Fint :=
  [aerror, aerror, aerror, aerror, alf, anel, aerror, aerror,
   aerror, aerror, aerror, aerror, aerror, ari, aerror, aerror] ++ List.replicate 47 aerror

/-- `esc [` and a character. -/
def csidisp : List Fint :=
  [aich, acuu, acud, acuf, acub, aerror, aerror, aerror,
   acup, aerror, aed, ael, ail, adl, aerror, aerror,
   adch, aerror, aerror, asu, asd, aerror, aerror, aerror,
   aerror, aerror, aerror, aerror, aerror, aerror, aerror, aerror,
   aerror, acuf, aerror, aerror, aerror, acud, acup, aerror,
   aerror, aerror, aerror, aerror, aerror, asgr, aerror, aerror] ++ List.replicate 15 aerror

/-- `esc [ =` and a character. -/
def ctdisp : List Fint :=
  [aerror, adrawraster, avertsynch, aerror, aerror, aerror, aerror, aerror,
   aerasegraph, aerror, aerror, aerror, aerror, adrawbox, aerror, aerror,
   aerror, aerror, aerror, aerror, aerror, aerror, aerror, awrap,
   aerror, aerror, aerror, aerror, aerror, aerror, aerror, aerror,
   aerror, aerror, aerror, aerror, aerror, aerror, aerror, aerror,
   aerror, aerror, aerror, aerror, aerror, aerror, aerror, aerror,
   aerror, aloadvpat, asetvmode, asetvpat, asetrpat, aerror, arasterop, ainitgraph,
   aloadrpat, asetrtext, aabsvector, arelvector, afillarea, aerror, aerror]

/-! ## The window -/

/-- `w_astate`. -/
inductive AState where
  | norm | esc | csi | param | trunc
  deriving DecidableEq, Repr

/-- The two bits of `w_aflags`, and the fields that only `rastex` and the functions of the tables
touch (position, attributes, fonts). -/
structure Screen (D : Type) where
  alastlf : Bool
  anowrap : Bool
  rest : D

/-- `struct windef`. -/
structure Window (D : Type) where
  astate : AState
  adisp : List Fint
  iparam : Nat
  nparam : Nat
  aparam : List Int
  screen : Screen D

/-- A character between blank and `~`; the top bit does not count. -/
def printable (b : Nat) : Bool := 32 ≤ b % 128 && b % 128 ≤ 126

def isDigit (c : Nat) : Bool := 48 ≤ c && c ≤ 57

/-- What `ansi.c` takes from elsewhere: the number of parameters and the type of their elements, the
drawing of a character (none at the right edge), and the effect of the functions of the tables on the
screen, with the number of parameters they take one by one. -/
structure Device (D : Type) where
  naparam : Nat
  store : Int → Int
  store_zero : store 0 = 0
  rastex1 : Screen D → Nat → Option (Screen D)
  perform : Fint → List Int → Screen D → Screen D × Nat
  fits : ∀ s b, printable b → (rastex1 (perform anel [] s).1 b).isSome

variable {D : Type}

/-- The parameters below `w_nparam`. -/
def Window.view (w : Window D) : List Int := w.aparam.take w.nparam

def apn (w : Window D) (p : Nat) : Int :=
  let pn := w.aparam.getD p 0
  if pn = 0 ∨ w.nparam ≤ p then 1 else pn

def apntrue (w : Window D) (p : Nat) : Int :=
  if w.nparam ≤ p then -1 else w.aparam.getD p 0

/-- The next parameter; `w_iparam` moves on. -/
def aps (w : Window D) : Int × Window D :=
  let i := w.iparam
  (if i < w.nparam then w.aparam.getD i 0 else if i = 0 then 0 else -1,
    { w with iparam := w.iparam + 1 })

/-- The parameters that `apn` gives are those of the view, with 1 for an absent one or zero. -/
theorem apn_view (w : Window D) (p : Nat) :
    apn w p = if w.view.getD p 0 = 0 then 1 else w.view.getD p 0 := by
  unfold apn Window.view
  rw [List.getD_eq_getElem?_getD, List.getD_eq_getElem?_getD, List.getElem?_take]
  by_cases hp : p < w.nparam
  · rw [if_pos hp]
    dsimp only
    by_cases hzero : w.aparam[p]?.getD 0 = 0
    · rw [if_pos (.inl hzero), if_pos hzero]
    · rw [if_neg (not_or.2 ⟨hzero, Nat.not_le.2 hp⟩), if_neg hzero]
  · rw [if_neg hp]
    exact if_pos (.inr (Nat.not_lt.1 hp))

theorem apntrue_view {w : Window D} (h : w.nparam ≤ w.aparam.length) (p : Nat) :
    apntrue w p = w.view.getD p (-1) := by
  unfold apntrue Window.view
  rw [List.getD_eq_getElem?_getD, List.getD_eq_getElem?_getD, List.getElem?_take]
  by_cases hp : p < w.nparam
  · rw [if_neg (Nat.not_le.2 hp), if_pos hp, List.getElem?_eq_getElem (by omega)]
    rfl
  · rw [if_pos (Nat.not_lt.1 hp), if_neg hp]
    rfl

theorem aps_view {w : Window D} (h : w.nparam ≤ w.aparam.length) :
    (aps w).1 = w.view.getD w.iparam (if w.iparam = 0 then 0 else -1) := by
  unfold aps Window.view
  rw [List.getD_eq_getElem?_getD, List.getElem?_take]
  dsimp only
  by_cases hp : w.iparam < w.nparam
  · rw [if_pos hp, if_pos hp, List.getD_eq_getElem?_getD, List.getElem?_eq_getElem (by omega)]
    rfl
  · rw [if_neg hp, if_neg hp]
    rfl

/-! ## The run -/

inductive Event where
  | text (b : Nat)
  | call (f : Fint) (args : List Int)
  deriving DecidableEq, Repr

inductive Fault where
  | overread
  | outOfBounds (i : Nat)
  deriving DecidableEq, Repr

/-- What the switch on `w_astate` finds: the window, the character, and the bytes of the buffer
after it. -/
structure Visit (D : Type) where
  wp : Window D
  c : Nat
  rest : List Nat

/-- The window, the pointer and the count of `ansi`, and what has happened. -/
structure Run (D : Type) where
  wp : Window D
  cp : List Nat
  cc : Int
  log : List Event
  faults : List Fault
  visits : List (Visit D)

/-- The call of a function of the tables. -/
def callf (dev : Device D) (f : Fint) (r : Run D) : Run D :=
  let args := if f.looks then r.wp.view else []
  let out := dev.perform f args r.wp.screen
  { r with
    wp := { r.wp with
      astate := if f = aerror then .norm else r.wp.astate
      iparam := if f.looks then r.wp.iparam + out.2 else r.wp.iparam
      screen := out.1 }
    log := r.log ++ [.call f args] }

/-- The bytes of the buffer that are left. -/
def Run.left (r : Run D) : List Nat := r.cp.take r.cc.toNat

/-- `cc--`. -/
def Run.count (r : Run D) : Run D :=
  { r with
    cc := r.cc - 1 }

/-- `w_aparam[i] = v`. -/
def setParam (i : Nat) (v : Int) (r : Run D) : Run D :=
  if i < r.wp.aparam.length then
    { r with
      wp := { r.wp with
        aparam := r.wp.aparam.set i v } }
  else
    { r with
      faults := r.faults ++ [.outOfBounds i] }

/-- `*cp++ & 0x7F`. -/
def getc (r : Run D) : Nat × Run D :=
  (r.cp.headD 0 % 128,
    { r with
      cp := r.cp.tail
      faults := if r.cc < 0 then r.faults ++ [.overread] else r.faults })

/-! ## Functions of `ansi.c` -/

/-- A run of printable characters: the screen after it, its length, and why it ended: the bytes are
all done (0), a control character (1), the right edge (2). -/
def rastex (dev : Device D) (s : Screen D) : List Nat → Screen D × Nat × Nat
  | [] => (s, 0, 0)
  | b :: bs =>
    if printable b then
      match dev.rastex1 s b with
      | some s' =>
        let out := rastex dev s' bs
        (out.1, out.2.1 + 1, out.2.2)
      | none => (s, 0, 2)
    else (s, 0, 1)

/-- The call of `rastex` on the rest of the buffer. -/
def drawn (dev : Device D) (r : Run D) : Run D × Nat :=
  let out := rastex dev r.wp.screen (r.cp.take r.cc.toNat)
  ({ r with
      wp := { r.wp with
        screen := out.1 }
      cp := r.cp.drop out.2.1
      cc := r.cc - out.2.1
      log := r.log ++ (r.cp.take out.2.1).map .text }, out.2.2)

/-- The loop at `top`; none when the fuel runs out. -/
def textLoop (dev : Device D) : Nat → Run D → Option (Run D)
  | 0, _ => none
  | n + 1, r =>
    if 0 < r.cc ∧ r.wp.astate = .norm then
      let (r', why) := drawn dev r
      if why = 1 then some r'
      else if why = 2 then
        if r'.wp.screen.anowrap then
          some { r' with
            wp := { r'.wp with
              astate := .trunc } }
        else textLoop dev n (callf dev anel r')
      else textLoop dev n r'
    else some r

def final (dev : Device D) (c : Nat) (r : Run D) : Run D :=
  let r' : Run D := { r with
    wp := { r.wp with
      astate := .norm
      nparam := r.wp.iparam
      iparam := 0
      screen := { r.wp.screen with
        alastlf := false } } }
  if c < 64 ∨ 126 < c then callf dev aerror r'
  else callf dev (r'.wp.adisp.getD (c - 64) aerror) r'

/-- `c` is below the blank, or DEL. -/
def aspec (dev : Device D) (c : Nat) (r : Run D) : Run D :=
  if c = 0x7f then r
  else callf dev (ctrldisp.getD c aerror) { r with
    wp := { r.wp with
      screen := { r.wp.screen with
        alastlf := false } } }

/-- The label `norm`. -/
def normChar (dev : Device D) (c : Nat) (r : Run D) : Run D :=
  if c = 0x1b then
    { r with
      wp := { r.wp with
        astate := .esc
        adisp := escdisp } }
  else aspec dev c r

def escChar (dev : Device D) (c : Nat) (r : Run D) : Run D :=
  if c = 0x5b then
    { r with
      wp := { r.wp with
        astate := .csi
        adisp := csidisp
        iparam := 0 } }
  else final dev c r

def csiChar (dev : Device D) (c : Nat) (r : Run D) : Run D :=
  if c = 0x3b then
    let r' := setParam 0 0 r
    { r' with
      wp := { r'.wp with
        iparam := 1
        astate := .param } }
  else if c = 0x3d then
    { r with
      wp := { r.wp with
        adisp := ctdisp } }
  else if isDigit c then
    let r' := setParam 0 (dev.store (c - 48)) r
    { r' with
      wp := { r'.wp with
        astate := .param } }
  else final dev c r

def paramChar (dev : Device D) (c : Nat) (r : Run D) : Run D :=
  if isDigit c then
    let r' := setParam r.wp.iparam (dev.store (r.wp.aparam.getD r.wp.iparam 0 * 10)) r
    setParam r.wp.iparam (dev.store (r'.wp.aparam.getD r.wp.iparam 0 + (c - 48))) r'
  else if c = 0x3b then
    let r' : Run D := { r with
      wp := { r.wp with
        iparam := r.wp.iparam + 1 } }
    let r'' := if r'.wp.iparam = dev.naparam then callf dev aerror r' else r'
    setParam r''.wp.iparam 0 r''
  else
    final dev c { r with
      wp := { r.wp with
        iparam := r.wp.iparam + 1 } }

/-- The loop of the state `trunc`; the flag says whether `top` follows. -/
def truncLoop (dev : Device D) : Nat → Nat → Run D → Option (Run D × Bool)
  | 0, _, _ => none
  | n + 1, c, r =>
    if printable c then
      if r.cc ≠ 0 then some (r.count, false)
      else truncLoop dev n (getc r.count).1 (getc r.count).2
    else
      some (normChar dev c { r with
        wp := { r.wp with
          astate := .norm } }, true)

/-- The switch on `w_astate`. -/
def dispatch (dev : Device D) (n c : Nat) (r : Run D) : Option (Run D × Bool) :=
  match r.wp.astate with
  | .norm => some (normChar dev c r, true)
  | .esc => some (escChar dev c r, true)
  | .csi => some (csiChar dev c r, true)
  | .param => some (paramChar dev c r, true)
  | .trunc => truncLoop dev n c r

/-- The character for the switch. -/
def nextc (r : Run D) : Nat × Run D :=
  let (c, r') := getc r.count
  (c, { r' with
    visits := r'.visits ++ [⟨r'.wp, c, r'.left⟩] })

/-- The label `top`. -/
def top (dev : Device D) : Nat → Run D → Option (Run D)
  | 0, _ => none
  | n + 1, r =>
    (textLoop dev (n + 1) r).bind fun r' =>
      if r'.cc ≤ 0 then some r'.count
      else
        (dispatch dev (n + 1) (nextc r').1 (nextc r').2).bind fun out =>
          if out.2 then top dev n out.1 else some out.1

/-- `struct ccblock`: the count, and the memory from `c_ptr` on. -/
structure Ccblock where
  c_count : Nat
  c_ptr : Option (List Nat)
  alloc : ∀ m, c_ptr = some m → c_count ≤ m.length

/-- The bytes that the buffer passes. -/
def Ccblock.bytes (b : Ccblock) : List Nat :=
  match b.c_ptr with
  | none => []
  | some m => m.take b.c_count

/-- `ansi`, and `c_count` after it. -/
def ansi (dev : Device D) (n : Nat) (tbuf : Ccblock) (r : Run D) : Option (Run D × Nat) :=
  if tbuf.c_count = 0 then some (r, 0)
  else
    match tbuf.c_ptr with
    | none => some (r, tbuf.c_count)
    | some m => (top dev n { r with
        cp := m
        cc := tbuf.c_count }).map fun r' => (r', 0)

/-- One call of `ansi` after the other. -/
def ansis (dev : Device D) (n : Nat) : List Ccblock → Run D → Option (Run D)
  | [], r => some r
  | b :: bs, r => (ansi dev n b r).bind fun out => ansis dev n bs out.1

/-- A window before its first byte. -/
def start (w : Window D) : Run D := ⟨w, [], 0, [], [], []⟩

end Venix.Ansi
