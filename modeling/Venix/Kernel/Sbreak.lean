/-
  The size of a process: `sbreak` (`sys1.c`), `grow` (`sig.c`), `expand` (`slp.c`), and of `xswap`
  (`text.c`) and `swapin` (`slp.c`) what they do with the image.

  Memory is counted in clicks of 64 bytes, and addresses and sizes of clicks are 16-bit numbers. The
  image of a process is `p_size` clicks from `p_addr` on: the user block, the data and the stack. The
  text is apart from it. `Away` is what a process that was swapped out finds when the scheduler brings
  it in again: core, maps and swap area are anything then, but nobody else writes the blocks that the
  process has of the swap area. A map that overflows its table is `mapOverflow`.
-/
import Venix.Kernel.Map

namespace Venix.Kernel

namespace Core

abbrev Word := BitVec 16

/-- The bytes of a click. -/
abbrev Click := Fin 64 → BitVec 8

/-- `USIZE`, `SINCR`. -/
def usize : Word := 16
def sincr : Word := 20

/-- `ctos`: clicks in segments. -/
def ctos (x : Word) : Word := (x + 127) / 128

/-- `ctod`: clicks in disk blocks. -/
def ctod (x : Word) : Word := (x + 7) >>> 3

/-- `btoc`: bytes in clicks. -/
def btoc (x : Word) : Word := (x + 63) >>> 6

/-- `cputype == 40`, and `maxmem`. -/
structure Cpu where
  cpu40 : Bool
  maxmem : Word

/-- Whether `estabur` accepts the sizes. -/
def estabur (cpu : Cpu) (nt nd ns : Word) (sep : Bool) : Bool :=
  (if sep then !cpu.cpu40 && ctos nt ≤ 8 && ctos nd + ctos ns ≤ 8
    else ctos nt + ctos nd + ctos ns ≤ 8) &&
    nt + nd + ns + usize ≤ cpu.maxmem

/-- The process that is running, and memory. -/
structure Image where
  tsize : Word
  dsize : Word
  ssize : Word
  sep : Bool
  /-- `p_addr` and `p_size`. -/
  addr : Word
  size : Word
  /-- `u_error` is `ENOMEM`. -/
  enomem : Bool
  core : Word → Click
  coremap : List MapEnt
  swapmap : List MapEnt
  /-- The swap area, eight clicks to a block. -/
  disk : Nat → Click

inductive Stop where
  | mapOverflow
  | outOfSwapSpace
  | notSwappedIn
  deriving DecidableEq

/-- What the scheduler finds. -/
structure Away where
  core : Word → Click
  coremap : List MapEnt
  swapmap : List MapEnt
  disk : Nat → Click

/-! ## Clicks -/

def copyseg (src dst : Word) (core : Word → Click) : Word → Click :=
  Function.update core dst (core src)

def clearseg (a : Word) (core : Word → Click) : Word → Click :=
  Function.update core a fun _ => 0

/-- `n` times `copyseg(a-d, a); a++`. -/
def moveDown (d : Word) : Nat → Word → (Word → Click) → Word → Click
  | 0, _, core => core
  | n + 1, a, core => moveDown d n (a + 1) (copyseg (a - d) a core)

/-- `n` times `a--; copyseg(a-d, a)`, and `a` after it. -/
def moveUp (d : Word) : Nat → Word → (Word → Click) → Word × (Word → Click)
  | 0, a, core => (a, core)
  | n + 1, a, core => moveUp d n (a - 1) (copyseg (a - 1 - d) (a - 1) core)

/-- `n` times `clearseg(--a)`. -/
def clearDown : Nat → Word → (Word → Click) → Word → Click
  | 0, _, core => core
  | n + 1, a, core => clearDown n (a - 1) (clearseg (a - 1) core)

/-- `n` times `copyseg(a1+i, a2+i)`, from `i` on. -/
def copyImage (a1 a2 : Word) : Nat → Word → (Word → Click) → Word → Click
  | 0, _, core => core
  | n + 1, i, core => copyImage a1 a2 n (i + 1) (copyseg (a1 + i) (a2 + i) core)

/-! ## Swapping -/

/-- The blocks of the swap area that the process has. -/
def Image.swapped (s : Image) (i : Nat) : Prop :=
  8 * s.addr.toNat ≤ i ∧ i < 8 * (s.addr.toNat + (ctod s.size).toNat)

instance (s : Image) (i : Nat) : Decidable (s.swapped i) := inferInstanceAs (Decidable (_ ∧ _))

/-- `xswap(p, 1, os)`: `os` clicks go out. -/
def xswap (os : Word) (s : Image) : Except Stop Image :=
  match malloc (ctod s.size) s.swapmap with
  | none => .error .mapOverflow
  | some (a, swapmap) =>
    if a = 0 then .error .outOfSwapSpace
    else
      match mfree os s.addr s.coremap with
      | none => .error .mapOverflow
      | some coremap =>
        let first := 8 * a.toNat
        .ok { s with
          disk := fun i =>
            if first ≤ i ∧ i < first + os.toNat then s.core (s.addr + BitVec.ofNat 16 (i - first))
            else s.disk i
          swapmap := swapmap
          coremap := coremap
          addr := a }

/-- `swapin`, of the image. -/
def swapin (away : Away) (s : Image) : Except Stop Image :=
  let disk := fun i => if s.swapped i then s.disk i else away.disk i
  match malloc s.size away.coremap with
  | none => .error .mapOverflow
  | some (a, coremap) =>
    if a = 0 then .error .notSwappedIn
    else
      match mfree (ctod s.size) s.addr away.swapmap with
      | none => .error .mapOverflow
      | some swapmap =>
        .ok { s with
          core := fun x =>
            if x - a < s.size then disk (8 * s.addr.toNat + (x - a).toNat) else away.core x
          disk := disk
          coremap := coremap
          swapmap := swapmap
          addr := a }

/-! ## `expand` -/

def expand (newsize : Word) (away : Away) (s : Image) : Except Stop Image :=
  let n := s.size
  let a1 := s.addr
  let s := { s with size := newsize }
  if newsize.sle n then
    match mfree (n - newsize) (a1 + newsize) s.coremap with
    | none => .error .mapOverflow
    | some coremap => .ok { s with coremap := coremap }
  else
    match malloc newsize s.coremap with
    | none => .error .mapOverflow
    | some (a2, coremap) =>
      if a2 = 0 then
        match xswap n { s with coremap := coremap } with
        | .error e => .error e
        | .ok s => swapin away s
      else
        match mfree n a1 coremap with
        | none => .error .mapOverflow
        | some coremap =>
          .ok { s with
            core := copyImage a1 a2 n.toNat 0 s.core
            coremap := coremap
            addr := a2 }

/-! ## `sbreak` and `grow` -/

/-- The new size of the data in clicks. -/
def dataClicks (nsiz : Word) (s : Image) : Word :=
  let n := btoc nsiz
  let n := if s.sep then n else n - ctos s.tsize * 128
  if n.slt 0 then 0 else n

def sbreak (cpu : Cpu) (nsiz : Word) (away : Away) (s : Image) : Except Stop Image :=
  let n := dataClicks nsiz s
  let d := n - s.dsize
  let n := n + (usize + s.ssize)
  if ¬estabur cpu s.tsize (s.dsize + d) s.ssize s.sep then .ok { s with enomem := true }
  else
    let s := { s with dsize := s.dsize + d }
    if (0 : Word).slt d then
      match expand n away s with
      | .error e => .error e
      | .ok s =>
        let (a, core) := moveUp d s.ssize.toNat (s.addr + n) s.core
        .ok { s with core := clearDown d.toNat a core }
    else
      let a := s.addr + n - s.ssize
      expand n away { s with core := moveDown d s.ssize.toNat a s.core }

/-- Whether the stack has grown. -/
def grow (cpu : Cpu) (sp : Word) (away : Away) (s : Image) : Except Stop (Bool × Image) :=
  if -(s.ssize <<< 6) ≤ sp then .ok (false, s)
  else
    let si := -sp / 64 - s.ssize + sincr
    if si.sle 0 then .ok (false, s)
    else if ¬estabur cpu s.tsize s.dsize (s.ssize + si) s.sep then
      .ok (false, { s with enomem := true })
    else
      match expand (s.size + si) away s with
      | .error e => .error e
      | .ok s =>
        let (a, core) := moveUp si s.ssize.toNat (s.addr + s.size) s.core
        .ok (true, { s with
          core := clearDown si.toNat a core
          ssize := s.ssize + si })

end Core

end Venix.Kernel
