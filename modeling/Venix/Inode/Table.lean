/-
  The table of the inodes in core: `iget`, `iput` and `iupdat` of `iget.c`, `plock` and `prele` of
  `pipe.c`, and the processes that call them.

  A process runs from one sleep to the next without another in between; it may sleep on a locked
  inode, in `bread`, and in `itrunc` and `ifree`. A step of the system is what one process does up
  to such a point or to a `goto loop`.

  An inode has the three flags `IUPD`, `IACC` and `ICHG` as one here, and its fields from `i_mode`
  on as one value. Block I/O is done without errors; `disk` is what the blocks of the inodes hold.
  The table of the mounts stays as it is. `owner` and `refs` are not in the source: who has locked
  an inode and not unlocked it, and who has got it how many times and not put it back.
-/
import Mathlib.Tactic

namespace Venix.Inode

/-- `struct inode`. -/
structure Slot (Dev D : Type) where
  dev : Dev
  /-- `i_number`, with `none` for 0. -/
  number : Option Nat
  lock : Bool
  want : Bool
  mount : Bool
  upd : Bool
  /-- A `char`. -/
  count : Int8
  data : D

/-- What the code outside does with an inode: its number of links, what `itrunc` and the clearing
of `i_mode` leave, and the devices that are mounted read-only. -/
structure Vol (Dev D : Type) where
  nlink : D → Int
  trunc : D → D
  ronly : Dev → Bool

/-- Where a process is: in `iget` at the start of the loop or in `bread`, in `plock`, in the
`bread` of `iupdat`, or in `iput` in `itrunc` and `ifree` or in the `bread` of `iupdat`. -/
inductive Pc (n : Nat) (Dev : Type) where
  | idle
  | iget (dev : Dev) (ino : Nat)
  | iread (ip : Fin n)
  | plock (ip : Fin n)
  | iupdat (ip : Fin n)
  | itrunc (ip : Fin n)
  | iput (ip : Fin n)

structure Table (n : Nat) (Dev P D : Type) where
  slot : Fin n → Slot Dev D
  /-- The device that is mounted on an inode. -/
  mnt : Fin n → Option Dev
  disk : Dev → Nat → D
  pc : P → Pc n Dev
  asleep : P → Option (Fin n)
  owner : Fin n → Option P
  refs : Fin n → List P

def rootIno : Nat := 2

/-- What `iget` returns to `p`. -/
structure Ret (n : Nat) (P : Type) where
  p : P
  ip : Fin n

inductive Stop where
  | disabled
  | panic
  deriving DecidableEq

variable {n : Nat} {Dev P D : Type} [DecidableEq Dev] [DecidableEq P]

namespace Table

abbrev Outcome (n : Nat) (Dev P D : Type) := Except Stop (Table n Dev P D × Option (Ret n P))

def setSlot (s : Table n Dev P D) (ip : Fin n) (x : Slot Dev D) : Table n Dev P D :=
  { s with slot := Function.update s.slot ip x }

def setPc (s : Table n Dev P D) (p : P) (pc : Pc n Dev) : Table n Dev P D :=
  { s with pc := Function.update s.pc p pc }

def sleep (s : Table n Dev P D) (p : P) (ip : Fin n) : Table n Dev P D :=
  { s with asleep := Function.update s.asleep p (some ip) }

def wakeup (s : Table n Dev P D) (ip : Fin n) : Table n Dev P D :=
  { s with asleep := fun p => if s.asleep p = some ip then none else s.asleep p }

/-- `p` has locked the inode. -/
def lockedBy (s : Table n Dev P D) (p : P) (ip : Fin n) : Table n Dev P D :=
  { s with owner := Function.update s.owner ip (some p) }

/-- `p` has the inode once more. -/
def addRef (s : Table n Dev P D) (p : P) (ip : Fin n) : Table n Dev P D :=
  { s with refs := Function.update s.refs ip (p :: s.refs ip) }

/-- `p` no longer has the lock. -/
def unlockedBy (s : Table n Dev P D) (p : P) (ip : Fin n) : Table n Dev P D :=
  let o := if s.owner ip = some p then none else s.owner ip
  { s with owner := Function.update s.owner ip o }

/-- `p` has put the inode back once. -/
def dropRef (s : Table n Dev P D) (p : P) (ip : Fin n) : Table n Dev P D :=
  { s with refs := Function.update s.refs ip ((s.refs ip).erase p) }

/-! ## Locks -/

def prele (s : Table n Dev P D) (ip : Fin n) : Table n Dev P D :=
  let s := s.setSlot ip { s.slot ip with lock := false }
  if (s.slot ip).want then (s.setSlot ip { s.slot ip with want := false }).wakeup ip else s

/-- A turn of the loop of `plock`. -/
def plockTurn (s : Table n Dev P D) (p : P) (ip : Fin n) : Table n Dev P D :=
  if (s.slot ip).lock then (s.setSlot ip { s.slot ip with want := true }).sleep p ip
  else ((s.setSlot ip { s.slot ip with lock := true }).lockedBy p ip).setPc p .idle

/-! ## `iget` -/

/-- What the search of the table comes to: the slot of the inode, or a slot that is not in use. -/
inductive Found (n : Nat) where
  | ip (ip : Fin n)
  | oip (oip : Option (Fin n))

def search (s : Table n Dev P D) (dev : Dev) (ino : Nat) : List (Fin n) → Option (Fin n) → Found n
  | [], oip => .oip oip
  | ip :: rest, oip =>
    if (s.slot ip).number = some ino ∧ (s.slot ip).dev = dev then .ip ip
    else s.search dev ino rest (if oip = none ∧ (s.slot ip).count = 0 then some ip else oip)

/-- A turn of the loop of `iget`, up to `bread`. -/
def igetTurn (s : Table n Dev P D) (p : P) (dev : Dev) (ino : Nat) : Outcome n Dev P D :=
  match s.search dev ino (List.finRange n) none with
  | .ip ip =>
    if (s.slot ip).lock then
      .ok ((s.setSlot ip { s.slot ip with want := true }).sleep p ip, none)
    else if (s.slot ip).mount then
      match s.mnt ip with
      | some dev => .ok (s.setPc p (.iget dev rootIno), none)
      | none => .error .panic
    else
      .ok ((((s.setSlot ip { s.slot ip with lock := true, count := (s.slot ip).count + 1 })
        |>.lockedBy p ip).addRef p ip).setPc p .idle, some ⟨p, ip⟩)
  | .oip none => .ok (s.setPc p .idle, none)
  | .oip (some ip) =>
    .ok ((((s.setSlot ip {
        dev := dev
        number := some ino
        lock := true
        want := false
        mount := false
        upd := false
        count := (s.slot ip).count + 1
        data := (s.slot ip).data }).lockedBy p ip).addRef p ip).setPc p (.iread ip), none)

/-- `iget` after `bread`: `iexpand`. -/
def iexpand (s : Table n Dev P D) (ip : Fin n) : Table n Dev P D :=
  match (s.slot ip).number with
  | none => s
  | some ino => s.setSlot ip { s.slot ip with data := s.disk (s.slot ip).dev ino }

/-! ## `iupdat` and `iput` -/

/-- Whether `iupdat` writes the inode. -/
def updates (s : Table n Dev P D) (vol : Vol Dev D) (ip : Fin n) : Bool :=
  (s.slot ip).upd && !vol.ronly (s.slot ip).dev

/-- `iupdat` after `bread`. -/
def writeInode (s : Table n Dev P D) (ip : Fin n) : Table n Dev P D :=
  match (s.slot ip).number with
  | none => s
  | some ino =>
    ({ s with
      disk := Function.update s.disk (s.slot ip).dev
        (Function.update (s.disk (s.slot ip).dev) ino (s.slot ip).data) }).setSlot ip
      { s.slot ip with upd := false }

/-- The end of `iput`. -/
def lessOne (s : Table n Dev P D) (p : P) (ip : Fin n) : Table n Dev P D :=
  let s := s.setSlot ip { s.slot ip with count := (s.slot ip).count - 1 }
  (((s.prele ip).unlockedBy p ip).dropRef p ip).setPc p .idle

/-- The end of `iput` for the last reference. -/
def iputEnd (s : Table n Dev P D) (p : P) (ip : Fin n) : Table n Dev P D :=
  let s := s.prele ip
  let s := s.setSlot ip
    { s.slot ip with
      lock := false
      want := false
      mount := false
      upd := false
      number := none }
  s.lessOne p ip

/-- `iput` for the last reference, from `iupdat` on. -/
def iputUpdat (s : Table n Dev P D) (vol : Vol Dev D) (p : P) (ip : Fin n) : Table n Dev P D :=
  if s.updates vol ip then s.setPc p (.iput ip) else s.iputEnd p ip

def iput (s : Table n Dev P D) (vol : Vol Dev D) (p : P) (ip : Fin n) : Table n Dev P D :=
  if (s.slot ip).count = 1 then
    let s := (s.setSlot ip { s.slot ip with lock := true }).lockedBy p ip
    if vol.nlink (s.slot ip).data ≤ 0 then s.setPc p (.itrunc ip) else s.iputUpdat vol p ip
  else s.lessOne p ip

/-! ## The processes -/

/-- A process that is not asleep goes on. -/
def run (s : Table n Dev P D) (vol : Vol Dev D) (p : P) : Outcome n Dev P D :=
  match s.pc p with
  | .idle => .error .disabled
  | .iget dev ino => s.igetTurn p dev ino
  | .iread ip => .ok ((s.iexpand ip).setPc p .idle, some ⟨p, ip⟩)
  | .plock ip => .ok (s.plockTurn p ip, none)
  | .iupdat ip => .ok ((s.writeInode ip).setPc p .idle, none)
  | .itrunc ip =>
    let s := s.setSlot ip { s.slot ip with data := vol.trunc (s.slot ip).data, upd := true }
    .ok (s.iputUpdat vol p ip, none)
  | .iput ip => .ok ((s.writeInode ip).iputEnd p ip, none)

/-- The steps of the system; `change` is whatever a process that has the inode does with its
fields. -/
inductive Act (n : Nat) (Dev P D : Type) where
  | iget (p : P) (dev : Dev) (ino : Nat)
  | iput (p : P) (ip : Fin n)
  | iupdat (p : P) (ip : Fin n)
  | plock (p : P) (ip : Fin n)
  | prele (p : P) (ip : Fin n)
  | change (p : P) (ip : Fin n) (d : D)
  | run (p : P)

def isIdle (s : Table n Dev P D) (p : P) : Bool :=
  match s.pc p with
  | .idle => true
  | _ => false

/-- `p` is outside this code and has the inode. -/
def has (s : Table n Dev P D) (p : P) (ip : Fin n) : Bool := s.isIdle p && decide (p ∈ s.refs ip)

def step (s : Table n Dev P D) (vol : Vol Dev D) : Act n Dev P D → Outcome n Dev P D
  | .iget p dev ino => if s.isIdle p then .ok (s.setPc p (.iget dev ino), none) else .error .disabled
  | .iput p ip => if s.has p ip then .ok (s.iput vol p ip, none) else .error .disabled
  | .iupdat p ip =>
    if s.has p ip then .ok (if s.updates vol ip then s.setPc p (.iupdat ip) else s, none)
    else .error .disabled
  | .plock p ip => if s.has p ip then .ok (s.setPc p (.plock ip), none) else .error .disabled
  | .prele p ip =>
    if s.isIdle p ∧ s.owner ip = some p then .ok ((s.prele ip).unlockedBy p ip, none)
    else .error .disabled
  | .change p ip d =>
    if s.has p ip then .ok (s.setSlot ip { s.slot ip with data := d, upd := true }, none)
    else .error .disabled
  | .run p => if s.asleep p = none then s.run vol p else .error .disabled

end Table

end Venix.Inode
