/-
  The table of the mounts (`sys3.c`): `smount` and `sumount`, by any number of processes.

  A step takes a process from one point where it may sleep to the next: the open and the close of
  the device, `bread`, `geteblk`, `plock` and the last `iput` of an inode. `smount` begins where
  `getmdev` and `namei` have returned, and `sumount` at its search. What they sleep on is left to the
  rest of the kernel, whose steps are `Other`: it gets inodes and puts them back, locks and unlocks
  them, and gets and releases buffers, each only if no call or mount holds it.

  `refs` counts the references to an inode in core, and `i_count`, a `char`, is its low byte. `others`
  is not in the source: it counts those of the rest of the kernel. A buffer has the block that it
  holds read as a superblock.
-/
import Mathlib.Tactic

namespace Venix.Sys3

def nmount : Nat := 8
def ninode : Nat := 200
def nbuf : Nat := 29

instance : NeZero nmount := ⟨by decide⟩
instance : NeZero ninode := ⟨by decide⟩
instance : NeZero nbuf := ⟨by decide⟩

def ifchr : BitVec 16 := 0o020000
def ifblk : BitVec 16 := 0o060000

/-- `struct mount`. -/
structure Mount (Dev : Type) where
  dev : Dev
  bufp : Option (Fin nbuf)
  inodp : Option (Fin ninode)

/-- An inode in core. -/
structure Inode (Dev : Type) where
  /-- `i_dev`, with `none` where `i_number` is 0. -/
  dev : Option Dev
  mode : BitVec 16
  lock : Bool
  mount : Bool
  refs : Int
  others : Nat

def Inode.count {Dev : Type} (ip : Inode Dev) : Int8 := Int8.ofInt ip.refs

/-- `struct filsys`, with what `smount` does not set as one field. -/
structure Filsys (D : Type) where
  ilock : Bool
  flock : Bool
  ronly : Bool
  rest : D

inductive Errno where
  | ebusy | einval | eio
  deriving DecidableEq

/-- Where a process sleeps: in `smount`, in the `iput` of its error path, or in `sumount`. -/
inductive Pc (Dev : Type) where
  | idle
  | dOpen (dev : Dev) (mp : Fin nmount) (ip : Fin ninode) (ronly : BitVec 16)
  | bread (dev : Dev) (mp : Fin nmount) (ip : Fin ninode) (ronly : BitVec 16)
  | geteblk (bp : Fin nbuf) (dev : Dev) (mp : Fin nmount) (ip : Fin ninode) (ronly : BitVec 16)
  | iput (ip : Fin ninode) (err : Errno)
  | dClose (mp : Fin nmount)
  | plock (mp : Fin nmount) (ip : Fin ninode)
  | uput (mp : Fin nmount) (ip : Fin ninode)

structure Sys (P Dev D : Type) where
  mount : Fin nmount → Mount Dev
  inode : Fin ninode → Inode Dev
  rootdir : Fin ninode
  busy : Fin nbuf → Bool
  fs : Fin nbuf → Filsys D
  pc : P → Pc Dev

/-- What a call returns. -/
inductive Ret where
  | ok
  | error (e : Errno)
  deriving DecidableEq

/-- A step that is not enabled, or that uses a null pointer. -/
inductive Fault where
  | disabled | wild
  deriving DecidableEq

/-! ## What a process has -/

namespace Pc

variable {Dev : Type}

/-- The slot that a mount has stored into. -/
def claim : Pc Dev → Option (Fin nmount)
  | .geteblk _ _ mp _ _ => some mp
  | _ => none

/-- The slot that is being given up. -/
def leave : Pc Dev → Option (Fin nmount)
  | .plock mp _ | .uput mp _ => some mp
  | _ => none

/-- The slot that the call has found. -/
def slot : Pc Dev → Option (Fin nmount)
  | .dOpen _ mp _ _ | .bread _ mp _ _ | .geteblk _ _ mp _ _ | .dClose mp | .plock mp _ | .uput mp _ =>
    some mp
  | _ => none

/-- The device that a mount has stored. -/
def dev : Pc Dev → Option Dev
  | .geteblk _ dev _ _ _ => some dev
  | _ => none

/-- The buffer with the block of the device. -/
def buf : Pc Dev → Option (Fin nbuf)
  | .geteblk bp _ _ _ _ => some bp
  | _ => none

/-- The inode that is locked. -/
def lock : Pc Dev → Option (Fin ninode)
  | .dOpen _ _ ip _ | .bread _ _ ip _ | .geteblk _ _ _ ip _ | .iput ip _ | .uput _ ip => some ip
  | _ => none

/-- The inode that there is a reference to. -/
def ref : Pc Dev → Option (Fin ninode)
  | .dOpen _ _ ip _ | .bread _ _ ip _ | .geteblk _ _ _ ip _ | .iput ip _ => some ip
  | _ => none

/-- The inode that is written before its last reference is put back. -/
def last : Pc Dev → Option (Fin ninode)
  | .iput ip _ | .uput _ ip => some ip
  | _ => none

end Pc

namespace Mount

variable {Dev : Type}

/-- The device, where one is mounted. -/
def mounted (m : Mount Dev) : Option Dev := m.bufp.map fun _ => m.dev

/-- The inode that is covered. -/
def cover (m : Mount Dev) : Option (Fin ninode) := m.bufp.bind fun _ => m.inodp

end Mount

namespace Sys

variable {P Dev D : Type} [Fintype P] [DecidableEq P] [DecidableEq Dev]

def setPc (s : Sys P Dev D) (p : P) (c : Pc Dev) : Sys P Dev D :=
  { s with pc := Function.update s.pc p c }

def setMount (s : Sys P Dev D) (i : Fin nmount) (m : Mount Dev) : Sys P Dev D :=
  { s with mount := Function.update s.mount i m }

def setInode (s : Sys P Dev D) (ip : Fin ninode) (x : Inode Dev) : Sys P Dev D :=
  { s with inode := Function.update s.inode ip x }

def setBusy (s : Sys P Dev D) (b : Fin nbuf) (v : Bool) : Sys P Dev D :=
  { s with busy := Function.update s.busy b v }

def setFs (s : Sys P Dev D) (b : Fin nbuf) (x : Filsys D) : Sys P Dev D :=
  { s with fs := Function.update s.fs b x }

/-- A call has locked the inode. -/
def Held (s : Sys P Dev D) (ip : Fin ninode) : Prop := ∃ p, (s.pc p).lock = some ip

instance (s : Sys P Dev D) (ip : Fin ninode) : Decidable (s.Held ip) :=
  inferInstanceAs (Decidable (∃ p, (s.pc p).lock = some ip))

/-- A call or a mount has the buffer. -/
def Keeps (s : Sys P Dev D) (b : Fin nbuf) : Prop :=
  (∃ p, (s.pc p).buf = some b) ∨ ∃ i, (s.mount i).bufp = some b

instance (s : Sys P Dev D) (b : Fin nbuf) : Decidable (s.Keeps b) :=
  inferInstanceAs (Decidable ((∃ p, (s.pc p).buf = some b) ∨ ∃ i, (s.mount i).bufp = some b))

/-! ## `iput` -/

/-- An inode with one reference less, where there are others. -/
def iput (s : Sys P Dev D) (ip : Fin ninode) : Sys P Dev D :=
  let x := s.inode ip
  s.setInode ip { x with lock := false, refs := x.refs - 1 }

/-- The last reference, when the inode is written. -/
def iputLast (s : Sys P Dev D) (ip : Fin ninode) : Sys P Dev D :=
  let x := s.inode ip
  s.setInode ip { x with lock := false, mount := false, dev := none, refs := x.refs - 1 }

/-! ## `smount` -/

/-- `out` and `out1`. -/
def out (s : Sys P Dev D) (p : P) (ip : Fin ninode) (err : Errno) : Sys P Dev D × Option Ret :=
  if (s.inode ip).count = 1 then (s.setPc p (.iput ip err), none)
  else ((s.iput ip).setPc p .idle, some (.error err))

/-- The loop over the table: the first free slot, unless the device is mounted. -/
def search (s : Sys P Dev D) (dev : Dev) : List (Fin nmount) → Option (Fin nmount) →
    Option (Fin nmount)
  | [], smp => smp
  | mp :: l, smp =>
    if (s.mount mp).bufp ≠ none then if dev = (s.mount mp).dev then none else s.search dev l smp
    else s.search dev l (if smp = none then some mp else smp)

def smount (s : Sys P Dev D) (p : P) (dev : Dev) (ip : Fin ninode) (ronly : BitVec 16) :
    Sys P Dev D × Option Ret :=
  if (s.inode ip).count ≠ 1 ∨ (s.inode ip).mode &&& (ifblk &&& ifchr) ≠ 0 then s.out p ip .ebusy
  else
    match s.search dev (List.finRange nmount) none with
    | none => s.out p ip .ebusy
    | some mp => (s.setPc p (.dOpen dev mp ip ronly), none)

/-- `d_open` returns. -/
def opened (s : Sys P Dev D) (p : P) (err : Bool) : Option (Sys P Dev D × Option Ret) :=
  match s.pc p with
  | .dOpen dev mp ip ronly =>
    if err then some (s.out p ip .ebusy) else some (s.setPc p (.bread dev mp ip ronly), none)
  | _ => none

/-- `bread` returns `bp`, which holds `x`. -/
def read (s : Sys P Dev D) (p : P) (bp : Fin nbuf) (x : Filsys D) (err : Bool) :
    Option (Sys P Dev D × Option Ret) :=
  match s.pc p with
  | .bread dev mp ip ronly =>
    if s.busy bp ∨ ∃ q, (s.pc q).dev = some dev then none
    else if err then some (s.out p ip .eio)
    else
      let m := s.mount mp
      let s := (s.setBusy bp true).setFs bp x
      let s := s.setMount mp { m with inodp := some ip, dev := dev }
      some (s.setPc p (.geteblk bp dev mp ip ronly), none)
  | _ => none

/-- `geteblk` returns `b`. -/
def gotblk (s : Sys P Dev D) (p : P) (b : Fin nbuf) : Option (Sys P Dev D × Option Ret) :=
  match s.pc p with
  | .geteblk bp _ mp ip ronly =>
    if s.busy b then none
    else
      let m := s.mount mp
      let s := (s.setBusy b true).setMount mp { m with bufp := some b }
      let fp := { s.fs bp with ilock := false, flock := false, ronly := ronly.getLsbD 0 }
      let s := (s.setFs b fp).setBusy bp false
      let s := s.setInode ip { s.inode ip with mount := true, lock := false }
      some (s.setPc p .idle, some .ok)
  | _ => none

/-! ## `sumount` -/

def sumount (s : Sys P Dev D) (p : P) (dev : Dev) : Sys P Dev D × Option Ret :=
  match (List.finRange nmount).find? fun mp => (s.mount mp).mounted = some dev with
  | none => (s, some (.error .einval))
  | some mp =>
    if ∃ ip, (s.inode ip).dev = some dev then (s, some (.error .ebusy))
    else (s.setPc p (.dClose mp), none)

/-- `d_close` returns. -/
def closed (s : Sys P Dev D) (p : P) : Except Fault (Sys P Dev D × Option Ret) :=
  match s.pc p with
  | .dClose mp =>
    match (s.mount mp).inodp with
    | none => .error .wild
    | some ip =>
      let s := s.setInode ip { s.inode ip with mount := false }
      .ok (s.setPc p (.plock mp ip), none)
  | _ => .error .disabled

/-- From the `iput` on. -/
def freed (s : Sys P Dev D) (p : P) (mp : Fin nmount) : Except Fault (Sys P Dev D × Option Ret) :=
  let m := s.mount mp
  match m.bufp with
  | none => .error .wild
  | some bp =>
    let s := (s.setMount mp { m with bufp := none }).setBusy bp false
    .ok (s.setPc p .idle, some .ok)

/-- The inode is free. -/
def plock (s : Sys P Dev D) (p : P) : Except Fault (Sys P Dev D × Option Ret) :=
  match s.pc p with
  | .plock mp ip =>
    if (s.inode ip).lock then .error .disabled
    else if (s.inode ip).count = 1 then
      let s := s.setInode ip { s.inode ip with lock := true }
      .ok (s.setPc p (.uput mp ip), none)
    else (s.iput ip).freed p mp
  | _ => .error .disabled

/-- The last `iput` is done. -/
def written (s : Sys P Dev D) (p : P) : Except Fault (Sys P Dev D × Option Ret) :=
  match s.pc p with
  | .iput ip err => .ok ((s.iputLast ip).setPc p .idle, some (.error err))
  | .uput mp ip => (s.iputLast ip).freed p mp
  | _ => .error .disabled

/-! ## Steps -/

/-- What the rest of the kernel does with an inode or a buffer: `iget` of one that is not in core,
    and of one that is; a reference without `iget`; `plock`, `prele` and `iput`; and a buffer that is
    got, written and released. -/
inductive Other (Dev D : Type) where
  | iload (ip : Fin ninode) (dev : Dev) (mode : BitVec 16)
  | iget (ip : Fin ninode)
  | iref (ip : Fin ninode)
  | plock (ip : Fin ninode)
  | prele (ip : Fin ninode)
  | iput (ip : Fin ninode)
  | getblk (b : Fin nbuf)
  | write (b : Fin nbuf) (x : Filsys D)
  | brelse (b : Fin nbuf)

/-- The inode that `namei` gives `smount` is one that the rest of the kernel has locked before. -/
inductive Act (P Dev D : Type) where
  | smount (p : P) (dev : Dev) (ip : Fin ninode) (ronly : BitVec 16)
  | opened (p : P) (err : Bool)
  | read (p : P) (bp : Fin nbuf) (x : Filsys D) (err : Bool)
  | gotblk (p : P) (b : Fin nbuf)
  | sumount (p : P) (dev : Dev)
  | closed (p : P)
  | plock (p : P)
  | written (p : P)
  | other (o : Other Dev D)

/-- The rest of the kernel has locked the inode. -/
def Locks (s : Sys P Dev D) (ip : Fin ninode) : Prop := (s.inode ip).lock = true ∧ ¬s.Held ip

instance (s : Sys P Dev D) (ip : Fin ninode) : Decidable (s.Locks ip) :=
  inferInstanceAs (Decidable (_ ∧ _))

/-- And it has a reference that it can put back: it keeps the one to `rootdir`. -/
def Spares (s : Sys P Dev D) (ip : Fin ninode) : Prop :=
  s.Locks ip ∧ (if ip = s.rootdir then 2 else 1) ≤ (s.inode ip).others

instance (s : Sys P Dev D) (ip : Fin ninode) : Decidable (s.Spares ip) :=
  inferInstanceAs (Decidable (_ ∧ _))

def other (s : Sys P Dev D) : Other Dev D → Option (Sys P Dev D)
  | .iload ip dev mode =>
    let x := s.inode ip
    if x.count = 0 then
      some (s.setInode ip ⟨some dev, mode, true, false, x.refs + 1, x.others + 1⟩)
    else none
  | .iget ip =>
    let x := s.inode ip
    if x.dev ≠ none ∧ x.lock = false ∧ x.mount = false then
      some (s.setInode ip { x with lock := true, refs := x.refs + 1, others := x.others + 1 })
    else none
  | .iref ip =>
    let x := s.inode ip
    some (s.setInode ip { x with refs := x.refs + 1, others := x.others + 1 })
  | .plock ip =>
    let x := s.inode ip
    if x.lock then none else some (s.setInode ip { x with lock := true })
  | .prele ip =>
    let x := s.inode ip
    if s.Locks ip then some (s.setInode ip { x with lock := false }) else none
  | .iput ip =>
    let x := s.inode ip
    if s.Spares ip then
      let s := s.setInode ip { x with others := x.others - 1 }
      some (if x.count = 1 then s.iputLast ip else s.iput ip)
    else none
  | .getblk b => if s.busy b then none else some (s.setBusy b true)
  | .write b x =>
    if s.busy b ∧ ∀ p, (s.pc p).buf ≠ some b then some (s.setFs b x) else none
  | .brelse b => if s.busy b ∧ ¬s.Keeps b then some (s.setBusy b false) else none

def step (s : Sys P Dev D) : Act P Dev D → Except Fault (Sys P Dev D × Option Ret)
  | .smount p dev ip ronly =>
    let x := s.inode ip
    match s.pc p with
    | .idle =>
      if s.Spares ip then
        .ok ((s.setInode ip { x with others := x.others - 1 }).smount p dev ip ronly)
      else .error .disabled
    | _ => .error .disabled
  | .opened p err => (s.opened p err).elim (.error .disabled) .ok
  | .read p bp x err => (s.read p bp x err).elim (.error .disabled) .ok
  | .gotblk p b => (s.gotblk p b).elim (.error .disabled) .ok
  | .sumount p dev =>
    match s.pc p with
    | .idle => .ok (s.sumount p dev)
    | _ => .error .disabled
  | .closed p => s.closed p
  | .plock p => s.plock p
  | .written p => s.written p
  | .other o => (s.other o).elim (.error .disabled) fun s => .ok (s, none)

end Sys

end Venix.Sys3
