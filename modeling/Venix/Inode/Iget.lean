/-
  One process among the inodes in core: `iget`, `iput` and `iupdat` of `iget.c`, and `ialloc` and
  `ifree` of `alloc.c`.

  No other process runs in between, but one that holds a lock that is slept on releases it. A slot of
  the table keeps the fields of the inode that was in it before. What the disk does is an `Env`: the
  n-th transfer may fail, where `tick` counts those of the inode blocks. The inodes of a device are
  its `dinode`; `free` never gives back a block of them, as `badblock` refuses it. The blocks of an
  indirect file, in `itrunc`, are read without errors. `getfs` panics where a device is not mounted.

  A loop that has used up its first argument stops with `fuel`.
-/
import Venix.Fs.Itrunc

namespace Venix.Iget

open Venix.Lib Venix.Fs

inductive Errno where
  | EIO
  | ENFILE
  | ENOSPC
  deriving DecidableEq, Repr

inductive Stop where
  | panic
  | fuel
  deriving DecidableEq, Repr

/-- `struct dinode`; an address has three bytes. -/
structure Dinode where
  mode : BitVec 16
  nlink : BitVec 16
  uid : BitVec 16
  gid : BitVec 16
  size : Int
  addr : Arr (BitVec 24) naddr
  atime : Int
  mtime : Int
  ctime : Int

/-- `struct inode`. -/
structure Inode where
  flag : BitVec 8
  count : Int8
  dev : Nat
  number : Nat
  mode : BitVec 16
  nlink : BitVec 16
  uid : BitVec 16
  gid : BitVec 16
  size : Int
  addr : Arr Daddr naddr
  lastr : Int

/-- A mounted device: the super block, with its cache of free inodes, and the inodes. -/
structure Fsys where
  vol : Vol
  sInode : Arr Nat nicinod
  sIlock : Bool
  sRonly : Bool
  dinode : Nat → Dinode

/-- The system, with `n` inodes in core. -/
structure Sys (n : Nat) where
  inode : Fin n → Inode
  /-- The device that is mounted on an inode. -/
  mnt : Fin n → Option Nat
  fs : Nat → Option Fsys
  uError : Option Errno
  time : Int
  tick : Nat

structure Env where
  ioErr : Nat → Bool
  stale : Nat → Daddr → Block

def ilock : BitVec 8 := 0x01
def imount : BitVec 8 := 0x08
def iwant : BitVec 8 := 0x10

def ifmt : BitVec 16 := 0xF000
def ifdir : BitVec 16 := 0x4000
def ifreg : BitVec 16 := 0x8000

def rootino : Nat := 2

/-- `INOPB`: inodes in a block. -/
def inopb : Nat := 8

def superb : Nat := 1

variable {n : Nat}

namespace Sys

/-! ## Parts of the state -/

def setInode (s : Sys n) (ip : Fin n) (x : Inode) : Sys n :=
  { s with inode := Function.update s.inode ip x }

def setFs (s : Sys n) (dev : Nat) (f : Fsys) : Sys n :=
  { s with fs := Function.update s.fs dev (some f) }

def ticked (s : Sys n) : Sys n := { s with tick := s.tick + 1 }

/-- `getfs`, with its check of the counts. -/
def getfs (s : Sys n) (dev : Nat) : Except Stop Fsys :=
  match s.fs dev with
  | none => .error .panic
  | some f => .ok { f with vol := Fs.getfs f.vol }

/-! ## `iput` -/

def prele (s : Sys n) (ip : Fin n) : Sys n :=
  s.setInode ip { s.inode ip with flag := (s.inode ip).flag &&& ~~~(ilock ||| iwant) }

def itrunc (env : Env) (s : Sys n) (ip : Fin n) : Except Stop (Sys n) :=
  let x := s.inode ip
  if x.mode &&& ifmt ≠ ifreg ∧ x.mode &&& ifmt ≠ ifdir then .ok s
  else
    match s.fs x.dev with
    | none => .error .panic
    | some f =>
      let r := itruncLoop (env.stale x.dev) naddr (⟨f.vol, []⟩, ⟨x.flag, .ifreg, x.size, x.addr, x.lastr⟩)
      .ok ((s.setFs x.dev { f with vol := r.1.v }).setInode ip
        { x with
          addr := r.2.iAddr
          size := 0
          flag := x.flag ||| (ichg ||| iupd) })

def ifree (s : Sys n) (dev ino : Nat) : Except Stop (Sys n) :=
  match s.getfs dev with
  | .error e => .error e
  | .ok f =>
    if f.sIlock then .ok (s.setFs dev f)
    else if f.vol.sb.sNinode ≥ nicinod then .ok (s.setFs dev f)
    else
      .ok (s.setFs dev { f with
        sInode := f.sInode.put f.vol.sb.sNinode.toNat ino
        vol := { f.vol with
          sb := { f.vol.sb with
            sNinode := f.vol.sb.sNinode + 1
            sFmod := true } } })

/-- What `iupdat` writes. -/
def written (s : Sys n) (x : Inode) (dp : Dinode) : Dinode where
  mode := x.mode
  nlink := x.nlink
  uid := x.uid
  gid := x.gid
  size := x.size
  addr := fun i => (x.addr i).truncate 24
  atime := if x.flag &&& iacc ≠ 0 then s.time else dp.atime
  mtime := if x.flag &&& iupd ≠ 0 then s.time else dp.mtime
  ctime := if x.flag &&& ichg ≠ 0 then s.time else dp.ctime

def iupdat (env : Env) (s : Sys n) (ip : Fin n) : Except Stop (Sys n) :=
  let x := s.inode ip
  if x.flag &&& (iupd ||| (iacc ||| ichg)) ≠ 0 then
    match s.getfs x.dev with
    | .error e => .error e
    | .ok f =>
      let s := s.setFs x.dev f
      if f.sRonly then .ok s
      else if env.ioErr s.tick then .ok { s.ticked with uError := some Errno.EIO }
      else
        let dinode := Function.update f.dinode x.number (s.written x (f.dinode x.number))
        .ok ((s.ticked.setFs x.dev { f with dinode }).setInode ip
          { x with flag := x.flag &&& ~~~(iupd ||| (iacc ||| ichg)) })
  else .ok s

/-- The part of `iput` for the last reference to an inode without links. -/
def iputFree (env : Env) (s : Sys n) (ip : Fin n) : Except Stop (Sys n) :=
  if (s.inode ip).nlink.toInt ≤ 0 then do
    let s ← s.itrunc env ip
    let x := s.inode ip
    let s := s.setInode ip { x with
      mode := 0
      flag := x.flag ||| (iupd ||| ichg) }
    s.ifree x.dev x.number
  else .ok s

/-- The part of `iput` for the last reference. -/
def iputLast (env : Env) (s : Sys n) (ip : Fin n) : Except Stop (Sys n) := do
  let s := s.setInode ip { s.inode ip with flag := (s.inode ip).flag ||| ilock }
  let s ← s.iputFree env ip
  let s ← s.iupdat env ip
  let s := s.prele ip
  return s.setInode ip { s.inode ip with
    flag := 0
    number := 0 }

def iput (env : Env) (s : Sys n) (ip : Fin n) : Except Stop (Sys n) := do
  let s ← (if (s.inode ip).count = 1 then s.iputLast env ip else .ok s)
  let s := s.setInode ip { s.inode ip with count := (s.inode ip).count - 1 }
  return s.prele ip

end Sys

/-! ## `iget` -/

/-- What the search of the table comes to: the slot of the inode, a slot that is not in use, or
neither. -/
inductive Found (n : Nat) where
  | incore (ip : Fin n)
  | fresh (ip : Fin n)
  | full
  deriving DecidableEq

def search (inode : Fin n → Inode) (dev ino : Nat) : List (Fin n) → Option (Fin n) → Found n
  | [], none => .full
  | [], some oip => .fresh oip
  | ip :: rest, oip =>
    if ino = (inode ip).number ∧ dev = (inode ip).dev then .incore ip
    else search inode dev ino rest (if oip = none ∧ (inode ip).count = 0 then some ip else oip)

/-- The holder of a lock has released it. -/
def unlocked (inode : Fin n → Inode) (ip : Fin n) : Fin n → Inode :=
  Function.update inode ip { inode ip with flag := (inode ip).flag &&& ~~~(ilock ||| iwant) }

/-- The loop of `iget`, up to the slot: with the device and the number that it is for, and the table
after the sleeps. -/
def igetFind (mnt : Fin n → Option Nat) :
    Nat → (Fin n → Inode) → Nat → Nat → Except Stop (Found n × Nat × Nat × (Fin n → Inode))
  | 0, _, _, _ => .error .fuel
  | k + 1, inode, dev, ino =>
    match search inode dev ino (List.finRange n) none with
    | .incore ip =>
      if (inode ip).flag &&& ilock ≠ 0 then igetFind mnt k (unlocked inode ip) dev ino
      else if (inode ip).flag &&& imount ≠ 0 then
        match mnt ip with
        | none => .error .panic
        | some dev => igetFind mnt k inode dev rootino
      else .ok (.incore ip, dev, ino, inode)
    | r => .ok (r, dev, ino, inode)

def iexpand (x : Inode) (dp : Dinode) : Inode :=
  { x with
    mode := dp.mode
    nlink := dp.nlink
    uid := dp.uid
    gid := dp.gid
    size := dp.size
    addr := fun i => (dp.addr i).zeroExtend 32 }

namespace Sys

/-- The inode as it stands on the disk; the blocks of a device that is not mounted are not read. -/
def onDisk (s : Sys n) (dev ino : Nat) : Except Stop Dinode :=
  match s.fs dev with
  | none => .error .panic
  | some f => .ok (f.dinode ino)

/-- `iget` for an inode that is not in core and gets the slot `ip`. -/
def igetRead (env : Env) (s : Sys n) (ip : Fin n) (dev ino : Nat) :
    Except Stop (Option (Fin n) × Sys n) :=
  let x := { s.inode ip with
    dev := dev
    number := ino
    flag := ilock
    count := (s.inode ip).count + 1
    lastr := 0 }
  let s := s.setInode ip x
  if env.ioErr s.tick then do
    let s ← ({ s.ticked with uError := some Errno.EIO }).iput env ip
    return (none, s)
  else
    match s.onDisk dev ino with
    | .error e => .error e
    | .ok dp => .ok (some ip, s.ticked.setInode ip (iexpand x dp))

def iget (env : Env) (k : Nat) (s : Sys n) (dev ino : Nat) :
    Except Stop (Option (Fin n) × Sys n) :=
  match igetFind s.mnt k s.inode dev ino with
  | .error e => .error e
  | .ok (.incore ip, _, _, inode) =>
    let s := { s with inode }
    let x := s.inode ip
    .ok (some ip, s.setInode ip { x with
      count := x.count + 1
      flag := x.flag ||| ilock })
  | .ok (.full, _, _, inode) => .ok (none, { s with
      inode
      uError := some .ENFILE })
  | .ok (.fresh ip, dev, ino, inode) => igetRead env { s with inode } ip dev ino

end Sys

/-! ## `ialloc` -/

/-- The cache of free inodes: `s_inode` and `s_ninode`. -/
abbrev Cache := Arr Nat nicinod × Int

def Cache.push (c : Cache) (ino : Nat) : Cache := (Arr.put c.1 c.2.toNat ino, c.2 + 1)

/-- `f` with another cache. -/
def withCache (f : Fsys) (c : Cache) : Fsys :=
  { f with
    sInode := c.1
    vol := { f.vol with sb := { f.vol.sb with sNinode := c.2 } } }

/-- The sum of numbers of inodes, of type `ino_t`. -/
def inoAdd (ino i : Nat) : Nat := (ino + i) % 65536

namespace Sys

/-- An inode is in core. -/
def InCore (s : Sys n) (dev ino : Nat) : Prop :=
  ∃ ip, (s.inode ip).dev = dev ∧ (s.inode ip).number = ino

instance (s : Sys n) (dev ino : Nat) : Decidable (s.InCore dev ino) :=
  inferInstanceAs (Decidable (∃ ip, (s.inode ip).dev = dev ∧ (s.inode ip).number = ino))

/-- The loop of `ialloc` over `i` inodes of a block, from number `ino` on. -/
def scanBlock (s : Sys n) (dev : Nat) (f : Fsys) : Nat → Nat → Cache → Cache
  | 0, _, c => c
  | i + 1, ino, c =>
    if (f.dinode ino).mode ≠ 0 then s.scanBlock dev f i (inoAdd ino 1) c
    else if s.InCore dev ino then s.scanBlock dev f i (inoAdd ino 1) c
    else
      let c := Cache.push c ino
      if c.2 ≥ nicinod then c else s.scanBlock dev f i (inoAdd ino 1) c

/-- The loop over `k` blocks of inodes; the number of transfers comes with the cache. -/
def scanDev (env : Env) (s : Sys n) (dev : Nat) (f : Fsys) : Nat → Nat → Nat → Cache → Cache × Nat
  | 0, _, tick, c => (c, tick)
  | k + 1, ino, tick, c =>
    if env.ioErr tick then s.scanDev env dev f k (inoAdd ino inopb) (tick + 1) c
    else
      let c := s.scanBlock dev f inopb ino c
      if c.2 ≥ nicinod then (c, tick + 1) else s.scanDev env dev f k (inoAdd ino inopb) (tick + 1) c

/-- `ialloc` from `loop` on. -/
def iallocLoop (env : Env) : Nat → Sys n → Nat → Except Stop (Option (Fin n) × Sys n)
  | 0, _, _ => .error .fuel
  | k + 1, s, dev =>
    match s.fs dev with
    | none => .error .panic
    | some f =>
      if f.vol.sb.sNinode > 0 then do
        let ino := f.sInode.get (f.vol.sb.sNinode - 1).toNat
        let s := s.setFs dev (withCache f (f.sInode, f.vol.sb.sNinode - 1))
        if ino < rootino then iallocLoop env k s dev
        else
          match ← s.iget env k dev ino with
          | (none, s) => return (none, s)
          | (some ip, s) =>
            let x := s.inode ip
            if x.mode = 0 then
              return (some ip, (s.setInode ip { x with addr := fun _ => 0 }))
            else
              -- The inode was allocated after all.
              let s ← s.iput env ip
              iallocLoop env k s dev
      else
        let r := s.scanDev env dev f (f.vol.sb.sIsize.toNat - (superb + 1)) 1 s.tick
          (f.sInode, f.vol.sb.sNinode)
        let s := { s.setFs dev { withCache f r.1 with sIlock := false } with tick := r.2 }
        if r.1.2 > 0 then iallocLoop env k s dev
        else .ok (none, { s with uError := some .ENOSPC })

end Sys

end Venix.Iget
