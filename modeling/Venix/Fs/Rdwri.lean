/-
  Reading and writing files (`readi`, `writei` and `iomove` of `rdwri.c`, `passc` and `cpass`
  of `subr.c`).

  The arguments of a request are in the user structure, as in the source. Memory is one map of
  bytes for each of the three spaces of `u_segflg`; an address that is not mapped is a fault.
  `copyin` and `copyout` are assembly routines: they copy in order and stop at the first fault.

  `Dev` is what the rest of the system supplies: the core addresses of the buffers (they decide
  between the two copy paths of `iomove`), the `b_resid` that drivers leave, the bytes in a
  buffer that `getblk` returns without reading, and the character drivers. Read-ahead fills the
  cache and returns the same block, so `breada` is `bread` here. A buffer released after a
  failed copy keeps what was copied, as it stays in the cache.
-/
import Venix.Fs.BmapRun

namespace Venix.Fs

open Venix.Lib

/-- `u_segflg`: user data, system or user instruction space. -/
inductive Segflg where
  | userD | system | userI
  deriving DecidableEq, Repr

/-- The I/O part of the user structure, with the memory it refers to. -/
structure User where
  uBase : Nat
  uCount : Nat
  uOffset : Int
  uSegflg : Segflg
  core : Segflg → Nat → Option Byte

/-- A request in progress; `rdisk` is the device of a block special file. -/
structure Rw where
  v : Vol
  ip : Inode
  u : User
  rdisk : Daddr → Block

structure Dev where
  bAddr : Daddr → Nat
  bResid : Daddr → Nat
  stale : Daddr → Block
  dRead : Rw → Rw
  dWrite : Rw → Rw

/-! ## Moving bytes -/

/-- Update the arguments by `n` bytes moved. -/
def User.advance (u : User) (n : Nat) : User :=
  { u with uBase := u.uBase + n, uCount := u.uCount - n, uOffset := u.uOffset + n }

/-- Store a byte at `u_base`. -/
def User.store (u : User) (c : Byte) : User :=
  let space := Function.update (u.core u.uSegflg) u.uBase (some c)
  { u with core := Function.update u.core u.uSegflg space }

/-- `passc`: the error it sets, and whether it returns 0. -/
def passc (u : User) (c : Byte) : User × Option Errno × Bool :=
  if u.uSegflg ≠ .system ∧ u.core u.uSegflg u.uBase = none then (u, some .efault, false)
  else
    let u := (u.store c).advance 1
    (u, none, u.uCount ≠ 0)

/-- `cpass`: the error it sets, and the byte unless it returns `-1`. -/
def cpass (u : User) : User × Option Errno × Option Byte :=
  if u.uCount = 0 then (u, none, none)
  else match u.uSegflg, u.core u.uSegflg u.uBase with
    | .system, c => (u.advance 1, none, some (c.getD 0))
    | _, none => (u, some .efault, none)
    | _, some c => (u.advance 1, none, some c)

/-- `copyin` of `n` bytes into a buffer; `false` is a fault. -/
def copyin (core : Nat → Option Byte) : Nat → Nat → Nat → Block → Block × Bool
  | 0, _, _, b => (b, true)
  | n + 1, base, on, b =>
    match core base with
    | none => (b, false)
    | some c => copyin core n (base + 1) (on + 1) (b.put on c)

/-- `copyout` of `n` bytes from a buffer; `false` is a fault. -/
def copyout (b : Block) : Nat → Nat → Nat → (Nat → Option Byte) → (Nat → Option Byte) × Bool
  | 0, _, _, core => (core, true)
  | n + 1, on, base, core =>
    match core base with
    | none => (core, false)
    | some _ => copyout b n (on + 1) (base + 1) (Function.update core base (some (b.get on)))

/-- The `B_WRITE` byte loop of `iomove`. -/
def cpassLoop : Nat → Nat → User → Block → User × Block × Option Errno
  | 0, _, u, b => (u, b, none)
  | n + 1, on, u, b =>
    match cpass u with
    | (u, err, none) => (u, b, err)
    | (u, _, some c) => cpassLoop n (on + 1) u (b.put on c)

/-- The `B_READ` byte loop of `iomove`. -/
def passcLoop (b : Block) : Nat → Nat → User → User × Option Errno
  | 0, _, u => (u, none)
  | n + 1, on, u =>
    match passc u (b.get on) with
    | (u, err, false) => (u, err)
    | (u, _, true) => passcLoop b n (on + 1) u

/-- The bulk-copy path of `iomove`. -/
def bulkMove (u : User) (b : Block) (on n : Nat) : Rwflg → User × Block × Option Errno
  | .bWrite =>
    match copyin (u.core u.uSegflg) n u.uBase on b with
    | (b, false) => (u, b, some .efault)
    | (b, true) => (u.advance n, b, none)
  | .bRead =>
    match copyout b n on u.uBase (u.core u.uSegflg) with
    | (core, ok) =>
      let u := { u with core := Function.update u.core u.uSegflg core }
      if ok then (u.advance n, b, none) else (u, b, some .efault)

/-- The byte-at-a-time path of `iomove`. -/
def byteMove (u : User) (b : Block) (on n : Nat) : Rwflg → User × Block × Option Errno
  | .bWrite => cpassLoop n on u b
  | .bRead =>
    let r := passcLoop b n on u
    (r.1, b, r.2)

/-- Move `n` bytes between offset `on` of buffer `b`, at core address `cp`, and `u_base`. -/
def iomove (u : User) (cp : Nat) (b : Block) (on n : Nat) (flag : Rwflg) :
    User × Block × Option Errno :=
  if n = 0 then (u, b, none)
  else if u.uSegflg ≠ .system ∧ n % 2 = 0 ∧ cp % 2 = 0 ∧ u.uBase % 2 = 0 then
    bulkMove u b on n flag
  else byteMove u b on n flag

/-! ## `readi` and `writei` -/

def setError (v : Vol) : Option Errno → Vol
  | none => v
  | some e => { v with uError := some e }

/-- The end of a round of `readi`: take the block, move the bytes, go on. -/
def readiBlock (d : Dev) (lbn : Int) (bn : Daddr) (on n : Nat) (blk : Block) (s : Rw) :
    Nat × Rw :=
  let b := if bn.toInt < 0 then Bytes.zero else blk
  let resid := if bn.toInt < 0 then 0 else d.bResid bn
  let s := { s with ip := { s.ip with iLastr := lbn } }
  let n := min n (512 - resid)
  let r := iomove s.u (d.bAddr bn + on) b on n .bRead
  (n, { s with u := r.1, v := setError s.v r.2.2 })

/-- The `do … while` loop of `readi`. A round that does not leave the loop moves at least one
    byte, so `u_count` rounds are enough. -/
def readiLoop (d : Dev) : Nat → Rw → Rw
  | 0, s => s
  | k + 1, s =>
    let lbn := s.u.uOffset / 512
    let on := (s.u.uOffset % 512).toNat
    let n := min (512 - on) s.u.uCount
    let next (r : Nat × Rw) : Rw :=
      if r.2.v.uError = none ∧ r.2.u.uCount ≠ 0 ∧ r.1 > 0 then readiLoop d k r.2 else r.2
    if s.ip.iType ≠ .ifblk ∧ s.ip.iType ≠ .ifmpb then
      let diff := s.ip.iSize - s.u.uOffset
      if diff ≤ 0 then s
      else
        let n := if diff < n then diff.toNat else n
        match bmap s.v s.ip lbn .bRead with
        | (bn, v, ip) =>
          let s := { s with v := v, ip := ip }
          if s.v.uError ≠ none then s
          else next (readiBlock d lbn bn on n (s.v.disk bn) s)
    else
      let bn := BitVec.ofInt 32 lbn
      let s := { s with v := { s.v with rablock := bn + 1 } }
      next (readiBlock d lbn bn on n (s.rdisk bn) s)

def readi (d : Dev) (s : Rw) : Rw :=
  if s.u.uCount = 0 then s
  else if s.u.uOffset < 0 then { s with v := { s.v with uError := some .einval } }
  else
    let s := { s with ip := { s.ip with iFlag := s.ip.iFlag ||| iacc } }
    if s.ip.iType = .ifchr ∨ s.ip.iType = .ifmpc then d.dRead s
    else readiLoop d s.u.uCount s

/-- The end of a round of `writei`, after the copy: the size and the flags. -/
def writeiEnd (s : Rw) (r : User × Block × Option Errno) : Rw :=
  let s := { s with u := r.1, v := setError s.v r.2.2 }
  let s := if s.u.uOffset > s.ip.iSize ∧ (s.ip.iType = .ifdir ∨ s.ip.iType = .ifreg) then
      { s with ip := { s.ip with iSize := s.u.uOffset } }
    else s
  { s with ip := { s.ip with iFlag := s.ip.iFlag ||| (iupd ||| ichg) } }

/-- The `do … while` loop of `writei`; every round moves at least one byte or ends it. -/
def writeiLoop (d : Dev) : Nat → Rw → Rw
  | 0, s => s
  | k + 1, s =>
    let bn := s.u.uOffset / 512
    let on := (s.u.uOffset % 512).toNat
    let n := min (512 - on) s.u.uCount
    let next (s : Rw) : Rw :=
      if s.v.uError = none ∧ s.u.uCount ≠ 0 then writeiLoop d k s else s
    if s.ip.iType ≠ .ifblk ∧ s.ip.iType ≠ .ifmpb then
      match bmap s.v s.ip bn .bWrite with
      | (bn, v, ip) =>
        let s := { s with v := v, ip := ip }
        if bn.toInt < 0 then s
        else
          let b := if n = 512 then d.stale bn else s.v.disk bn
          let r := iomove s.u (d.bAddr bn + on) b on n .bWrite
          next (writeiEnd { s with v := s.v.bwrite ⟨bn, r.2.1⟩ } r)
    else
      let bn := BitVec.ofInt 32 bn
      let b := if n = 512 then d.stale bn else s.rdisk bn
      let r := iomove s.u (d.bAddr bn + on) b on n .bWrite
      next (writeiEnd { s with rdisk := Function.update s.rdisk bn r.2.1 } r)

def writei (d : Dev) (s : Rw) : Rw :=
  if s.u.uOffset < 0 then { s with v := { s.v with uError := some .einval } }
  else if s.ip.iType = .ifchr ∨ s.ip.iType = .ifmpc then
    d.dWrite { s with ip := { s.ip with iFlag := s.ip.iFlag ||| (iupd ||| ichg) } }
  else if s.u.uCount = 0 then s
  else writeiLoop d s.u.uCount s

end Venix.Fs
