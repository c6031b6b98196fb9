/-
  The file-system block allocator (`alloc`, `free`, `badblock` and `getfs` of `alloc.c`).

  The in-core super block caches up to `nicfree` free block numbers in `sFree`. Entry 0 of the
  cache is 0 at the end of the list; otherwise it is itself a free block and holds the next
  `nicfree` entries on disk, as a `struct fblk`. `free` spills the full cache into the block
  being freed, `alloc` reloads the cache from the block being handed out.

  The model is one mounted device with no I/O errors. `disk` is the contents of each block as
  the buffer cache shows it, so `bread` reads it and `bwrite` or `bdwrite` replaces it. The
  lock `s_flock` is clear whenever a call starts here, so its sleep loop is not taken.
-/
import Venix.Lib.Bytes

namespace Venix.Fs

open Venix.Lib

/-- A `daddr_t`: a block number, stored as a `long`. -/
abbrev Daddr := BitVec 32

/-- The contents of one disk block. -/
abbrev Block := Bytes 512

/-- `NICFREE`: number of super block free blocks. -/
def nicfree : Nat := 50

/-- `NICINOD`: number of super block i-nodes. -/
def nicinod : Nat := 100

inductive Errno where
  | eio | efault | einval | efbig | enospc
  deriving DecidableEq, Repr

/-- The super block, less the fields that block allocation neither reads nor writes. -/
structure Filsys where
  sIsize : BitVec 16
  sFsize : Daddr
  sNfree : Int
  sFree : Arr Daddr nicfree
  sNinode : Int
  sFmod : Bool

/-- One mounted device, with the error and console output of the running process. -/
structure Vol where
  sb : Filsys
  disk : Daddr → Block
  uError : Option Errno
  console : List String
  rablock : Daddr

/-- A buffer handed to its caller. -/
structure Buf where
  bBlkno : Daddr
  bData : Block

def Vol.prdev (fs : Vol) (msg : String) : Vol := { fs with console := msg :: fs.console }

/-- Writing a buffer back: the block then reads as the buffer's contents. -/
def Vol.bwrite (fs : Vol) (bp : Buf) : Vol :=
  { fs with disk := Function.update fs.disk bp.bBlkno bp.bData }

/-! ## `struct fblk` in a block -/

def dfNfree (b : Block) : Int := (b.getWord 0).toInt

def dfFree (b : Block) : Arr Daddr nicfree := fun i => b.getLong (2 + 4 * i)

/-- The first `k` entries of `free` copied into the `df_free` part of a block. -/
def bcopyFree (free : Arr Daddr nicfree) : Nat → Block → Block
  | 0, b => b
  | k + 1, b => (bcopyFree free k b).putLong (2 + 4 * k) (free.get k)

def putFblk (b : Block) (nfree : Int) (free : Arr Daddr nicfree) : Block :=
  bcopyFree free nicfree (b.putWord 0 (BitVec.ofInt 16 nfree))

theorem getWord_bcopyFree (free : Arr Daddr nicfree) (k : Nat) (b : Block) :
    (bcopyFree free k b).getWord 0 = b.getWord 0 := by
  induction k with
  | zero => rfl
  | succ k ih =>
    rw [bcopyFree, Bytes.getWord_putLong_ne _ _ (by omega), ih]

theorem getLong_bcopyFree (free : Arr Daddr nicfree) (k : Nat) (hk : k ≤ nicfree) (b : Block)
    (i : Nat) (hi : i < k) : (bcopyFree free k b).getLong (2 + 4 * i) = free.get i := by
  unfold nicfree at hk
  induction k with
  | zero => omega
  | succ k ih =>
    rw [bcopyFree]
    by_cases h : i = k
    · subst h
      exact Bytes.getLong_putLong_self _ _ _ (by omega)
    · rw [Bytes.getLong_putLong_ne _ _ (by omega)]
      exact ih (by omega) (by omega)

@[simp] theorem dfNfree_putFblk (b : Block) (nfree : Int) (free : Arr Daddr nicfree)
    (h0 : 0 ≤ nfree) (h1 : nfree ≤ nicfree) : dfNfree (putFblk b nfree free) = nfree := by
  unfold nicfree at h1
  unfold dfNfree putFblk
  rw [getWord_bcopyFree, Bytes.getWord_putWord_self _ _ _ (by omega), BitVec.toInt_ofInt,
    Int.bmod_eq_of_le (by omega) (by omega)]

@[simp] theorem dfFree_putFblk (b : Block) (nfree : Int) (free : Arr Daddr nicfree) :
    dfFree (putFblk b nfree free) = free := by
  funext i
  unfold dfFree putFblk
  rw [getLong_bcopyFree free nicfree (Nat.le_refl _) _ i.val i.isLt]
  simp [Arr.get]

/-! ## The allocator -/

/-- The count check `getfs` makes on the super block it finds. -/
def getfs (fs : Vol) : Vol :=
  if fs.sb.sNfree > nicfree ∨ fs.sb.sNinode > nicinod then
    { fs.prdev "bad count" with sb := { fs.sb with sNfree := 0, sNinode := 0 } }
  else fs

/-- The numbers `badblock` accepts: past the i-list and below the size of the volume. -/
def InRange (sb : Filsys) (bn : Daddr) : Prop :=
  (sb.sIsize.toNat : Int) ≤ bn.toInt ∧ bn.toInt < sb.sFsize.toInt

instance (sb : Filsys) (bn : Daddr) : Decidable (InRange sb bn) :=
  inferInstanceAs (Decidable (_ ∧ _))

def badblock (fs : Vol) (bn : Daddr) : Bool × Vol :=
  if bn.toInt < fs.sb.sIsize.toNat ∨ bn.toInt ≥ fs.sb.sFsize.toInt then
    (true, fs.prdev "bad block")
  else (false, fs)

/-- The `do … while (badblock …)` loop of `alloc`. Every round lowers `s_nfree`, which is at
    most `nicfree` after the check, so `nicfree + 1` rounds are enough (`allocLoop_fuel`). -/
def allocLoop : Nat → Vol → Option Daddr × Vol
  | 0, fs => (none, fs)
  | k + 1, fs =>
    if fs.sb.sNfree ≤ 0 then (none, fs)
    else if fs.sb.sNfree > nicfree then (none, fs.prdev "Bad free count")
    else
      let fs := { fs with sb := { fs.sb with sNfree := fs.sb.sNfree - 1 } }
      let bno := fs.sb.sFree.get fs.sb.sNfree.toNat
      if bno = 0 then (none, fs)
      else match badblock fs bno with
        | (true, fs) => allocLoop k fs
        | (false, fs) => (some bno, fs)

theorem allocLoop_succ (k : Nat) (fs : Vol) :
    allocLoop (k + 1) fs =
      if fs.sb.sNfree ≤ 0 then (none, fs)
      else if fs.sb.sNfree > nicfree then (none, fs.prdev "Bad free count")
      else
        let fs := { fs with sb := { fs.sb with sNfree := fs.sb.sNfree - 1 } }
        let bno := fs.sb.sFree.get fs.sb.sNfree.toNat
        if bno = 0 then (none, fs)
        else match badblock fs bno with
          | (true, fs) => allocLoop k fs
          | (false, fs) => (some bno, fs) :=
  rfl

def nospace (fs : Vol) : Option Buf × Vol :=
  let fs := { fs with sb := { fs.sb with sNfree := 0 } }
  (none, { fs.prdev "no space" with uError := some .enospc })

def alloc (fs : Vol) : Option Buf × Vol :=
  match allocLoop (nicfree + 1) (getfs fs) with
  | (none, fs) => nospace fs
  | (some bno, fs) =>
    let done (fs : Vol) : Option Buf × Vol :=
      (some ⟨bno, Bytes.zero⟩, { fs with sb := { fs.sb with sFmod := true } })
    if fs.sb.sNfree ≤ 0 then
      let bp := fs.disk bno
      let fs := { fs with sb := { fs.sb with sNfree := dfNfree bp, sFree := dfFree bp } }
      if fs.sb.sNfree ≤ 0 then nospace fs else done fs
    else done fs

/-- `free`. `stale` is what the buffer that `getblk` finds for `bno` holds before it is
    overwritten; only the `struct fblk` part of it is. -/
def free (fs : Vol) (bno : Daddr) (stale : Block) : Vol :=
  let fs := getfs fs
  let fs := { fs with sb := { fs.sb with sFmod := true } }
  match badblock fs bno with
  | (true, fs) => fs
  | (false, fs) =>
    let fs := if fs.sb.sNfree ≤ 0 then
        { fs with sb := { fs.sb with sNfree := 1, sFree := fs.sb.sFree.put 0 0 } }
      else fs
    let fs := if fs.sb.sNfree ≥ nicfree then
        let fs := fs.bwrite ⟨bno, putFblk stale fs.sb.sNfree fs.sb.sFree⟩
        { fs with sb := { fs.sb with sNfree := 0 } }
      else fs
    { fs with sb := { fs.sb with
        sFree := fs.sb.sFree.put fs.sb.sNfree.toNat bno
        sNfree := fs.sb.sNfree + 1
        sFmod := true } }

end Venix.Fs
