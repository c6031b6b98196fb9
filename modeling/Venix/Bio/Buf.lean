/-
  The buffer cache of `bio.c`: its lists, its flags, and the processes that use it.

  A process runs from one sleep to the next without another process in between, so a step of
  the system is what one process does up to a point where it may sleep or starts a loop of the
  source again, or an I/O completion. A sleeping process goes on after a `wakeup` of its channel.

  The drivers are not part of the source. A driver keeps the requests it is given by `strategy`,
  may use the links of the free list of a request for its own queue, and calls `iodone`, at once
  or at any later time; the transfer is done by then. The holder of a buffer changes its data
  only on the way to `bwrite`, `bdwrite` or `bawrite`, so the new data are an argument there.

  `owner` and `last` are not in the source: who got a buffer and has not given it back, and the
  data of the last completed write of a block. `io_info`, `b_bcount`, `b_resid` and the errors
  of the devices are left out.
-/
import Venix.Lib.Ring

namespace Venix.Bio

open Venix.Lib

/-- What the links lead to: a buffer, the header `d_tab` of a device, and `bfreelist`. -/
inductive Node (B T : Type) where
  | buf (b : B)
  | tab (t : T)
  | bfreelist
  deriving DecidableEq

/-- `b_flags`. -/
structure Flags where
  busy : Bool
  done : Bool
  read : Bool
  wanted : Bool
  async : Bool
  delwri : Bool
  age : Bool
  deriving DecidableEq

/-- The flags of a buffer with none set. -/
def noFlags : Flags := ⟨false, false, false, false, false, false, false⟩

/-- What a process sleeps on. -/
inductive Chan (B : Type) where
  | buf (b : B)
  | bfreelist
  deriving DecidableEq

/-- Where `getblk` returns to: its caller, `bread`, the first call in `breada` (with the block
to read ahead), or the second (with the first buffer, if there is one, and its block). -/
inductive Cont (B : Type) where
  | ret
  | bread
  | breada (rablkno : Nat)
  | readAhead (bp : Option B) (blkno : Nat)

/-- Where `iowait` returns to. -/
inductive After (Dev : Type) where
  | bread (dev : Dev) (blkno : Nat)
  | bwrite

/-- Where a process is. -/
inductive Pc (B Dev : Type) where
  | idle
  | getblk (dev : Dev) (blkno : Nat) (k : Cont B)
  | iowait (b : B) (k : After Dev)
  | bflush (dev : Option Dev)

structure Cache (B T Dev P D : Type) where
  forw : Node B T → Node B T
  back : Node B T → Node B T
  avForw : Node B T → Node B T
  avBack : Node B T → Node B T
  /-- `b_dev`, with `none` for `NODEV`. -/
  dev : B → Option Dev
  blkno : B → Nat
  flags : B → Flags
  /-- `B_WANTED` of `bfreelist`. -/
  freeWanted : Bool
  data : B → D
  disk : Dev → Nat → D
  /-- The requests the drivers have. -/
  pending : B → Bool
  pc : P → Pc B Dev
  asleep : P → Option (Chan B)
  owner : B → Option P
  last : Dev → Nat → D

/-- The table of the devices: their headers, and which of them are tapes. -/
structure Bdevsw (T Dev : Type) where
  tab : Dev → T
  tape : T → Bool

/-- What a driver does with a request: where it leaves its links, and whether it completes it at
once. -/
structure Driver (B T : Type) where
  avForw : Node B T
  avBack : Node B T
  atOnce : Bool

variable {B T Dev P D : Type} [DecidableEq B] [DecidableEq T] [DecidableEq Dev] [DecidableEq P]

namespace Cache

def setFlags (s : Cache B T Dev P D) (b : B) (f : Flags) : Cache B T Dev P D :=
  { s with flags := Function.update s.flags b f }

def setOwner (s : Cache B T Dev P D) (b : B) (o : Option P) : Cache B T Dev P D :=
  { s with owner := Function.update s.owner b o }

def setPc (s : Cache B T Dev P D) (p : P) (pc : Pc B Dev) : Cache B T Dev P D :=
  { s with pc := Function.update s.pc p pc }

def sleep (s : Cache B T Dev P D) (p : P) (c : Chan B) : Cache B T Dev P D :=
  { s with asleep := Function.update s.asleep p (some c) }

def wakeup (s : Cache B T Dev P D) (c : Chan B) : Cache B T Dev P D :=
  { s with asleep := fun p => if s.asleep p = some c then none else s.asleep p }

/-! ## The free list -/

/-- Put a buffer first on the free list. -/
def putFirst (s : Cache B T Dev P D) (b : B) : Cache B T Dev P D :=
  let first := s.avForw .bfreelist
  { s with
    avBack := Function.update (Function.update s.avBack first (.buf b)) (.buf b) .bfreelist
    avForw := Function.update (Function.update s.avForw (.buf b) first) .bfreelist (.buf b) }

/-- Put a buffer last on the free list. -/
def putLast (s : Cache B T Dev P D) (b : B) : Cache B T Dev P D :=
  let final := s.avBack .bfreelist
  { s with
    avForw := Function.update (Function.update s.avForw final (.buf b)) (.buf b) .bfreelist
    avBack := Function.update (Function.update s.avBack (.buf b) final) .bfreelist (.buf b) }

def wakeFree (s : Cache B T Dev P D) : Cache B T Dev P D :=
  if s.freeWanted then ({ s with freeWanted := false }).wakeup .bfreelist else s

def brelse (s : Cache B T Dev P D) (b : B) : Cache B T Dev P D :=
  let s := if (s.flags b).wanted then s.wakeup (.buf b) else s
  let s := s.wakeFree
  let s := if (s.flags b).age then s.putFirst b else s.putLast b
  (s.setFlags b { s.flags b with wanted := false, busy := false, async := false, age := false })
    |>.setOwner b none

/-- `notavail`, called by `p`. -/
def notavail (s : Cache B T Dev P D) (p : P) (b : B) : Cache B T Dev P D :=
  (({ s with
    avForw := unlinkNext s.avForw s.avBack (.buf b)
    avBack := unlinkPrev s.avForw s.avBack (.buf b) }).setFlags b { s.flags b with busy := true })
    |>.setOwner b (some p)

/-! ## I/O -/

/-- The transfer of a request. -/
def transfer (s : Cache B T Dev P D) (b : B) : Cache B T Dev P D :=
  match s.dev b with
  | none => s
  | some d =>
    if (s.flags b).read then { s with data := Function.update s.data b (s.disk d (s.blkno b)) }
    else
      { s with
        disk := Function.update s.disk d (Function.update (s.disk d) (s.blkno b) (s.data b))
        last := Function.update s.last d (Function.update (s.last d) (s.blkno b) (s.data b)) }

def iodone (s : Cache B T Dev P D) (b : B) : Cache B T Dev P D :=
  let s := { s.transfer b with pending := Function.update s.pending b false }
  let s := s.setFlags b { s.flags b with done := true }
  if (s.flags b).async then s.brelse b
  else (s.setFlags b { s.flags b with wanted := false }).wakeup (.buf b)

def strategy (s : Cache B T Dev P D) (b : B) (drv : Driver B T) : Cache B T Dev P D :=
  let s := { s with
    pending := Function.update s.pending b true
    avForw := Function.update s.avForw (.buf b) drv.avForw
    avBack := Function.update s.avBack (.buf b) drv.avBack }
  if drv.atOnce then s.iodone b else s

/-- The start of a read. -/
def startRead (s : Cache B T Dev P D) (b : B) (drv : Driver B T) : Cache B T Dev P D :=
  (s.setFlags b { s.flags b with read := true }).strategy b drv

/-- The start of a read that nobody waits for. -/
def startReadAsync (s : Cache B T Dev P D) (b : B) (drv : Driver B T) : Cache B T Dev P D :=
  ((s.setFlags b { s.flags b with read := true, async := true }).setOwner b none).strategy b drv

/-- The start of a write. -/
def startWrite (s : Cache B T Dev P D) (b : B) (drv : Driver B T) : Cache B T Dev P D :=
  (s.setFlags b { s.flags b with read := false, done := false, delwri := false, age := false })
    |>.strategy b drv

/-- `bwrite` of a buffer marked `B_ASYNC`. A delayed write is marked `B_AGE` once it is
started. -/
def bwriteAsync (s : Cache B T Dev P D) (b : B) (drv : Driver B T) : Cache B T Dev P D :=
  let flag := s.flags b
  let s := s.startWrite b drv
  if flag.delwri then s.setFlags b { s.flags b with age := true } else s

/-- `bawrite`: mark the buffer, then `bwrite`. -/
def bawrite (s : Cache B T Dev P D) (b : B) (drv : Driver B T) : Cache B T Dev P D :=
  ((s.setFlags b { s.flags b with async := true }).setOwner b none).bwriteAsync b drv

/-! ## Looking for a block -/

/-- The walk along the list of a device: `none` if it does not come back to the header. -/
def search (s : Cache B T Dev P D) (t : T) (dev : Dev) (blkno : Nat) :
    Nat → Node B T → Option (Option B)
  | 0, _ => none
  | n + 1, .buf b =>
    if s.blkno b = blkno ∧ s.dev b = some dev then some (some b)
    else s.search t dev blkno n (s.forw (.buf b))
  | _ + 1, .tab t' => if t' = t then some none else none
  | _ + 1, .bfreelist => none

variable [Fintype B]

/-- The buffer of a block. -/
def find (s : Cache B T Dev P D) (sw : Bdevsw T Dev) (dev : Dev) (blkno : Nat) :
    Option (Option B) :=
  s.search (sw.tab dev) dev blkno (Fintype.card B + 1) (s.forw (.tab (sw.tab dev)))

/-- What a turn of the loop of `getblk` comes to. -/
inductive Turn (B T Dev P D : Type) where
  | lost
  | again (s : Cache B T Dev P D)
  | got (s : Cache B T Dev P D) (b : B)

/-- Give a buffer to another block. -/
def reassign (s : Cache B T Dev P D) (sw : Bdevsw T Dev) (dev : Dev) (blkno : Nat) (b : B) :
    Cache B T Dev P D :=
  let s := s.setFlags b { noFlags with busy := true }
  let s := { s with
    forw := unlinkNext s.forw s.back (.buf b)
    back := unlinkPrev s.forw s.back (.buf b) }
  let dp : Node B T := .tab (sw.tab dev)
  let first := s.forw dp
  { s with
    forw := Function.update (Function.update s.forw (.buf b) first) dp (.buf b)
    back := Function.update (Function.update s.back (.buf b) dp) first (.buf b)
    dev := Function.update s.dev b (some dev)
    blkno := Function.update s.blkno b blkno }

/-- A turn of the loop of `getblk`. -/
def getblkTurn (s : Cache B T Dev P D) (sw : Bdevsw T Dev) (p : P) (dev : Dev) (blkno : Nat)
    (drv : Driver B T) : Turn B T Dev P D :=
  match s.find sw dev blkno with
  | none => .lost
  | some (some b) =>
    if (s.flags b).busy then
      .again ((s.setFlags b { s.flags b with wanted := true }).sleep p (.buf b))
    else .got (s.notavail p b) b
  | some none =>
    match s.avForw .bfreelist with
    | .bfreelist => .again (({ s with freeWanted := true }).sleep p .bfreelist)
    | .tab _ => .lost
    | .buf b =>
      let s := s.notavail p b
      if (s.flags b).delwri then .again (s.bawrite b drv)
      else .got (s.reassign sw dev blkno b) b

/-- The first delayed write on the free list for `dev`, or for any device. -/
def searchDelwri (s : Cache B T Dev P D) (dev : Option Dev) :
    Nat → Node B T → Option (Option B)
  | 0, _ => none
  | n + 1, .buf b =>
    if (s.flags b).delwri ∧ (dev = none ∨ dev = s.dev b) then some (some b)
    else s.searchDelwri dev n (s.avForw (.buf b))
  | _ + 1, .tab _ => none
  | _ + 1, .bfreelist => some none

/-! ## The processes -/

/-- A buffer that a call returns. -/
structure Ret (B Dev P : Type) where
  p : P
  dev : Dev
  blkno : Nat
  b : B
  /-- `bread` or `breada`, not `getblk`. -/
  read : Bool

/-- Why a step is not made: the process is not there, or a list has led astray. -/
inductive Stop where
  | disabled
  | lost
  deriving DecidableEq

abbrev Outcome (B T Dev P D : Type) := Except Stop (Cache B T Dev P D × Option (Ret B Dev P))

/-- `breada` after both blocks are asked for. -/
def breadaEnd (s : Cache B T Dev P D) (p : P) (dev : Dev) (blkno : Nat) :
    Option B → Cache B T Dev P D
  | none => s.setPc p (.getblk dev blkno .bread)
  | some b => s.setPc p (.iowait b (.bread dev blkno))

/-- `breada` after its first block is asked for. -/
def breadaAhead (s : Cache B T Dev P D) (sw : Bdevsw T Dev) (p : P) (dev : Dev)
    (blkno rablkno : Nat) (bp : Option B) : Outcome B T Dev P D :=
  if rablkno = 0 then .ok (s.breadaEnd p dev blkno bp, none)
  else
    match s.find sw dev rablkno with
    | none => .error .lost
    | some (some _) => .ok (s.breadaEnd p dev blkno bp, none)
    | some none => .ok (s.setPc p (.getblk dev rablkno (.readAhead bp blkno)), none)

/-- The return of `getblk`. -/
def gotBlk (s : Cache B T Dev P D) (sw : Bdevsw T Dev) (p : P) (dev : Dev) (blkno : Nat)
    (b : B) (drv : Driver B T) : Cont B → Outcome B T Dev P D
  | .ret => .ok (s.setPc p .idle, some ⟨p, dev, blkno, b, false⟩)
  | .bread =>
    if (s.flags b).done then .ok (s.setPc p .idle, some ⟨p, dev, blkno, b, true⟩)
    else .ok ((s.startRead b drv).setPc p (.iowait b (.bread dev blkno)), none)
  | .breada rablkno =>
    let s := if (s.flags b).done then s else s.startRead b drv
    s.breadaAhead sw p dev blkno rablkno (some b)
  | .readAhead bp blkno =>
    let s := if (s.flags b).done then s.brelse b else s.startReadAsync b drv
    .ok (s.breadaEnd p dev blkno bp, none)

/-- A process that is not asleep goes on. -/
def run (s : Cache B T Dev P D) (sw : Bdevsw T Dev) (p : P) (drv : Driver B T) :
    Outcome B T Dev P D :=
  match s.pc p with
  | .idle => .error .disabled
  | .getblk dev blkno k =>
    match s.getblkTurn sw p dev blkno drv with
    | .lost => .error .lost
    | .again s => .ok (s, none)
    | .got s b => s.gotBlk sw p dev blkno b drv k
  | .iowait b k =>
    if (s.flags b).done then
      match k with
      | .bread dev blkno => .ok (s.setPc p .idle, some ⟨p, dev, blkno, b, true⟩)
      | .bwrite => .ok ((s.brelse b).setPc p .idle, none)
    else .ok (s.sleep p (.buf b), none)
  | .bflush dev =>
    match s.searchDelwri dev (Fintype.card B + 1) (s.avForw .bfreelist) with
    | none => .error .lost
    | some none => .ok (s.setPc p .idle, none)
    | some (some b) => .ok ((s.notavail p b).bawrite b drv, none)

/-- The steps of the system. The data of the writes are what the holder has put in the
buffer. -/
inductive Act (B T Dev P D : Type) where
  | getblk (p : P) (dev : Dev) (blkno : Nat)
  | bread (p : P) (dev : Dev) (blkno : Nat)
  | breada (p : P) (dev : Dev) (blkno rablkno : Nat)
  | bwrite (p : P) (b : B) (d : D) (drv : Driver B T)
  | bdwrite (p : P) (b : B) (d : D) (drv : Driver B T)
  | bawrite (p : P) (b : B) (d : D) (drv : Driver B T)
  | brelse (p : P) (b : B)
  | bflush (p : P) (dev : Option Dev)
  | run (p : P) (drv : Driver B T)
  | iodone (b : B)

/-- `p` is outside this code, and the buffer is its own. -/
def holds (s : Cache B T Dev P D) (p : P) (b : B) : Bool :=
  match s.pc p with
  | .idle => decide (s.owner b = some p)
  | _ => false

def isIdle (s : Cache B T Dev P D) (p : P) : Bool :=
  match s.pc p with
  | .idle => true
  | _ => false

def setData (s : Cache B T Dev P D) (b : B) (d : D) : Cache B T Dev P D :=
  { s with data := Function.update s.data b d }

/-- `bwrite` by a process, which waits for the end unless the buffer is marked `B_ASYNC`. -/
def bwrite (s : Cache B T Dev P D) (p : P) (b : B) (drv : Driver B T) : Cache B T Dev P D :=
  if (s.flags b).async then s.bwriteAsync b drv
  else (s.startWrite b drv).setPc p (.iowait b .bwrite)

/-- `bdwrite`: the write is complete for all who look here. -/
def bdwrite (s : Cache B T Dev P D) (sw : Bdevsw T Dev) (b : B) (drv : Driver B T) :
    Cache B T Dev P D :=
  match s.dev b with
  | none => s
  | some dev =>
    if sw.tape (sw.tab dev) then s.bawrite b drv
    else
      let s := { s with
        last := Function.update s.last dev
          (Function.update (s.last dev) (s.blkno b) (s.data b)) }
      (s.setFlags b { s.flags b with delwri := true, done := true }).brelse b

def step (s : Cache B T Dev P D) (sw : Bdevsw T Dev) : Act B T Dev P D → Outcome B T Dev P D
  | .getblk p dev blkno =>
    if s.isIdle p then .ok (s.setPc p (.getblk dev blkno .ret), none) else .error .disabled
  | .bread p dev blkno =>
    if s.isIdle p then .ok (s.setPc p (.getblk dev blkno .bread), none) else .error .disabled
  | .breada p dev blkno rablkno =>
    if s.isIdle p then
      match s.find sw dev blkno with
      | none => .error .lost
      | some none => .ok (s.setPc p (.getblk dev blkno (.breada rablkno)), none)
      | some (some _) => s.breadaAhead sw p dev blkno rablkno none
    else .error .disabled
  | .bwrite p b d drv =>
    if s.holds p b then .ok ((s.setData b d).bwrite p b drv, none) else .error .disabled
  | .bdwrite p b d drv =>
    if s.holds p b then .ok ((s.setData b d).bdwrite sw b drv, none) else .error .disabled
  | .bawrite p b d drv =>
    if s.holds p b then .ok ((s.setData b d).bawrite b drv, none) else .error .disabled
  | .brelse p b => if s.holds p b then .ok (s.brelse b, none) else .error .disabled
  | .bflush p dev =>
    if s.isIdle p then .ok (s.setPc p (.bflush dev), none) else .error .disabled
  | .run p drv => if s.asleep p = none then s.run sw p drv else .error .disabled
  | .iodone b => if s.pending b then .ok (s.iodone b, none) else .error .disabled

/-! ## The start -/

/-- `binit` for one buffer. -/
def initBuf (s : Cache B T Dev P D) (b : B) : Cache B T Dev P D :=
  let first := s.forw .bfreelist
  let s := { s with
    dev := Function.update s.dev b none
    back := Function.update (Function.update s.back (.buf b) .bfreelist) first (.buf b)
    forw := Function.update (Function.update s.forw (.buf b) first) .bfreelist (.buf b) }
  (s.setFlags b { noFlags with busy := true }).brelse b

/-- `binit`: all lists are empty, and every buffer is put on the list of `bfreelist` and on the
free list. The headers of the devices point to themselves. -/
def binit (bufs : List B) (s : Cache B T Dev P D) : Cache B T Dev P D :=
  let selfNode : (Node B T → Node B T) → Node B T → Node B T := fun f n =>
    match n with
    | .buf b => f (.buf b)
    | n => n
  bufs.foldl initBuf { s with
    forw := selfNode s.forw
    back := selfNode s.back
    avForw := Function.update s.avForw .bfreelist .bfreelist
    avBack := Function.update s.avBack .bfreelist .bfreelist }

end Cache

end Venix.Bio
