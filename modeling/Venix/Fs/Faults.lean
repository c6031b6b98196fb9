/-
  `writei` and `bmap` on a disk that cannot always be read (`rdwri.c`, `subr.c` and `alloc.c`).

  `Faults` says which of the reads of one request fail, counted for each kind of block. A read that
  fails sets `u_error`; what it leaves in the buffer is not kept, as `brelse` takes such a buffer
  away from its block. Apart from that the functions are those of `Alloc`, `Bmap` and `Rdwri`, and
  are equal to them where nothing fails (`bmapF_quiet`).
-/
import Venix.Fs.FileBytes

namespace Venix.Fs

open Venix.Lib

/-- The reads that fail: the n-th one of a block of the free list, of an indirect block, or of a
block of data. -/
structure Faults where
  free : Nat → Bool
  indir : Nat → Bool
  data : Nat → Bool
  /-- The buffer after a read of data that failed. -/
  junk : Nat → Block

/-- The reads that were made. -/
structure Reads where
  free : Nat
  indir : Nat
  data : Nat

def allocF (e : Faults) (r : Reads) (fs : Vol) : Option Buf × Vol × Reads :=
  match allocLoop (nicfree + 1) (getfs fs) with
  | (none, fs) => ((nospace fs).1, (nospace fs).2, r)
  | (some bno, fs) =>
    let done (fs : Vol) (r : Reads) : Option Buf × Vol × Reads :=
      (some ⟨bno, Bytes.zero⟩, { fs with sb := { fs.sb with sFmod := true } }, r)
    if fs.sb.sNfree ≤ 0 then
      let bp := fs.disk bno
      let fs :=
        if e.free r.free then { fs with uError := some .eio }
        else { fs with sb := { fs.sb with sNfree := dfNfree bp, sFree := dfFree bp } }
      let r := { r with free := r.free + 1 }
      if fs.sb.sNfree ≤ 0 then ((nospace fs).1, (nospace fs).2, r) else done fs r
    else done fs r

/-- `indirLoop`; an error is what `bmap` returns. -/
def indirLoopF (e : Faults) (rw : Rwflg) (bn : Nat) :
    Nat → Nat → Daddr → Nat × Block → Reads → Vol → Except Daddr (Daddr × Nat × Block) × Vol × Reads
  | 0, _, nb, last, r, v => (.ok (nb, last), v, r)
  | k + 1, sh, nb, _, r, v =>
    if e.indir r.indir then
      (.error 0, { v with uError := some .eio }, { r with indir := r.indir + 1 })
    else
      let r := { r with indir := r.indir + 1 }
      let bap := v.disk nb
      let sh := sh - nshift
      let i := (bn >>> sh) &&& nmask
      let nb' := bap.getLong (4 * i)
      if nb' = 0 then
        if rw = .bRead then (.error (-1), v, r)
        else match allocF e r v with
          | (none, v, r) => (.error (-1), v, r)
          | (some nbp, v, r) =>
            let v := v.bwrite nbp
            let bap := bap.putLong (4 * i) nbp.bBlkno
            let v := v.bwrite ⟨nb, bap⟩
            indirLoopF e rw bn k sh nbp.bBlkno (i, bap) r v
      else indirLoopF e rw bn k sh nb' (i, bap) r v

def inodeSlotF (e : Faults) (r : Reads) (v : Vol) (ip : Inode) (rw : Rwflg) (i : Nat) :
    Option Daddr × Vol × Inode × Reads :=
  let nb := ip.iAddr.get i
  if nb = 0 then
    if rw = .bRead then (none, v, ip, r)
    else match allocF e r v with
      | (none, v, r) => (none, v, ip, r)
      | (some bp, v, r) =>
        (some bp.bBlkno, v.bwrite bp,
          { ip with iAddr := ip.iAddr.put i bp.bBlkno, iFlag := ip.iFlag ||| (iupd ||| ichg) }, r)
  else (some nb, v, ip, r)

/-- What `bmap` leaves, and what it returns. -/
structure Bmapped where
  bn : Daddr
  v : Vol
  ip : Inode
  r : Reads

def bmapF (e : Faults) (r : Reads) (v : Vol) (ip : Inode) (bn : Int) (rw : Rwflg) : Bmapped :=
  if bn < 0 then ⟨0, { v with uError := some .efbig }, ip, r⟩
  else
    let v := { v with rablock := 0 }
    let bn := bn.toNat
    if bn < naddr - 3 then
      match inodeSlotF e r v ip rw bn with
      | (none, v, ip, r) => ⟨-1, v, ip, r⟩
      | (some nb, v, ip, r) =>
        ⟨nb, if bn < naddr - 4 then { v with rablock := ip.iAddr.get (bn + 1) } else v, ip, r⟩
    else
      match levelLoop 3 0 1 (bn - (naddr - 3)) with
      | (0, _, _) => ⟨0, { v with uError := some .efbig }, ip, r⟩
      | (j, sh, bn) =>
        match inodeSlotF e r v ip rw (naddr - j) with
        | (none, v, ip, r) => ⟨-1, v, ip, r⟩
        | (some nb, v, ip, r) =>
          match indirLoopF e rw bn (4 - j) sh nb (0, Bytes.zero) r v with
          | (.error ret, v, r) => ⟨ret, v, ip, r⟩
          | (.ok (nb, i, bap), v, r) =>
            ⟨nb, if i < nindir - 1 then { v with rablock := bap.getLong (4 * (i + 1)) } else v, ip, r⟩

/-! ## `writei` -/

/-- A request, with the reads that were made for it. -/
structure Wr where
  s : Rw
  r : Reads

/-- The block that the next round is about. -/
def Wr.lbn (w : Wr) : Int := w.s.u.uOffset / 512

/-- Where in the block the next round starts. -/
def Wr.on (w : Wr) : Nat := (w.s.u.uOffset % 512).toNat

/-- The bytes of the next round. -/
def Wr.n (w : Wr) : Nat := min (512 - w.on) w.s.u.uCount

/-- The buffer for block `bn`, where `disk` is what the device holds: its contents, and whether it
can be used. -/
def Wr.buffer (d : Dev) (e : Faults) (w : Wr) (disk : Daddr → Block) (bn : Daddr) :
    Block × Bool × Wr :=
  if w.n = 512 then (d.stale bn, true, w)
  else
    let r := { w.r with data := w.r.data + 1 }
    if e.data w.r.data then
      (e.junk w.r.data, false, ⟨{ w.s with v := { w.s.v with uError := some .eio } }, r⟩)
    else (disk bn, true, ⟨w.s, r⟩)

/-- The rest of a round, for block `bn` of the file. -/
def Wr.fill (d : Dev) (e : Faults) (w : Wr) (bn : Daddr) : Wr :=
  match w.buffer d e w.s.v.disk bn with
  | (b, ok, w') =>
    let t := iomove w.s.u (d.bAddr bn + w.on) b w.on w.n .bWrite
    let s := if ok then { w'.s with v := w'.s.v.bwrite ⟨bn, t.2.1⟩ } else w'.s
    ⟨writeiEnd s t, w'.r⟩

/-- The rest of a round, for block `bn` of a block special file. -/
def Wr.fillSpecial (d : Dev) (e : Faults) (w : Wr) (bn : Daddr) : Wr :=
  match w.buffer d e w.s.rdisk bn with
  | (b, ok, w') =>
    let t := iomove w.s.u (d.bAddr bn + w.on) b w.on w.n .bWrite
    let s := if ok then { w'.s with rdisk := Function.update w'.s.rdisk bn t.2.1 } else w'.s
    ⟨writeiEnd s t, w'.r⟩

/-- A round of the loop of `writei`, and whether it returns. -/
def writeiRound (d : Dev) (e : Faults) (w : Wr) : Bool × Wr :=
  if w.s.ip.iType ≠ .ifblk ∧ w.s.ip.iType ≠ .ifmpb then
    let m := bmapF e w.r w.s.v w.s.ip w.lbn .bWrite
    let w : Wr := ⟨{ w.s with v := m.v, ip := m.ip }, m.r⟩
    if m.bn.toInt < 0 then (true, w) else (false, w.fill d e m.bn)
  else (false, w.fillSpecial d e (BitVec.ofInt 32 w.lbn))

/-- The loop of `writei`; a round that does not end it moves at least one byte. -/
def writeiLoopF (d : Dev) (e : Faults) : Nat → Wr → Wr
  | 0, w => w
  | k + 1, w =>
    match writeiRound d e w with
    | (true, w) => w
    | (false, w) => if w.s.v.uError = none ∧ w.s.u.uCount ≠ 0 then writeiLoopF d e k w else w

def writeiF (d : Dev) (e : Faults) (w : Wr) : Wr :=
  if w.s.u.uOffset < 0 then ⟨{ w.s with v := { w.s.v with uError := some .einval } }, w.r⟩
  else if w.s.ip.iType = .ifchr ∨ w.s.ip.iType = .ifmpc then
    ⟨d.dWrite { w.s with ip := { w.s.ip with iFlag := w.s.ip.iFlag ||| (iupd ||| ichg) } }, w.r⟩
  else if w.s.u.uCount = 0 then w
  else writeiLoopF d e w.s.u.uCount w

/-! ## Without faults -/

/-- Nothing fails. -/
structure Faults.Quiet (e : Faults) : Prop where
  free : ∀ i, e.free i = false
  indir : ∀ i, e.indir i = false
  data : ∀ i, e.data i = false

variable {e : Faults}

theorem allocF_quiet (he : e.Quiet) (r : Reads) (v : Vol) :
    ∃ r', allocF e r v = ((alloc v).1, (alloc v).2, r') := by
  unfold allocF alloc
  rcases allocLoop (nicfree + 1) (getfs v) with ⟨_ | bno, v'⟩
  · exact ⟨r, rfl⟩
  · dsimp only
    by_cases hlast : v'.sb.sNfree ≤ 0
    · simp only [if_pos hlast, he.free, Bool.false_eq_true, if_false]
      split
      · exact ⟨_, rfl⟩
      · exact ⟨_, rfl⟩
    · rw [if_neg hlast, if_neg hlast]
      exact ⟨r, rfl⟩

theorem inodeSlotF_quiet (he : e.Quiet) (r : Reads) (v : Vol) (ip : Inode) (rw : Rwflg) (i : Nat) :
    ∃ r', inodeSlotF e r v ip rw i = ((inodeSlot v ip rw i).1, (inodeSlot v ip rw i).2.1,
      (inodeSlot v ip rw i).2.2, r') := by
  obtain ⟨r', halloc⟩ := allocF_quiet he r v
  unfold inodeSlotF inodeSlot
  dsimp only
  rw [halloc]
  split
  · split
    · exact ⟨r, rfl⟩
    · rcases alloc v with ⟨bp | bp, v'⟩
      · exact ⟨r', rfl⟩
      · exact ⟨r', rfl⟩
  · exact ⟨r, rfl⟩

/-- What `bmap` returns for the end of a walk. -/
def walkOf : Option (Daddr × Nat × Block) → Except Daddr (Daddr × Nat × Block)
  | none => .error (-1)
  | some x => .ok x

theorem indirLoopF_quiet (he : e.Quiet) (rw' : Rwflg) (bn k sh : Nat) (nb : Daddr)
    (last : Nat × Block) (r : Reads) (v : Vol) :
    ∃ r', indirLoopF e rw' bn k sh nb last r v =
      (walkOf (indirLoop rw' bn k sh nb last v).1, (indirLoop rw' bn k sh nb last v).2, r') := by
  induction k generalizing sh nb last r v with
  | zero => exact ⟨r, rfl⟩
  | succ k ih =>
    obtain ⟨r', halloc⟩ := allocF_quiet he { r with indir := r.indir + 1 } v
    unfold indirLoopF indirLoop
    rw [if_neg (by rw [he.indir]; exact Bool.false_ne_true)]
    dsimp only
    rw [halloc]
    split
    · split
      · exact ⟨_, rfl⟩
      · rcases alloc v with ⟨bp | bp, v'⟩
        · exact ⟨r', rfl⟩
        · exact ih _ _ _ r' _
    · exact ih _ _ _ _ _

/-- Without faults `bmapF` is `bmap`. -/
theorem bmapF_quiet (he : e.Quiet) (r : Reads) (v : Vol) (ip : Inode) (bn : Int) (rw' : Rwflg) :
    (bmapF e r v ip bn rw').bn = (bmap v ip bn rw').1 ∧
      (bmapF e r v ip bn rw').v = (bmap v ip bn rw').2.1 ∧
      (bmapF e r v ip bn rw').ip = (bmap v ip bn rw').2.2 := by
  unfold bmapF bmap
  split
  · exact ⟨rfl, rfl, rfl⟩
  · dsimp only
    split
    · obtain ⟨r', hslot⟩ := inodeSlotF_quiet he r { v with rablock := 0 } ip rw' bn.toNat
      rw [hslot]
      rcases inodeSlot { v with rablock := 0 } ip rw' bn.toNat with ⟨_ | nb, v', ip'⟩
      · exact ⟨rfl, rfl, rfl⟩
      · exact ⟨rfl, rfl, rfl⟩
    · rcases levelLoop 3 0 1 (bn.toNat - (naddr - 3)) with ⟨_ | j, sh, bn'⟩
      · exact ⟨rfl, rfl, rfl⟩
      · obtain ⟨r', hslot⟩ := inodeSlotF_quiet he r { v with rablock := 0 } ip rw' (naddr - (j + 1))
        simp only [hslot]
        rcases inodeSlot { v with rablock := 0 } ip rw' (naddr - (j + 1)) with ⟨_ | nb, v', ip'⟩
        · exact ⟨rfl, rfl, rfl⟩
        · obtain ⟨r'', hwalk⟩ := indirLoopF_quiet he rw' bn' (4 - (j + 1)) sh nb (0, Bytes.zero) r' v'
          dsimp only
          rw [hwalk]
          rcases indirLoop rw' bn' (4 - (j + 1)) sh nb (0, Bytes.zero) v' with ⟨_ | x, v''⟩
          · exact ⟨rfl, rfl, rfl⟩
          · exact ⟨rfl, rfl, rfl⟩

theorem buffer_quiet (he : e.Quiet) (d : Dev) (w : Wr) (disk : Daddr → Block) (bn : Daddr) :
    ∃ r', w.buffer d e disk bn = (if w.n = 512 then d.stale bn else disk bn, true, ⟨w.s, r'⟩) := by
  unfold Wr.buffer
  split
  · exact ⟨w.r, rfl⟩
  · dsimp only
    rw [he.data]
    exact ⟨_, rfl⟩

/-- The loop of `writei` does a round that comes to `w'`, and goes on unless it returns. -/
def Rounds (d : Dev) (s : Rw) (stop : Bool) (s' : Rw) : Prop :=
  ∀ k, (stop = false → s'.v.uError = none ∧ s'.u.uCount ≠ 0 →
      writeiLoop d (k + 1) s = writeiLoop d k s') ∧
    (stop = true ∨ ¬(s'.v.uError = none ∧ s'.u.uCount ≠ 0) → writeiLoop d (k + 1) s = s')

/-- A round without faults is one of `writei`. -/
theorem writeiRound_quiet (he : e.Quiet) (d : Dev) (w : Wr) :
    Rounds d w.s (writeiRound d e w).1 (writeiRound d e w).2.s := by
  obtain ⟨hbn, hv, hip⟩ := bmapF_quiet he w.r w.s.v w.s.ip (w.s.u.uOffset / 512) .bWrite
  rcases hmap : bmap w.s.v w.s.ip (w.s.u.uOffset / 512) .bWrite with ⟨bn, v, ip⟩
  rw [hmap] at hbn hv hip
  unfold writeiRound
  by_cases htype : w.s.ip.iType ≠ .ifblk ∧ w.s.ip.iType ≠ .ifmpb
  · rw [if_pos htype]
    unfold Wr.lbn
    dsimp only
    rw [hbn, hv, hip]
    by_cases hneg : bn.toInt < 0
    · rw [if_pos hneg]
      refine fun k => ⟨fun h => Bool.noConfusion h, fun _ => ?_⟩
      rw [writeiLoop]
      rw [if_pos htype, hmap]
      exact if_pos hneg
    · rw [if_neg hneg]
      obtain ⟨r', hbuf⟩ := buffer_quiet he d
        ⟨{ w.s with v := v, ip := ip }, (bmapF e w.r w.s.v w.s.ip (w.s.u.uOffset / 512) .bWrite).r⟩
        v.disk bn
      unfold Wr.fill
      rw [hbuf]
      dsimp only [Wr.n, Wr.on]
      rw [if_pos rfl]
      refine fun k => ⟨fun _ hnext => ?_, fun hnext => ?_⟩
      · rw [writeiLoop]
        rw [if_pos htype, hmap]
        exact (if_neg hneg).trans (if_pos hnext)
      · rw [writeiLoop]
        rw [if_pos htype, hmap]
        exact (if_neg hneg).trans (if_neg (hnext.resolve_left Bool.false_ne_true))
  · rw [if_neg htype]
    obtain ⟨r', hbuf⟩ := buffer_quiet he d w w.s.rdisk (BitVec.ofInt 32 w.lbn)
    unfold Wr.fillSpecial
    rw [hbuf]
    dsimp only [Wr.n, Wr.on, Wr.lbn]
    rw [if_pos rfl]
    refine fun k => ⟨fun _ hnext => ?_, fun hnext => ?_⟩
    · rw [writeiLoop]
      exact (if_neg htype).trans (if_pos hnext)
    · rw [writeiLoop]
      exact (if_neg htype).trans (if_neg (hnext.resolve_left Bool.false_ne_true))

theorem writeiLoopF_quiet (he : e.Quiet) (d : Dev) (k : Nat) (w : Wr) :
    (writeiLoopF d e k w).s = writeiLoop d k w.s := by
  induction k generalizing w with
  | zero => rfl
  | succ k ih =>
    obtain ⟨hgo, hend⟩ := writeiRound_quiet he d w k
    rcases hround : writeiRound d e w with ⟨stop, w'⟩
    rw [hround] at hgo hend
    unfold writeiLoopF
    rw [hround]
    cases stop with
    | true => exact (hend (Or.inl rfl)).symm
    | false =>
      dsimp only
      split
      · next hnext => rw [ih w', hgo rfl hnext]
      · next hnext => exact (hend (Or.inr hnext)).symm

/-- Without faults `writeiF` is `writei`. -/
theorem writeiF_quiet (he : e.Quiet) (d : Dev) (w : Wr) : (writeiF d e w).s = writei d w.s := by
  unfold writeiF writei
  split
  · rfl
  · split
    · rfl
    · split
      · rfl
      · exact writeiLoopF_quiet he d _ w

end Venix.Fs
