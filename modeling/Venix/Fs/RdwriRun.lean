/-
  Sequences of `readi` and `writei` calls on a regular file.

  `ByteFile` is what a file is for: a size, and a byte at every offset, 0 where nothing was
  written. `FileRep` connects it to an inode on a volume. A request is permitted where the file
  is addressable, the memory is mapped and the drivers leave `b_resid` 0.
  `readi_writei_refine_bytes`: every sequence of permitted calls, none of which runs out of
  space, returns what the byte array returns.
-/
import Venix.Fs.FileBytes

namespace Venix.Fs

open Venix.Lib

/-- A file as an array of bytes. -/
structure ByteFile where
  size : Nat
  byte : Nat → Byte
  hole : ∀ o, size ≤ o → byte o = 0

/-- Replace the `n` bytes from `off` on. -/
def ByteFile.write (f : ByteFile) (off n : Nat) (data : Nat → Byte) : ByteFile where
  size := max f.size (off + n)
  byte := fun o => if off ≤ o ∧ o < off + n then data (o - off) else f.byte o
  hole := by
    intro o ho
    rw [if_neg (by omega), f.hole o (by omega)]

/-- A call, with the request it is made for and the devices at that time. -/
structure FileCall where
  rw : Rwflg
  u : User
  d : Dev
  rdisk : Daddr → Block

/-- `readi` or `writei` in a system call, where `u_error` starts clear. The call returns what is
    left of the request, the memory in it, and the error. -/
def fileStep (st : File) (c : FileCall) : File × User × Option Errno :=
  let s : Rw := ⟨st.1.clearError, st.2, c.u, c.rdisk⟩
  let s := match c.rw with
    | .bRead => readi c.d s
    | .bWrite => writei c.d s
  ((s.v, s.ip), s.u, s.v.uError)

/-- The same calls on an array of bytes. -/
def byteStep (f : ByteFile) (c : FileCall) : ByteFile × User × Option Errno :=
  let off := c.u.uOffset.toNat
  match c.rw with
  | .bRead => (f, c.u.deliver (min c.u.uCount (f.size - off)) (fun j => f.byte (off + j)), none)
  | .bWrite =>
    if c.u.uCount = 0 then (f, c.u, none)
    else (f.write off c.u.uCount c.u.byteAt, c.u.advance c.u.uCount, none)

/-- Offsets are in the addressable range, memory is mapped, drivers transfer whole blocks. -/
structure FileCall.Permitted (c : FileCall) : Prop where
  offset : 0 ≤ c.u.uOffset
  range : c.rw = .bWrite → c.u.uOffset + c.u.uCount ≤ maxBn * 512
  present : c.u.Present c.u.uCount
  resid : ∀ a, c.d.bResid a = 0

/-- The inode and the volume hold the file `f`. -/
structure FileRep (st : File) (f : ByteFile) : Prop where
  mapped : ∃ L, Mapped st.1 st.2 L
  itype : st.2.iType = .ifreg
  size : st.2.iSize = f.size
  range : f.size ≤ maxBn * 512
  bytes : ∀ o, o < maxBn * 512 → fileByte st.1 st.2 o = f.byte o

theorem FileRep.request {st : File} {f : ByteFile} (h : FileRep st f) {c : FileCall}
    (hc : c.Permitted) (fl : BitVec 8) :
    ∃ L, Request ⟨st.1.clearError, { st.2 with iFlag := fl }, c.u, c.rdisk⟩ L c.u.uOffset.toNat := by
  obtain ⟨L, hm⟩ := h.mapped
  have := hc.offset
  exact ⟨L, hm.congr rfl rfl rfl, h.itype, rfl, by dsimp only; omega, hc.present⟩

/-- A read returns the bytes of the array and leaves the file as it is. -/
theorem readi_refines {st : File} {f : ByteFile} (h : FileRep st f) {c : FileCall}
    (hrw : c.rw = .bRead) (hc : c.Permitted) :
    (fileStep st c).2 = (byteStep f c).2 ∧ FileRep (fileStep st c).1 (byteStep f c).1 := by
  obtain ⟨L, hreq⟩ := h.request hc (st.2.iFlag ||| iacc)
  have hoff := hc.offset
  unfold fileStep byteStep readi
  rw [hrw]
  dsimp only
  by_cases h0 : c.u.uCount = 0
  · rw [if_pos h0, h0, Nat.zero_min, deliver_zero]
    refine ⟨rfl, ?_, h.itype, h.size, h.range, h.bytes⟩
    obtain ⟨L, hm⟩ := h.mapped
    exact ⟨L, hm.congr rfl rfl rfl⟩
  rw [if_neg h0, if_neg (by omega), if_neg (by rw [h.itype]; simp)]
  obtain ⟨r, l, hloop⟩ := readiLoop_eq c.d hc.resid c.u.uCount _ L _ f.size hreq h.size h.range
    (by dsimp only; omega) (Nat.le_refl _)
  rw [hloop]
  unfold Rw.read
  dsimp only
  refine ⟨?_, ?_, h.itype, h.size, h.range, fun o ho => h.bytes o ho⟩
  · rw [deliver_congr]
    · rfl
    · intro j hj
      have := h.range
      exact h.bytes _ (by omega)
  · obtain ⟨L, hm⟩ := h.mapped
    exact ⟨L, hm.congr rfl rfl rfl⟩

/-- A write replaces bytes of the array, unless the volume is full. -/
theorem writei_refines {st : File} {f : ByteFile} (h : FileRep st f) {c : FileCall}
    (hrw : c.rw = .bWrite) (hc : c.Permitted) (hspace : (fileStep st c).2.2 ≠ some .enospc) :
    (fileStep st c).2 = (byteStep f c).2 ∧ FileRep (fileStep st c).1 (byteStep f c).1 := by
  obtain ⟨L, hreq⟩ := h.request hc st.2.iFlag
  have hoff := hc.offset
  have hrange := hc.range hrw
  unfold fileStep writei at hspace
  unfold fileStep byteStep writei
  rw [hrw] at hspace ⊢
  dsimp only at hspace ⊢
  rw [if_neg (by omega), if_neg (by rw [h.itype]; simp)] at hspace ⊢
  by_cases h0 : c.u.uCount = 0
  · rw [if_pos h0, if_pos h0]
    refine ⟨rfl, ?_, h.itype, h.size, h.range, fun o ho => h.bytes o ho⟩
    obtain ⟨L, hm⟩ := h.mapped
    exact ⟨L, hm.congr rfl rfl rfl⟩
  rw [if_neg h0] at hspace ⊢
  rw [if_neg h0]
  rcases writeiLoop_wrote c.d c.u.uCount _ L _ hreq (by dsimp only; omega) (Nat.le_refl _)
    (by dsimp only; omega) with he | hw
  · exact absurd he hspace
  obtain ⟨L', hreq'⟩ := hw.request
  refine ⟨?_, ⟨L', hreq'.mapped⟩, hreq'.itype, ?_, ?_, ?_⟩
  · dsimp only
    rw [hw.user, hreq'.noError]
  · rw [hw.size, h.size]
    unfold ByteFile.write
    dsimp only
    push_cast
    rfl
  · have := h.range
    unfold ByteFile.write
    dsimp only
    omega
  · intro o ho
    rw [hw.bytes o ho]
    unfold ByteFile.write
    dsimp only
    by_cases hin : c.u.uOffset.toNat ≤ o ∧ o < c.u.uOffset.toNat + c.u.uCount
    · rw [if_pos hin, if_pos hin]
    · rw [if_neg hin, if_neg hin]
      exact h.bytes o ho

/-- **A regular file is an array of bytes.** Every sequence of permitted `readi` and `writei`
    calls, none of which runs out of space, returns what the byte array returns, and leaves the
    file holding that array. Which of its two paths `iomove` takes makes no difference. -/
theorem readi_writei_refine_bytes (st : File) (f : ByteFile) (calls : List FileCall)
    (hrep : FileRep st f) (hok : ∀ c ∈ calls, c.Permitted)
    (hspace : ∀ o ∈ (exec fileStep st calls).2, o.2 ≠ some .enospc) :
    (exec fileStep st calls).2 = (exec byteStep f calls).2 ∧
      FileRep (exec fileStep st calls).1 (exec byteStep f calls).1 ∧
      ∀ (u : User) (b : Block) (on n : Nat) (flag : Rwflg), n ≤ u.uCount → u.Present n →
        bulkMove u b on n flag = byteMove u b on n flag := by
  have hstep : ∀ (st : File) (f : ByteFile) (c : FileCall), FileRep st f → c.Permitted →
      (fileStep st c).2.2 ≠ some .enospc →
      (fileStep st c).2 = (byteStep f c).2 ∧ FileRep (fileStep st c).1 (byteStep f c).1 := by
    intro st f c h hc hs
    cases hrw : c.rw with
    | bRead => exact readi_refines h hrw hc
    | bWrite => exact writei_refines h hrw hc hs
  obtain ⟨hout, hfin⟩ :=
    exec_refines_good hstep st f calls hrep (allowed_of_forall f calls hok) hspace
  exact ⟨hout, hfin, bulkMove_eq_byteMove⟩

def ByteFile.empty : ByteFile := ⟨0, fun _ => 0, fun _ _ => rfl⟩

/-- An empty file on a volume with one free block. -/
def oneBlockFile : File := (free emptyVol 5 Bytes.zero, emptyInode)

theorem fileRep_oneBlockFile : FileRep oneBlockFile ByteFile.empty := by
  refine ⟨⟨[5], emptyFile_emptyInode.mapped freeList_oneBlock⟩, rfl, rfl, Nat.zero_le _, ?_⟩
  intro o ho
  have h0 : blockOf oneBlockFile.1 oneBlockFile.2 (o / 512) = 0 :=
    emptyFile_emptyInode.addrAt_eq_zero _ (bmapPath_ok (by omega)).1
  rw [fileByte, if_pos h0]
  rfl

/-- A request of `n` bytes at `off`, in a memory of sevens. -/
def sevens (rw : Rwflg) (off : Int) (n : Nat) : FileCall :=
  ⟨rw, ⟨100, n, off, .userD, fun _ _ => some 7⟩, ⟨fun _ => 0, fun _ => 0, fun _ => Bytes.zero, id, id⟩,
    fun _ => Bytes.zero⟩

theorem sevens_permitted (rw : Rwflg) (off n : Nat) (h : off + n ≤ maxBn * 512) :
    (sevens rw off n).Permitted := by
  refine ⟨Int.natCast_nonneg off, ?_, ?_, fun _ => rfl⟩
  · intro _
    unfold sevens
    dsimp only
    omega
  · intro _ _
    exact Option.some_ne_none _

theorem readi_writei_refine_bytes_oneBlock :
    FileRep oneBlockFile ByteFile.empty ∧
      (exec fileStep oneBlockFile [sevens .bWrite 5 3, sevens .bRead 0 20]).2 =
        (exec byteStep ByteFile.empty [sevens .bWrite 5 3, sevens .bRead 0 20]).2 := by
  have hspace : (exec fileStep oneBlockFile [sevens .bWrite 5 3, sevens .bRead 0 20]).2.map
      (fun o => o.2) = [none, none] := by
    decide
  refine ⟨fileRep_oneBlockFile, (readi_writei_refine_bytes _ _ _ fileRep_oneBlockFile ?_ ?_).1⟩
  · intro c hc
    simp only [List.mem_cons, List.not_mem_nil, or_false] at hc
    rcases hc with rfl | rfl
    · exact sevens_permitted .bWrite 5 3 (by decide)
    · exact sevens_permitted .bRead 0 20 (by decide)
  · intro o ho
    have hmem := List.mem_map_of_mem (f := fun o => o.2) ho
    rw [hspace] at hmem
    simp only [List.mem_cons, List.not_mem_nil, or_false, or_self] at hmem
    rw [hmem]
    exact (Option.some_ne_none _).symm

/-- A write of no bytes past the end does not extend the file. -/
theorem writei_zero_bytes_keeps_size :
    FileRep oneBlockFile ByteFile.empty ∧ (sevens .bWrite 1 0).Permitted ∧
      (fileStep oneBlockFile (sevens .bWrite 1 0)).2.2 = none ∧
      (fileStep oneBlockFile (sevens .bWrite 1 0)).1.2.iSize ≠
        max oneBlockFile.2.iSize (1 + 0) := by
  refine ⟨fileRep_oneBlockFile, sevens_permitted .bWrite 1 0 (by decide), rfl, by decide⟩

end Venix.Fs
