/-
  The transfers of a raw request, block by block.

  A chunk is the rest of the request, or as much as the drive takes, or what is left of the 64 KiB
  page, or the one block that straddles its end. Each moves the next blocks of the request and leaves
  a header for the rest of it (`Advanced`), so that the whole run moves each block once and in order.
  Two things are not as they should be: a request that is cut at the end of a page is not cut at the
  limit of the drive, and the 16-bit byte count of a request of more than 127 blocks is 0. The range
  check, for its part, adds in 16 bits.
-/
import Venix.Xt.Driver

namespace Venix.Xt

/-- The blocks of a request. -/
def nblocks (w : Int) : Nat := ((-w + 255) / 256).toNat

/-- The memory of block `i` of a request. -/
def userMem (b : Buf) (i : Nat) : Nat := (b.xmem * 65536 + b.addr + 512 * i) % 2 ^ 20

/-- The place of block `i` on the disk. -/
def diskBlock (e : Env) (b : Buf) (i : Nat) : Nat := (b.blkno + (e.part b).oblock + i) % 65536

/-- Memory and disk for the first `n` blocks. -/
def wanted (e : Env) (b : Buf) (n : Nat) : List (Nat × Nat) :=
  (List.range n).map fun i => (userMem b i, diskBlock e b i)

variable {e : Env} {b b' : Buf}

/-! ## The byte count -/

theorem rounded_eq {w : Int} (hw : w ≤ 0) (hmin : -32512 ≤ w) : rounded w = 512 * nblocks w := by
  unfold rounded nblocks
  omega

theorem rounded_big {w : Int} (hw : w < -32512) (hmin : -32768 ≤ w) : rounded w = 0 := by
  unfold rounded
  omega

theorem nblocks_le {w : Int} (hmin : -32512 ≤ w) : nblocks w ≤ 127 := by
  unfold nblocks
  omega

theorem nblocks_pos {w : Int} (hw : w < 0) : 0 < nblocks w := by
  unfold nblocks
  omega

/-! ## One transfer -/

/-- A transfer of whole blocks. -/
theorem transfer_blocks (dma : Nat × Nat) {m : Nat} (hpos : 0 < m) (hm : m ≤ 127) :
    (transfer e b dma (512 * m)).blocks = m ∧ (transfer e b dma (512 * m)).len = 512 * m ∧
      (transfer e b dma (512 * m)).bcnt = m := by
  have hbcnt : (transfer e b dma (512 * m)).bcnt = m := by
    change 512 * m / 512 % 256 = m
    omega
  have hlen : (transfer e b dma (512 * m)).len = 512 * m := by
    change (512 * m + 65535) % 65536 + 1 = 512 * m
    omega
  refine ⟨?_, hlen, hbcnt⟩
  unfold Transfer.blocks
  rw [hbcnt, if_neg (by omega)]

theorem transfer_block (dma : Nat × Nat) (count i : Nat) :
    ((transfer e b dma count).block + i) % 65536 = diskBlock e b i := by
  change ((b.blkno + (e.part b).oblock) % 65536 + i) % 65536 = _
  unfold diskBlock
  omega

/-- A transfer to the user's memory that stays in its page. -/
theorem direct_moves {m : Nat} (hpos : 0 < m) (hm : m ≤ 127) (hpage : b.addr + 512 * m ≤ 65536) :
    (Event.mk (transfer e b (b.xmem, b.addr) (512 * m)) none).moves = wanted e b m ∧
      ¬(transfer e b (b.xmem, b.addr) (512 * m)).Crosses := by
  obtain ⟨hblocks, hlen, -⟩ := transfer_blocks (e := e) (b := b) (b.xmem, b.addr) hpos hm
  refine ⟨?_, ?_⟩
  · unfold Event.moves wanted
    rw [hblocks]
    refine List.map_congr_left fun i hi => ?_
    rw [List.mem_range] at hi
    rw [transfer_block]
    refine Prod.ext ?_ rfl
    change (b.xmem * 65536 + (b.addr + 512 * i) % 65536) % 2 ^ 20 = userMem b i
    unfold userMem
    rw [Nat.mod_eq_of_lt (by omega : b.addr + 512 * i < 65536), add_assoc]
  · unfold Transfer.Crosses
    rw [hlen]
    exact not_lt.2 hpage

theorem userCopy_eq (hlo : 0xFE00 < b.addr) (hhi : b.addr < 65536) : userCopy b = userMem b 0 := by
  unfold userCopy userMem u16
  omega

/-- A transfer through the bounce buffer. -/
theorem bounce_moves (hlo : 0xFE00 < b.addr) (hhi : b.addr < 65536) (dma : Nat × Nat) :
    (Event.mk (transfer e b dma 512) (some (userCopy b))).moves = wanted e b 1 := by
  obtain ⟨hblocks, -, -⟩ := transfer_blocks (e := e) (b := b) (m := 1) dma (by decide) (by decide)
  unfold Event.moves wanted
  rw [show (512 : Nat) = 512 * 1 from rfl, hblocks]
  refine List.map_congr_left fun i hi => ?_
  rw [transfer_block]
  refine Prod.ext ?_ rfl
  change (userCopy b + 512 * i) % 2 ^ 20 = userMem b i
  rw [userCopy_eq hlo hhi]
  unfold userMem
  omega

/-! ## The rest of the request -/

/-- `b'` is the header for what follows the first `m` blocks of `b`. -/
structure Advanced (b b' : Buf) (m : Nat) : Prop where
  minor : b'.minor = b.minor
  phys : b'.phys = b.phys
  addr : b'.addr < 65536
  mem : ∀ i, userMem b' i = userMem b (m + i)
  blkno : b'.blkno = (b.blkno + m) % 65536
  wcount : b'.wcount = b.wcount + 256 * m

/-- A raw request that is not too long for its byte count, or begins with the straddling block. -/
structure Ready (b : Buf) : Prop where
  phys : b.phys = true
  addr : b.addr < 65536
  neg : b.wcount < 0
  min : -32768 ≤ b.wcount
  count : 0xFE00 < b.addr ∨ -32512 ≤ b.wcount

theorem Advanced.nblocks {m : Nat} (h : Advanced b b' m) (hm : m ≤ nblocks b.wcount) :
    Xt.nblocks b'.wcount = Xt.nblocks b.wcount - m := by
  unfold Xt.nblocks at hm ⊢
  rw [h.wcount]
  omega

theorem Advanced.wanted {m : Nat} (h : Advanced b b' m) (n : Nat) :
    wanted e b (m + n) = wanted e b m ++ wanted e b' n := by
  unfold Xt.wanted
  rw [List.range_add, List.map_append, List.map_map]
  refine congrArg (List.map _ (List.range m) ++ ·) (List.map_congr_left fun i _ => ?_)
  have hpart : e.part b' = e.part b := by
    unfold Env.part Buf.drive Buf.unit
    rw [h.minor]
  have hblock : diskBlock e b' i = diskBlock e b (m + i) := by
    unfold diskBlock
    rw [hpart, h.blkno]
    omega
  exact Prod.ext (h.mem i).symm hblock.symm

/-- The bounce buffer lies in one page. -/
def Fits (e : Env) : Prop := (kernelDma e.ds e.bounce).2 + 512 ≤ 65536

/-- The event of a good transfer. -/
def event (e : Env) (b : Buf) : Event :=
  ⟨(xtstart e b).t, (xtstart e b).copied <|> (xtintr (xtstart e b)).2⟩

/-- One good transfer: it moves the next `m` blocks, and the request goes on where blocks are left. -/
structure Moved (e : Env) (b : Buf) (m : Nat) : Prop where
  pos : 0 < m
  le : m ≤ nblocks b.wcount
  moves : (event e b).moves = wanted e b m
  page : Fits e → ¬(event e b).t.Crosses
  len : (event e b).t.len = 512 * m
  last : m = nblocks b.wcount → (xtintr (xtstart e b)).1 = none
  next : m < nblocks b.wcount → ∃ b', (xtintr (xtstart e b)).1 = some b' ∧ Advanced b b' m

/-- The header after `m` more blocks. -/
def skip (b : Buf) (m : Nat) (addr xmem : Nat) : Buf :=
  { b with
    addr
    xmem
    wcount := i16 (b.wcount + (512 * m / 2 : Nat)) }

/-! ## The four kinds of chunk -/

/-- `xtintr` after a chunk that was cut off. -/
theorem xtintr_cut {s : Started} (h : s.cntrl = 1) :
    xtintr s = (if s.b.wcount ≥ 0 then none
      else some { s.b with blkno := u16 (s.b.blkno + s.t.bcnt) }, none) := by
  have hneg : ¬s.cntrl < 0 := by
    rw [h]
    decide
  unfold xtintr
  rw [if_pos (by rw [h]; decide)]
  dsimp only
  rw [if_neg hneg]
  simp only [hneg, false_and, if_false]

/-- The header after the block that straddles the end of a page. -/
def past (b : Buf) : Buf :=
  { b with
    addr := u16 (b.addr + 512)
    xmem := u16 (b.xmem + 1)
    wcount := i16 (b.wcount + 256) }

/-- `xtintr` after the block that straddles the end of a page. -/
theorem xtintr_bounced {s : Started} (h : s.cntrl = -1) :
    xtintr s = (if (past s.b).wcount ≥ 0 then none
      else some { past s.b with blkno := u16 (s.b.blkno + s.t.bcnt) },
        if s.b.read then some (userCopy s.b) else none) := by
  have hneg : s.cntrl < 0 := by
    rw [h]
    decide
  unfold xtintr
  rw [if_pos (by rw [h]; decide)]
  dsimp only
  rw [if_pos hneg]
  unfold past
  simp only [hneg, true_and]

theorem xtstart_direct (hphys : b.phys = true) (haddr : b.addr ≤ 0xFE00) {r : Buf × Int × Nat}
    (hr : chunk (e.xd b).maxfer b = r) :
    xtstart e b = ⟨r.1, r.2.1, transfer e b (b.xmem, b.addr) r.2.2, none⟩ := by
  unfold xtstart
  rw [if_pos hphys, if_neg (not_lt.2 haddr)]
  dsimp only
  rw [hr]

/-- The last chunk. -/
theorem rest_moved (h : Ready b) (haddr : b.addr ≤ 0xFE00)
    (hpage : b.addr + 512 * nblocks b.wcount < 65536)
    (hmax : 512 * nblocks b.wcount ≤ (e.xd b).maxfer) : Moved e b (nblocks b.wcount) := by
  have hmin : -32512 ≤ b.wcount := h.count.resolve_left (not_lt.2 haddr)
  have hpos := nblocks_pos h.neg
  have hle := nblocks_le hmin
  have hchunk : chunk (e.xd b).maxfer b = (b, 0, 512 * nblocks b.wcount) := by
    unfold chunk
    dsimp only
    rw [rounded_eq h.neg.le hmin, if_neg]
    unfold u16
    omega
  have hstart := xtstart_direct h.phys haddr hchunk
  obtain ⟨-, hlen, -⟩ := transfer_blocks (e := e) (b := b) (b.xmem, b.addr) hpos hle
  have hevent : event e b = ⟨transfer e b (b.xmem, b.addr) (512 * nblocks b.wcount), none⟩ := by
    unfold event
    rw [hstart]
    rfl
  obtain ⟨hmoves, hcross⟩ := direct_moves (e := e) hpos hle hpage.le
  refine ⟨hpos, le_refl _, ?_, fun _ => ?_, ?_, fun _ => ?_, fun hlt => absurd hlt (lt_irrefl _)⟩
  · rw [hevent]
    exact hmoves
  · rw [hevent]
    exact hcross
  · rw [hevent]
    exact hlen
  · rw [hstart]
    rfl

/-- A chunk that is cut off the request. -/
theorem cut_moved {m : Nat} (addr xmem : Nat) (h : Ready b) (haddr : b.addr ≤ 0xFE00)
    (hpos : 0 < m) (hle : m ≤ nblocks b.wcount) (hpage : b.addr + 512 * m ≤ 65536)
    (hchunk : chunk (e.xd b).maxfer b = (skip b m addr xmem, 1, 512 * m)) (hnew : addr < 65536)
    (hmem : ∀ i, (xmem * 65536 + addr + 512 * i) % 2 ^ 20 = userMem b (m + i)) : Moved e b m := by
  have hmin : -32512 ≤ b.wcount := h.count.resolve_left (not_lt.2 haddr)
  have hm : m ≤ 127 := le_trans hle (nblocks_le hmin)
  have hstart := xtstart_direct h.phys haddr hchunk
  dsimp only at hstart
  obtain ⟨-, hlen, hbcnt⟩ := transfer_blocks (e := e) (b := b) (b.xmem, b.addr) hpos hm
  have hintr : xtintr (xtstart e b) =
      (if (skip b m addr xmem).wcount ≥ 0 then none
        else some { skip b m addr xmem with blkno := u16 (b.blkno + m) }, none) := by
    rw [hstart, xtintr_cut rfl]
    dsimp only
    rw [hbcnt]
    rfl
  have hevent : event e b = ⟨transfer e b (b.xmem, b.addr) (512 * m), none⟩ := by
    unfold event
    rw [hintr, hstart]
    rfl
  have hwcount : (skip b m addr xmem).wcount = b.wcount + 256 * m := by
    change i16 (b.wcount + (512 * m / 2 : Nat)) = _
    unfold i16
    unfold nblocks at hle
    have := h.neg
    omega
  obtain ⟨hmoves, hcross⟩ := direct_moves (e := e) hpos hm hpage
  refine ⟨hpos, hle, ?_, fun _ => ?_, ?_, fun hlast => ?_, fun hlt => ?_⟩
  · rw [hevent]
    exact hmoves
  · rw [hevent]
    exact hcross
  · rw [hevent]
    exact hlen
  · rw [hintr]
    refine if_pos ?_
    rw [hwcount]
    unfold nblocks at hlast
    omega
  · refine ⟨{ skip b m addr xmem with blkno := u16 (b.blkno + m) }, ?_, rfl, rfl, hnew, hmem, rfl,
      hwcount⟩
    rw [hintr]
    refine if_neg ?_
    rw [hwcount]
    unfold nblocks at hlt
    omega

/-- As much as the drive takes. -/
theorem limited_moved (h : Ready b) (haddr : b.addr ≤ 0xFE00)
    (hpage : b.addr + 512 * nblocks b.wcount < 65536) {k : Nat} (hk : (e.xd b).maxfer = 512 * k)
    (hpos : 0 < k) (hmax : 512 * k < 512 * nblocks b.wcount) : Moved e b k := by
  have hmin : -32512 ≤ b.wcount := h.count.resolve_left (not_lt.2 haddr)
  refine cut_moved (b.addr + 512 * k) b.xmem h haddr hpos (by omega) (by omega)
    ?_ (by omega) fun i => ?_
  · unfold chunk
    dsimp only
    rw [rounded_eq h.neg.le hmin, hk, if_pos (Or.inl hmax), if_pos]
    · dsimp only
      unfold skip u16
      rw [Nat.mod_eq_of_lt (by omega)]
    · refine ⟨hmax, ?_⟩
      unfold u16
      omega
  · unfold userMem
    congr 1
    omega

/-- What is left of the page. -/
theorem boundary_moved (h : Ready b) (haddr : b.addr ≤ 0xFE00)
    (hpage : 65536 ≤ b.addr + 512 * nblocks b.wcount) : Moved e b ((65536 - b.addr) / 512) := by
  have hmin : -32512 ≤ b.wcount := h.count.resolve_left (not_lt.2 haddr)
  have hle := nblocks_le hmin
  have hcount : u16 (65536 - b.addr) = 65536 - b.addr := by
    unfold u16
    omega
  by_cases halign : (65536 - b.addr) % 512 = 0
  · refine cut_moved 0 (u16 (b.xmem + 1)) h haddr (by omega) (by omega) (by omega)
      ?_ (by decide) fun i => ?_
    · unfold chunk
      dsimp only
      rw [rounded_eq h.neg.le hmin, if_pos (by unfold u16; omega), if_neg (by unfold u16; omega),
        hcount, if_neg (by omega), show 65536 - b.addr = 512 * ((65536 - b.addr) / 512) by omega]
      dsimp only
      have hzero : u16 (b.addr + 512 * ((65536 - b.addr) / 512)) = 0 := by
        unfold u16
        omega
      rw [hzero, Nat.mul_div_cancel_left _ (by decide : 0 < 512)]
      rfl
    · unfold userMem u16
      omega
  · refine cut_moved (b.addr + (65536 - b.addr) / 512 * 512) b.xmem h haddr
      (by omega) (by omega) (by omega) ?_ (by omega) fun i => ?_
    · unfold chunk
      dsimp only
      rw [rounded_eq h.neg.le hmin, if_pos (by unfold u16; omega), if_neg (by unfold u16; omega),
        hcount, if_pos (by omega)]
      dsimp only
      have hsame : u16 (b.addr + (65536 - b.addr) / 512 * 512) =
          b.addr + (65536 - b.addr) / 512 * 512 := by
        unfold u16
        omega
      rw [hsame, Nat.mul_comm _ 512]
      rfl
    · unfold userMem
      congr 1
      omega

/-- The block that straddles the end of the page. -/
theorem bounced_moved (h : Ready b) (haddr : 0xFE00 < b.addr) : Moved e b 1 := by
  have hlen : (transfer e b (kernelDma e.ds e.bounce) 512).len = 512 := rfl
  have hbcnt : (transfer e b (kernelDma e.ds e.bounce) 512).bcnt = 1 := rfl
  have hstart : xtstart e b = ⟨b, -1, transfer e b (kernelDma e.ds e.bounce) 512,
      if b.read then none else some (userCopy b)⟩ := by
    unfold xtstart
    rw [if_pos h.phys, if_pos haddr]
  have hintr : xtintr (xtstart e b) = (if (past b).wcount ≥ 0 then none
      else some { past b with blkno := u16 (b.blkno + 1) },
        if b.read then some (userCopy b) else none) := by
    rw [hstart, xtintr_bounced rfl]
    dsimp only
    rw [hbcnt]
  have hevent : event e b =
      ⟨transfer e b (kernelDma e.ds e.bounce) 512, some (userCopy b)⟩ := by
    unfold event
    rw [hintr, hstart]
    cases b.read
    · rfl
    · rfl
  have hwcount : (past b).wcount = b.wcount + 256 := by
    change i16 (b.wcount + 256) = _
    unfold i16
    have := h.neg
    have := h.min
    omega
  have hneg := h.neg
  have hnew : u16 (b.addr + 512) < 65536 := Nat.mod_lt _ (by decide)
  have hblkno : u16 (b.blkno + 1) = (b.blkno + 1) % 65536 := by
    unfold u16
    rfl
  refine ⟨by decide, nblocks_pos hneg, ?_, fun hfits => ?_, ?_, fun hlast => ?_, fun hlt => ?_⟩
  · rw [hevent]
    exact bounce_moves haddr h.addr _
  · rw [hevent]
    unfold Transfer.Crosses
    rw [hlen]
    exact not_lt.2 hfits
  · rw [hevent]
    exact hlen
  · rw [hintr]
    refine if_pos ?_
    rw [hwcount]
    unfold nblocks at hlast
    omega
  · have hadv : Advanced b { past b with blkno := u16 (b.blkno + 1) } 1 := by
      refine ⟨by simp only [past], by simp only [past], hnew, fun i => ?_, hblkno, ?_⟩
      · have haddr := h.addr
        unfold userMem
        change ((b.xmem + 1) % 65536 * 65536 + (b.addr + 512) % 65536 + 512 * i) % 1048576 = _
        omega
      · rw [Nat.cast_one, mul_one]
        exact hwcount
    refine ⟨_, ?_, hadv⟩
    rw [hintr]
    refine if_neg ?_
    rw [hwcount]
    unfold nblocks at hlt
    omega

/-! ## Whole requests -/

/-- The limit of a drive: some blocks, and less than 64 KiB. -/
def Whole (maxfer : Nat) : Prop := ∃ k, maxfer = 512 * k ∧ 0 < k ∧ k < 128

/-- What is left of the page is no more than the drive takes, where the request is cut there. -/
def Gentle (e : Env) (b : Buf) : Prop :=
  0xFE00 < b.addr ∨ b.addr + 512 * nblocks b.wcount < 65536 ∨
    (65536 - b.addr) / 512 * 512 ≤ (e.xd b).maxfer

theorem Advanced.addr_eq {m : Nat} (h : Advanced b b' m) :
    b'.addr = (b.addr + 512 * m) % 65536 := by
  have hmem := h.mem 0
  have haddr := h.addr
  unfold userMem at hmem
  omega

theorem Advanced.ready {m : Nat} (h : Advanced b b' m) (hb : Ready b) (hpos : 0 < m)
    (hlt : m < Xt.nblocks b.wcount) : Ready b' := by
  have hw := h.wcount
  have hmin := hb.min
  unfold Xt.nblocks at hlt
  exact ⟨h.phys.trans hb.phys, h.addr, by omega, by omega, Or.inr (by omega)⟩

/-- One good transfer of a request: what is left can be moved the same way. -/
theorem one_moved (h : Ready b) (hmax : Whole (e.xd b).maxfer) :
    ∃ m, Moved e b m ∧ (Gentle e b → 512 * m ≤ (e.xd b).maxfer) ∧
      ∀ b', Advanced b b' m → m < nblocks b.wcount → Gentle e b' := by
  obtain ⟨k, hk, hkpos, hklt⟩ := hmax
  have hmin := h.min
  have hlimit : nblocks b.wcount ≤ 128 := by
    unfold nblocks
    omega
  by_cases haddr : 0xFE00 < b.addr
  · refine ⟨1, bounced_moved h haddr, fun _ => by omega, fun b' hadv hlt => Or.inr (Or.inl ?_)⟩
    have hb' := hadv.addr_eq
    have hold := h.addr
    rw [hadv.nblocks hlt.le]
    omega
  · rw [not_lt] at haddr
    by_cases hpage : b.addr + 512 * nblocks b.wcount < 65536
    · by_cases hrest : 512 * nblocks b.wcount ≤ (e.xd b).maxfer
      · exact ⟨_, rest_moved h haddr hpage hrest, fun _ => hrest,
          fun b' _ hlt => absurd hlt (lt_irrefl _)⟩
      · refine ⟨k, limited_moved h haddr hpage hk hkpos (by omega), fun _ => by omega,
          fun b' hadv hlt => Or.inr (Or.inl ?_)⟩
        have hb' := hadv.addr_eq
        rw [hadv.nblocks hlt.le]
        omega
    · refine ⟨_, boundary_moved h haddr (by omega), fun hg => ?_, fun b' hadv hlt => ?_⟩
      · have := (hg.resolve_left (not_lt.2 haddr)).resolve_left hpage
        omega
      · have hb' := hadv.addr_eq
        unfold Gentle
        rw [hadv.nblocks hlt.le]
        omega

theorem run_good (n : Nat) :
    run e (List.replicate (n + 1) .done) b = match (xtintr (xtstart e b)).1 with
      | none => ([event e b], true)
      | some b' => (event e b :: (run e (List.replicate n .done) b').1,
          (run e (List.replicate n .done) b').2) := rfl

/-- A request with no errors moves its blocks once and in order, within the pages of the memory;
no transfer exceeds the limit of the drive unless the end of the page is too far. -/
theorem run_moves (h : Ready b) (hmax : Whole (e.xd b).maxfer) (n : Nat)
    (hn : nblocks b.wcount ≤ n) :
    ∃ evs, run e (List.replicate n .done) b = (evs, true) ∧
      evs.flatMap Event.moves = wanted e b (nblocks b.wcount) ∧
      ∀ ev ∈ evs, (Fits e → ¬ev.t.Crosses) ∧ (Gentle e b → ev.t.len ≤ (e.xd b).maxfer) := by
  induction n generalizing b with
  | zero => exact absurd (nblocks_pos h.neg) (by omega)
  | succ n ih =>
    obtain ⟨m, hm, hlimit, hgentle⟩ := one_moved h hmax
    have hfirst : Gentle e b → (event e b).t.len ≤ (e.xd b).maxfer := fun hg => by
      rw [hm.len]
      exact hlimit hg
    rw [run_good]
    by_cases hlast : m = nblocks b.wcount
    · rw [hm.last hlast]
      refine ⟨_, rfl, ?_, fun ev hev => ?_⟩
      · rw [List.flatMap_singleton, hm.moves, hlast]
      · rw [List.mem_singleton.1 hev]
        exact ⟨hm.page, hfirst⟩
    · have hlt : m < nblocks b.wcount := lt_of_le_of_ne hm.le hlast
      obtain ⟨b', hb', hadv⟩ := hm.next hlt
      have hxd : e.xd b' = e.xd b := by
        unfold Env.xd Buf.drive
        rw [hadv.minor]
      have hleft := hadv.nblocks hm.le
      obtain ⟨evs, hrun, hmoves, hevs⟩ :=
        ih (hadv.ready h hm.pos hlt) (by rw [hxd]; exact hmax) (by have := hm.pos; omega)
      rw [hb']
      dsimp only
      rw [hrun]
      refine ⟨_, rfl, ?_, fun ev hev => ?_⟩
      · rw [List.flatMap_cons, hm.moves, hmoves, hleft, ← hadv.wanted, Nat.add_sub_cancel' hm.le]
      · rcases List.mem_cons.1 hev with rfl | hev
        · exact ⟨hm.page, hfirst⟩
        · refine ⟨(hevs ev hev).1, fun hg => ?_⟩
          rw [← hxd]
          exact (hevs ev hev).2 (hgentle b' hadv hlt)

/-! ## Chunks -/

/-- The transfers of a request are as they should be. -/
structure Chunked (e : Env) (b : Buf) (evs : List Event) : Prop where
  moves : evs.flatMap Event.moves = wanted e b (nblocks b.wcount)
  page : ∀ ev ∈ evs, ¬ev.t.Crosses
  len : ∀ ev ∈ evs, ev.t.len ≤ (e.xd b).maxfer

/-- The request is finished without errors, and its transfers are as they should be. -/
def RunsChunked (e : Env) (b : Buf) : Prop :=
  ∃ n evs, run e (List.replicate n .done) b = (evs, true) ∧ Chunked e b evs

theorem event_mem {n : Nat} {evs : List Event}
    (h : run e (List.replicate n .done) b = (evs, true)) : event e b ∈ evs := by
  cases n with
  | zero => cases h
  | succ n =>
    rw [run_good] at h
    split at h
    · rw [← (Prod.mk.inj h).1]
      exact List.mem_singleton.2 rfl
    · rw [← (Prod.mk.inj h).1]
      exact List.mem_cons_self

/-- The byte count of no block, or of more than 127, is 0: the DMA controller moves 64 KiB. -/
theorem zero_count (hphys : b.phys = true) (haddr : b.addr ≤ 0xFE00)
    (hw : rounded b.wcount = 0) :
    xtstart e b = ⟨b, 0, transfer e b (b.xmem, b.addr) 0, none⟩ := by
  have hchunk : chunk (e.xd b).maxfer b = (b, 0, 0) := by
    unfold chunk
    dsimp only
    rw [hw, if_neg (by omega)]
  rw [xtstart_direct hphys haddr hchunk]

/-- A raw request is moved by the right transfers exactly when it is not empty and either begins
with the block that straddles the end of a page, or has 127 blocks at most and, if it reaches the
end of the page, what is left of the page is within the limit of the drive. -/
theorem chunked_iff (hphys : b.phys = true) (haddr : b.addr < 65536) (hw : b.wcount ≤ 0)
    (hmin : -32768 ≤ b.wcount) (hmax : Whole (e.xd b).maxfer) (hfits : Fits e) :
    RunsChunked e b ↔ b.wcount < 0 ∧ (0xFE00 < b.addr ∨ -32512 ≤ b.wcount ∧
      (b.addr + 512 * nblocks b.wcount < 65536 ∨
        (65536 - b.addr) / 512 * 512 ≤ (e.xd b).maxfer)) := by
  constructor
  · rintro ⟨n, evs, hrun, hevs⟩
    have hmem := event_mem hrun
    obtain ⟨k, hk, hkpos, hklt⟩ := hmax
    -- a count of 0 is a transfer of 64 KiB
    have hzero : b.addr ≤ 0xFE00 → rounded b.wcount ≠ 0 := by
      intro hlow hcount
      have hlen := hevs.len _ hmem
      have h64 : (event e b).t.len = 65536 := by
        unfold event
        rw [zero_count hphys hlow hcount]
        rfl
      omega
    have hneg : b.wcount < 0 := by
      by_contra hge
      have hw0 : b.wcount = 0 := by omega
      by_cases hlow : b.addr ≤ 0xFE00
      · exact hzero hlow (by rw [hw0]; rfl)
      · have hblock : (event e b).moves ≠ [] := by
          have hevent : (event e b).t = transfer e b (kernelDma e.ds e.bounce) 512 := by
            unfold event xtstart
            rw [if_pos hphys, if_pos (by omega)]
          have hone : (event e b).t.blocks = 1 := by
            rw [hevent]
            rfl
          unfold Event.moves
          rw [hone]
          simp
        have hnone := hevs.moves
        rw [hw0, show wanted e b (nblocks 0) = [] from rfl, List.flatMap_eq_nil_iff] at hnone
        exact hblock (hnone _ hmem)
    refine ⟨hneg, ?_⟩
    by_cases hlow : 0xFE00 < b.addr
    · exact Or.inl hlow
    · rw [not_lt] at hlow
      have hbig : -32512 ≤ b.wcount := by
        by_contra hlt
        exact hzero hlow (rounded_big (by omega) hmin)
      refine Or.inr ⟨hbig, ?_⟩
      by_contra hcond
      push Not at hcond
      have hready : Ready b := ⟨hphys, haddr, hneg, hmin, Or.inr hbig⟩
      have hlen := hevs.len _ hmem
      rw [(boundary_moved hready hlow hcond.1).len] at hlen
      omega
  · rintro ⟨hneg, hcond⟩
    have hready : Ready b := ⟨hphys, haddr, hneg, hmin, hcond.imp_right And.left⟩
    have hgentle : Gentle e b := hcond.imp_right And.right
    obtain ⟨evs, hrun, hmoves, hevs⟩ := run_moves hready hmax _ (le_refl _)
    exact ⟨_, evs, hrun, hmoves, fun ev hev => (hevs ev hev).1 hfits,
      fun ev hev => (hevs ev hev).2 hgentle⟩

/-- The first drive with its tables as they are compiled in, and a bounce buffer at the start of
the kernel's data. -/
def drive0 : Env where
  sizes := fun _ unit =>
    if unit = 0 then ⟨3739, 1⟩ else if unit = 1 then ⟨340, 3740⟩ else if unit = 2 then ⟨16660, 4080⟩
    else if unit = 7 then ⟨65535, 0⟩ else ⟨0, 0⟩
  parm := fun _ => ⟨17, 4, 5, 512 * 32⟩
  ndrv := 2
  ds := 0x1000
  bounce := 0

/-- A raw read of the first partition. -/
def rawRead (addr : Nat) (wcount : Int) (blkno : Nat) : Buf where
  minor := 0
  read := true
  phys := true
  addr
  xmem := 2
  wcount
  blkno

theorem chunked_iff_drive0 : (Whole (drive0.xd (rawRead 0xFF00 (-1024) 8)).maxfer ∧ Fits drive0) ∧
    (RunsChunked drive0 (rawRead 0xFF00 (-1024) 8) ↔ (-1024 : Int) < 0 ∧ (0xFE00 < 0xFF00 ∨
      (-32512 : Int) ≤ -1024 ∧ (0xFF00 + 512 * nblocks (-1024) < 65536 ∨
        (65536 - 0xFF00) / 512 * 512 ≤ 512 * 32))) := by
  have hmax : Whole (drive0.xd (rawRead 0xFF00 (-1024) 8)).maxfer :=
    ⟨32, rfl, by decide, by decide⟩
  have hfits : Fits drive0 := by
    unfold Fits
    decide
  exact ⟨⟨hmax, hfits⟩, chunked_iff rfl (by decide) (by decide) (by decide) hmax hfits⟩

/-- A raw read of 124 blocks from 0x1000 in a page: the first transfer has 60 KiB. -/
theorem chunked_long : (event drive0 (rawRead 0x1000 (-31744) 8)).t.len = 61440 ∧
    (drive0.xd (rawRead 0x1000 (-31744) 8)).maxfer = 16384 ∧
    ¬RunsChunked drive0 (rawRead 0x1000 (-31744) 8) := by
  have hlen : (event drive0 (rawRead 0x1000 (-31744) 8)).t.len = 61440 := by decide
  refine ⟨hlen, rfl, ?_⟩
  rintro ⟨n, evs, hrun, hevs⟩
  have hle := hevs.len _ (event_mem hrun)
  rw [hlen] at hle
  exact absurd hle (by decide)

/-! ## Partitions -/

/-- Every transfer of the request, however the transfers end, is within its partition. -/
def Isolated (e : Env) (b : Buf) : Prop :=
  ∀ outs, ∀ ev ∈ (run e outs b).1, ∀ i < ev.t.blocks,
    (e.part b).oblock ≤ ev.t.block + i ∧ ev.t.block + i < (e.part b).oblock + (e.part b).nblock

/-- The blocks that are moved: a request that is not raw moves one. -/
def moved (b : Buf) : Nat := if b.phys then nblocks b.wcount else 1

theorem start_block (b : Buf) : (xtstart e b).t.block = diskBlock e b 0 := by
  unfold xtstart diskBlock
  split
  · split
    · rfl
    · rfl
  · rfl

theorem Moved.blocks {m : Nat} (h : Moved e b m) : (xtstart e b).t.blocks = m := by
  have hlen := congrArg List.length h.moves
  unfold Event.moves wanted at hlen
  rw [List.length_map, List.length_map, List.length_range, List.length_range] at hlen
  exact hlen

/-- One transfer, and nothing after it. -/
theorem run_single {s : Started} (hs : xtstart e b = s) (hcntrl : s.cntrl = 0) (outs : List Outcome) :
    ∀ ev ∈ (run e outs b).1, ev.t = s.t := by
  cases outs with
  | nil => exact fun ev hev => absurd hev List.not_mem_nil
  | cons o outs =>
    intro ev hev
    unfold run at hev
    have hintr : xtintr s = (none, none) := by
      unfold xtintr
      rw [if_neg (by rw [hcntrl]; decide)]
    rw [hs] at hev
    dsimp only at hev
    rw [hintr] at hev
    split at hev
    · rw [List.mem_singleton.1 hev]
    · rw [List.mem_singleton.1 hev]

/-- Each transfer of a request moves some of its blocks. -/
theorem run_blocks (h : Ready b) (hmax : Whole (e.xd b).maxfer) (outs : List Outcome) :
    ∀ ev ∈ (run e outs b).1, ∃ j, ev.t.block = diskBlock e b j ∧
      j + ev.t.blocks ≤ nblocks b.wcount := by
  induction outs generalizing b with
  | nil => exact fun ev hev => absurd hev List.not_mem_nil
  | cons o outs ih =>
    obtain ⟨m, hm, -, -⟩ := one_moved h hmax
    have hfirst : ∃ j, (xtstart e b).t.block = diskBlock e b j ∧
        j + (xtstart e b).t.blocks ≤ nblocks b.wcount := by
      refine ⟨0, start_block b, ?_⟩
      rw [hm.blocks, Nat.zero_add]
      exact hm.le
    intro ev hev
    unfold run at hev
    dsimp only at hev
    split at hev
    · by_cases hlast : m = nblocks b.wcount
      · rw [hm.last hlast] at hev
        rw [List.mem_singleton.1 hev]
        exact hfirst
      · have hlt : m < nblocks b.wcount := lt_of_le_of_ne hm.le hlast
        obtain ⟨b', hb', hadv⟩ := hm.next hlt
        have hxd : e.xd b' = e.xd b := by
          unfold Env.xd Buf.drive
          rw [hadv.minor]
        rw [hb'] at hev
        rcases List.mem_cons.1 hev with rfl | hev
        · exact hfirst
        · obtain ⟨j, hj, hle⟩ := ih (hadv.ready h hm.pos hlt) (by rw [hxd]; exact hmax) ev hev
          have hleft := hadv.nblocks hm.le
          refine ⟨m + j, hj.trans ?_, by omega⟩
          have hpart : e.part b' = e.part b := by
            unfold Env.part Buf.drive Buf.unit
            rw [hadv.minor]
          unfold diskBlock
          rw [hpart, hadv.blkno]
          omega
    · rw [List.mem_singleton.1 hev]
      exact hfirst

/-- A command for 0 blocks. -/
theorem long_blocks (dma : Nat × Nat) : (transfer e b dma 0).blocks = 128 := by
  have hbcnt : (transfer e b dma 0).bcnt = 0 := rfl
  have hlen : (transfer e b dma 0).len = 65536 := rfl
  unfold Transfer.blocks
  rw [hbcnt, hlen, if_pos rfl]

/-- The request, raw or not, long or not: its transfers are among the blocks that it moves. -/
theorem blocks_within (haddr : b.addr < 65536) (hw : b.wcount < 0) (hmin : -32768 ≤ b.wcount)
    (hmax : Whole (e.xd b).maxfer) (outs : List Outcome) :
    ∀ ev ∈ (run e outs b).1, ∃ j, ev.t.block = diskBlock e b j ∧ j + ev.t.blocks ≤ moved b := by
  cases hphys : b.phys with
  | false =>
    have hstart : xtstart e b = ⟨b, 0, transfer e b (kernelDma e.ds b.addr) 512, none⟩ := by
      unfold xtstart
      rw [if_neg (by rw [hphys]; decide)]
    intro ev hev
    have ht := run_single hstart rfl outs ev hev
    have hone : moved b = 1 := if_neg (by rw [hphys]; decide)
    refine ⟨0, ?_, ?_⟩
    · rw [ht, ← hstart]
      exact start_block b
    · rw [ht, hone]
      rfl
  | true =>
    have hraw : moved b = nblocks b.wcount := if_pos hphys
    rw [hraw]
    by_cases hready : 0xFE00 < b.addr ∨ -32512 ≤ b.wcount
    · exact run_blocks ⟨hphys, haddr, hw, hmin, hready⟩ hmax outs
    · push Not at hready
      have hstart := zero_count (e := e) hphys hready.1 (rounded_big hready.2 hmin)
      intro ev hev
      have ht := run_single hstart rfl outs ev hev
      have hlong : nblocks b.wcount = 128 := by
        unfold nblocks
        omega
      refine ⟨0, ?_, ?_⟩
      · rw [ht, ← hstart]
        exact start_block b
      · rw [ht, hlong, long_blocks]

/-- The request with no errors moves all of them. -/
theorem blocks_all (haddr : b.addr < 65536) (hw : b.wcount < 0) (hmin : -32768 ≤ b.wcount)
    (hmax : Whole (e.xd b).maxfer) {j : Nat} (hj : j < moved b) :
    ∃ outs, ∃ ev ∈ (run e outs b).1, ∃ i < ev.t.blocks,
      (ev.t.block + i) % 65536 = diskBlock e b j := by
  have hsingle : ∀ s : Started, xtstart e b = s → j < s.t.blocks →
      ∃ outs, ∃ ev ∈ (run e outs b).1, ∃ i < ev.t.blocks,
        (ev.t.block + i) % 65536 = diskBlock e b j := by
    intro s hs hlt
    refine ⟨[.timeout], ⟨s.t, s.copied⟩, ?_, j, hlt, ?_⟩
    · rw [← hs]
      exact List.mem_singleton.2 rfl
    · have hblock := start_block (e := e) b
      rw [hs] at hblock
      dsimp only
      rw [hblock]
      unfold diskBlock
      omega
  cases hphys : b.phys with
  | false =>
    have hstart : xtstart e b = ⟨b, 0, transfer e b (kernelDma e.ds b.addr) 512, none⟩ := by
      unfold xtstart
      rw [if_neg (by rw [hphys]; decide)]
    have hone : moved b = 1 := if_neg (by rw [hphys]; decide)
    rw [hone] at hj
    exact hsingle _ hstart hj
  | true =>
    have hraw : moved b = nblocks b.wcount := if_pos hphys
    rw [hraw] at hj
    by_cases hready : 0xFE00 < b.addr ∨ -32512 ≤ b.wcount
    · obtain ⟨evs, hrun, hmoves, -⟩ :=
        run_moves ⟨hphys, haddr, hw, hmin, hready⟩ hmax _ (le_refl _)
      have hmem : (userMem b j, diskBlock e b j) ∈ evs.flatMap Event.moves := by
        rw [hmoves]
        exact List.mem_map_of_mem (List.mem_range.2 hj)
      obtain ⟨ev, hev, hin⟩ := List.mem_flatMap.1 hmem
      obtain ⟨i, hi, heq⟩ := List.mem_map.1 hin
      refine ⟨List.replicate (nblocks b.wcount) .done, ev, ?_, i, List.mem_range.1 hi,
        (Prod.mk.inj heq).2⟩
      rw [hrun]
      exact hev
    · push Not at hready
      have hstart := zero_count (e := e) hphys hready.1 (rounded_big hready.2 hmin)
      refine hsingle _ hstart (lt_of_lt_of_le hj ?_)
      rw [long_blocks]
      unfold nblocks
      omega

/-- The range check without its overflows. -/
theorem inRange_exact (hpass : InRange e b) (hw : b.wcount < 0) (hmin : -32512 ≤ b.wcount)
    (hsum : b.blkno + nblocks b.wcount < 65536) : b.blkno + nblocks b.wcount ≤ (e.part b).nblock := by
  unfold InRange at hpass
  push Not at hpass
  have hlast := hpass.2.2
  have heq : lastBlock b = b.blkno + nblocks b.wcount := by
    have hcount : (255 - b.wcount + 32768) % 65536 - 32768 = -b.wcount + 255 := by
      clear hsum hpass hlast
      omega
    obtain ⟨n, hn⟩ := Int.eq_ofNat_of_zero_le
      (Int.ediv_nonneg (show 0 ≤ -b.wcount + 255 by omega) (show (0 : Int) ≤ 256 by decide))
    unfold lastBlock i16
    unfold nblocks at hsum ⊢
    rw [hcount]
    rw [hn, Int.toNat_natCast] at hsum ⊢
    clear * - hsum
    omega
  rwa [heq] at hlast

/-- A request that passes the range check stays in its partition exactly when neither the block
count nor the sum of the check overflows, or the request would pass an exact check. -/
theorem isolation_iff (hpass : InRange e b) (haddr : b.addr < 65536) (hblkno : b.blkno < 65536)
    (hw : b.wcount < 0) (hmin : -32768 ≤ b.wcount) (hmax : Whole (e.xd b).maxfer)
    (hnblock : (e.part b).nblock < 65536)
    (htable : (e.part b).oblock + (e.part b).nblock ≤ 65536) :
    Isolated e b ↔ (-32512 ≤ b.wcount ∧ b.blkno + nblocks b.wcount < 65536) ∨
      b.blkno + moved b ≤ (e.part b).nblock := by
  have hmoved : moved b ≤ nblocks b.wcount := by
    unfold moved
    split
    · exact le_refl _
    · exact nblocks_pos hw
  constructor
  · intro hall
    by_contra hcond
    push Not at hcond
    have hpos : 0 < moved b := by
      unfold moved
      split
      · exact nblocks_pos hw
      · exact one_pos
    have hj : (e.part b).nblock - b.blkno < moved b := by omega
    obtain ⟨outs, ev, hev, i, hi, heq⟩ := blocks_all haddr hw hmin hmax hj
    have hin := hall outs ev hev i hi
    unfold diskBlock at heq
    omega
  · intro hcond outs ev hev i hi
    have hle : b.blkno + moved b ≤ (e.part b).nblock := by
      rcases hcond with ⟨hshort, hsum⟩ | hle
      · exact le_trans (by omega) (inRange_exact hpass hw hshort hsum)
      · exact hle
    obtain ⟨j, hj, hjle⟩ := blocks_within haddr hw hmin hmax outs ev hev
    rw [hj]
    unfold diskBlock
    omega

theorem isolation_iff_drive0 : InRange drive0 (rawRead 0xFF00 (-1024) 8) ∧
    (Isolated drive0 (rawRead 0xFF00 (-1024) 8) ↔
      ((-32512 : Int) ≤ -1024 ∧ 8 + nblocks (-1024) < 65536) ∨
        8 + moved (rawRead 0xFF00 (-1024) 8) ≤ 3739) := by
  have hpass : InRange drive0 (rawRead 0xFF00 (-1024) 8) := by
    unfold InRange
    decide
  exact ⟨hpass, isolation_iff hpass (by decide) (by decide) (by decide) (by decide)
    ⟨32, rfl, by decide, by decide⟩ (by decide) (by decide)⟩

/-- Block 65535 of the first partition passes, and is block 0 of the disk. -/
theorem isolation_wrap : InRange drive0 (rawRead 0 (-256) 65535) ∧
    (run drive0 [.done] (rawRead 0 (-256) 65535)).1.map (fun ev => (ev.t.block, ev.t.blocks)) =
      [(0, 1)] ∧ ¬Isolated drive0 (rawRead 0 (-256) 65535) := by
  have hpass : InRange drive0 (rawRead 0 (-256) 65535) := by
    unfold InRange
    decide
  refine ⟨hpass, by decide, fun hall => ?_⟩
  have hmem : event drive0 (rawRead 0 (-256) 65535) ∈
      (run drive0 [.done] (rawRead 0 (-256) 65535)).1 := List.mem_singleton.2 rfl
  have hin := hall [.done] _ hmem 0 (by decide)
  exact absurd hin.1 (by decide)

end Venix.Xt
