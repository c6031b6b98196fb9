/-
  The buffer cache over whole runs.

  Proved: from `binit` on, whatever the processes and the devices do and in whatever order, every
  step keeps the invariant and no walk along a list is lost; `bread` and `breada` return the
  buffer of the block with the data of the last completed write, the delayed ones among them.
-/
import Venix.Bio.Ops
import Venix.Lib.Run

set_option linter.unusedSectionVars false

namespace Venix.Bio

open Venix.Lib

variable {B T Dev P D : Type} [DecidableEq B] [DecidableEq T] [DecidableEq Dev] [DecidableEq P]
  {sw : Bdevsw T Dev} {s s' : Cache B T Dev P D} {b : B} {p : P}

/-! ## What a process goes on to -/

theorem waitsFor_iff_of_eq {pc pc' : Pc B Dev} (h : pc'.waits = pc.waits) (b : B) :
    WaitsFor pc' b ↔ WaitsFor pc b := by
  unfold WaitsFor
  rw [h]

theorem not_waitsFor {pc : Pc B Dev} (h : pc.waits = none) (b : B) : ¬WaitsFor pc b := by
  rintro ⟨a, ha⟩
  rw [h] at ha
  cases ha

/-- A process that goes on waiting for the same. -/
theorem Inv.setPc_waits (h : Inv sw s) {pc : Pc B Dev} (hw : pc.waits = (s.pc p).waits) :
    Inv sw (s.setPc p pc) := by
  refine h.setPc p pc (fun b a ha => ?_) fun b ho hp => ?_
  · unfold Cache.setPc at ha
    dsimp only at ha
    rw [Function.update_self, hw] at ha
    exact h.pcs p b a ha
  · exact (waitsFor_iff_of_eq hw b).mpr ((h.bufs b).waited p ho hp)

/-- A process that waited for nothing in flight, and waits for nothing now. -/
theorem Inv.setPc_none (h : Inv sw s) {pc : Pc B Dev} (hw : pc.waits = none)
    (hno : ∀ b, WaitsFor (s.pc p) b → s.pending b = false) : Inv sw (s.setPc p pc) := by
  refine h.setPc p pc (fun b a ha => ?_) fun b ho hp => ?_
  · unfold Cache.setPc at ha
    dsimp only at ha
    rw [Function.update_self, hw] at ha
    cases ha
  · have := hno b ((h.bufs b).waited p ho hp)
    rw [hp] at this
    cases this

/-- The result of a call is the buffer of the block, in the hands of the caller; from `bread` and
`breada` it has the data of the last write. -/
structure RetOk (s : Cache B T Dev P D) (r : Cache.Ret B Dev P) : Prop where
  owner : s.owner r.b = some r.p
  busy : (s.flags r.b).busy = true
  dev : s.dev r.b = some r.dev
  blkno : s.blkno r.b = r.blkno
  data : r.read = true → s.data r.b = s.last r.dev r.blkno

/-- A step that goes well. -/
def Good (sw : Bdevsw T Dev) (o : Cache.Outcome B T Dev P D) : Prop :=
  match o with
  | .error e => e = .disabled
  | .ok (s, r) => Inv sw s ∧ ∀ ret, r = some ret → RetOk s ret

theorem good_of_inv (h : Inv sw s) : Good sw (.ok (s, none)) :=
  ⟨h, by simp⟩

/-! ## `getblk` -/

variable [Fintype B]

/-- What a turn of `getblk` comes to. -/
def TurnOk (sw : Bdevsw T Dev) (s : Cache B T Dev P D) (p : P) (dev : Dev) (blkno : Nat) :
    Cache.Turn B T Dev P D → Prop
  | .lost => False
  | .again s' => Inv sw s'
  | .got s' b => Inv sw s' ∧ s'.pc = s.pc ∧ Held s' p b ∧ s'.dev b = some dev ∧ s'.blkno b = blkno

theorem notavail_held (h : Inv sw s) (p : P) (hb : (s.flags b).busy = false) :
    Held (s.notavail p b) p b :=
  (notavail_inv h p hb).held (Function.update_self _ _ _) ((h.idle hb).2.2.2 p)

theorem getblkTurn_ok (h : Inv sw s) (p : P) (dev : Dev) (blkno : Nat) (drv : Driver B T) :
    TurnOk sw s p dev blkno (s.getblkTurn sw p dev blkno drv) := by
  obtain ⟨r, hr, hfound⟩ := find_spec h.device dev blkno
  unfold Cache.getblkTurn
  rw [hr]
  cases r with
  | some b =>
    dsimp only at hfound ⊢
    split
    · exact (h.marks b true _).asleep _ _
    · rename_i hb
      rw [Bool.not_eq_true] at hb
      exact ⟨notavail_inv h p hb, rfl, notavail_held h p hb, hfound.2, hfound.1⟩
  | none =>
    dsimp only at hfound ⊢
    rcases h.free.first with hempty | ⟨b, hb, hbusy⟩
    · rw [hempty]
      exact h.asleep _ _
    · rw [hb]
      have hinv := notavail_inv h p hbusy
      have hheld := notavail_held h p hbusy
      dsimp only
      split
      · have := bawrite_inv hinv hheld ((s.notavail p b).data b) drv
        rw [setData_self] at this
        exact this
      · rename_i hdelwri
        rw [Bool.not_eq_true] at hdelwri
        have hre := reassign_inv hinv hheld hdelwri dev blkno hfound
        refine ⟨hre, rfl, ?_, Function.update_self _ _ _, Function.update_self _ _ _⟩
        exact hre.held hheld.owner (hheld.alone p)

/-! ## The processes -/

/-- What `p` waits for in `breada` once it has its first buffer. -/
def firstOf (dev : Dev) (blkno : Nat) (bp : Option B) : Option (B × Option (Dev × Nat)) :=
  bp.map fun b => (b, some (dev, blkno))

theorem breadaEnd_inv {bp : Option B} (dev : Dev) (blkno : Nat)
    (h : ∀ pc : Pc B Dev, pc.waits = firstOf dev blkno bp → Inv sw (s.setPc p pc)) :
    Inv sw (s.breadaEnd p dev blkno bp) := by
  cases bp with
  | none => exact h (.getblk dev blkno .bread) rfl
  | some b => exact h (.iowait b (.bread dev blkno)) rfl

theorem breadaAhead_good {bp : Option B} (dev : Dev) (blkno rablkno : Nat)
    (h : ∀ pc : Pc B Dev, pc.waits = firstOf dev blkno bp → Inv sw (s.setPc p pc)) :
    Good sw (s.breadaAhead sw p dev blkno rablkno bp) := by
  have hend := breadaEnd_inv dev blkno h
  have hdev : DevOk sw s.forw s.back s.dev := by
    cases bp with
    | none => exact (h (.getblk dev blkno .bread) rfl).device
    | some b => exact (h (.iowait b (.bread dev blkno)) rfl).device
  obtain ⟨r, hr, -⟩ := find_spec hdev dev rablkno
  unfold Cache.breadaAhead
  split
  · exact good_of_inv hend
  · rw [hr]
    cases r with
    | some b => exact good_of_inv hend
    | none =>
      refine good_of_inv (h _ ?_)
      cases bp <;> rfl

/-- Where `getblk` returns a buffer that the caller of `bread` may have at once. -/
theorem ret_ok {dev : Dev} {blkno : Nat} {pc : Pc B Dev} {read : Bool} (h : Inv sw s)
    (hown : s.owner b = some p) (hdev : s.dev b = some dev) (hblkno : s.blkno b = blkno)
    (hdone : read = true → (s.flags b).done = true) :
    RetOk (s.setPc p pc) ⟨p, dev, blkno, b, read⟩ := by
  have hok := h.bufs b
  refine ⟨hown, hok.owned (by rw [hown]; simp), hdev, hblkno, fun hr => ?_⟩
  subst hblkno
  exact hok.fresh (hdone hr) dev hdev

theorem gotBlk_good {dev : Dev} {blkno : Nat} {k : Cont B} (h : Inv sw s)
    (hpc : s.pc p = .getblk dev blkno k) (hheld : Held s p b) (hdev : s.dev b = some dev)
    (hblkno : s.blkno b = blkno) (drv : Driver B T) :
    Good sw (s.gotBlk sw p dev blkno b drv k) := by
  have hno : (s.pc p).waits = none → ∀ b', ¬WaitsFor (s.pc p) b' := fun hw b' => not_waitsFor hw b'
  have hidle : (s.pc p).waits = none → Inv sw (s.setPc p .idle) := fun hw =>
    h.setPc_none rfl fun b' hb' => absurd hb' (hno hw b')
  cases k with
  | ret =>
    have hw : (s.pc p).waits = none := by
      rw [hpc]
      rfl
    refine ⟨hidle hw, fun ret hret => ?_⟩
    cases hret
    exact ret_ok h hheld.owner hdev hblkno (by simp)
  | bread =>
    have hw : (s.pc p).waits = none := by
      rw [hpc]
      rfl
    unfold Cache.gotBlk
    dsimp only
    split
    · rename_i hdone
      refine ⟨hidle hw, fun ret hret => ?_⟩
      cases hret
      exact ret_ok h hheld.owner hdev hblkno fun _ => hdone
    · rename_i hdone
      rw [Bool.not_eq_true] at hdone
      exact good_of_inv (startRead_inv h hheld hdone _ drv (hno hw) rfl hdev hblkno)
  | breada rablkno =>
    have hw : (s.pc p).waits = none := by
      rw [hpc]
      rfl
    unfold Cache.gotBlk
    dsimp only
    refine breadaAhead_good dev blkno rablkno fun pc hpc' => ?_
    split
    · rename_i hdone
      refine h.setPc p pc (fun b' a ha => ?_) fun b' ho hp => ?_
      · unfold Cache.setPc at ha
        dsimp only at ha
        rw [Function.update_self, hpc'] at ha
        cases ha
        refine ⟨hheld.owner, Or.inr hdone, fun dev' blkno' heq => ?_⟩
        cases heq
        exact ⟨hdev, hblkno⟩
      · exact absurd ((h.bufs b').waited p ho hp) (hno hw b')
    · rename_i hdone
      rw [Bool.not_eq_true] at hdone
      exact startRead_inv h hheld hdone pc drv (hno hw) hpc' hdev hblkno
  | readAhead bp blkno₁ =>
    have hw : (s.pc p).waits = firstOf dev blkno₁ bp := by
      rw [hpc]
      cases bp <;> rfl
    unfold Cache.gotBlk
    dsimp only
    refine good_of_inv (breadaEnd_inv dev blkno₁ fun pc hpc' => ?_)
    have hinv : Inv sw (s.setPc p pc) := h.setPc_waits (hpc'.trans hw.symm)
    have hheld' : Held (s.setPc p pc) p b := by
      refine hinv.held hheld.owner ?_
      unfold Cache.setPc
      dsimp only
      rw [Function.update_self, waitsFor_iff_of_eq (hpc'.trans hw.symm)]
      exact hheld.alone p
    split
    · rw [← brelse_setPc]
      exact brelse_inv hinv hheld'
    · rename_i hdone
      rw [Bool.not_eq_true] at hdone
      have := startReadAsync_inv hinv hheld' hdone drv
      unfold Cache.startReadAsync at this ⊢
      rw [← strategy_setPc]
      exact this

theorem run_good (h : Inv sw s) (p : P) (drv : Driver B T) : Good sw (s.run sw p drv) := by
  unfold Cache.run
  cases hpc : s.pc p with
  | idle => rfl
  | getblk dev blkno k =>
    have hturn := getblkTurn_ok h p dev blkno drv
    dsimp only
    cases ht : s.getblkTurn sw p dev blkno drv with
    | lost =>
      rw [ht] at hturn
      exact hturn.elim
    | again s' =>
      rw [ht] at hturn
      exact good_of_inv hturn
    | got s' b =>
      rw [ht] at hturn
      obtain ⟨hinv, hpc', hheld, hdev, hblkno⟩ := hturn
      refine gotBlk_good hinv ?_ hheld hdev hblkno drv
      rw [hpc', hpc]
  | iowait b k =>
    dsimp only
    split
    · rename_i hdone
      have hpend : s.pending b = false := by
        by_contra hp
        have := ((h.bufs b).pend (by simpa using hp)).2.1
        rw [hdone] at this
        cases this
      have hidle : Inv sw (s.setPc p .idle) := by
        refine h.setPc_none rfl fun b' hb' => ?_
        obtain ⟨a, ha⟩ := hb'
        rw [hpc] at ha
        cases k <;> cases ha <;> exact hpend
      cases k with
      | bread dev blkno =>
        obtain ⟨hown, -, hblk⟩ := h.pcs p b (some (dev, blkno)) (by rw [hpc]; rfl)
        obtain ⟨hdev, hblkno⟩ := hblk dev blkno rfl
        refine ⟨hidle, fun ret hret => ?_⟩
        cases hret
        exact ret_ok h hown hdev hblkno fun _ => hdone
      | bwrite =>
        obtain ⟨hown, -, -⟩ := h.pcs p b none (by rw [hpc]; rfl)
        refine good_of_inv ?_
        rw [← brelse_setPc]
        refine brelse_inv hidle (hidle.held (p := p) hown ?_)
        unfold Cache.setPc
        dsimp only
        rw [Function.update_self]
        exact not_waitsFor rfl b
    · exact good_of_inv (h.asleep _ _)
  | bflush dev =>
    obtain ⟨r, hr, hfound⟩ := searchDelwri_spec dev h.free
    dsimp only
    rw [hr]
    cases r with
    | none =>
      refine good_of_inv (h.setPc_none rfl fun b' hb' => absurd hb' (not_waitsFor ?_ b'))
      rw [hpc]
      rfl
    | some b =>
      have hbusy := (hfound b rfl).1
      have hinv := bawrite_inv (notavail_inv h p hbusy) (notavail_held h p hbusy)
        ((s.notavail p b).data b) drv
      rw [setData_self] at hinv
      exact good_of_inv hinv

theorem of_isIdle (h : s.isIdle p = true) : s.pc p = .idle := by
  unfold Cache.isIdle at h
  split at h
  · assumption
  · cases h

theorem of_holds (hs : s.holds p b = true) : s.pc p = .idle ∧ s.owner b = some p := by
  unfold Cache.holds at hs
  split at hs
  · exact ⟨by assumption, by simpa using hs⟩
  · cases hs

/-- Every step that can be made keeps the invariant, and what it returns is right. -/
theorem step_good (h : Inv sw s) (a : Cache.Act B T Dev P D) : Good sw (s.step sw a) := by
  have hidle : ∀ {p : P}, s.pc p = .idle → ∀ b, ¬WaitsFor (s.pc p) b := by
    intro p hp b
    rw [hp]
    exact not_waitsFor rfl b
  have hcall : ∀ {p : P} (pc : Pc B Dev), s.isIdle p = true → pc.waits = none →
      Inv sw (s.setPc p pc) := fun pc hp hw =>
    h.setPc_none hw fun b hb => absurd hb (hidle (of_isIdle hp) b)
  have hheld : ∀ {p : P} {b : B}, s.holds p b = true → Held s p b := fun hp =>
    h.held (of_holds hp).2 (hidle (of_holds hp).1 _)
  cases a with
  | getblk p dev blkno =>
    unfold Cache.step
    dsimp only
    split
    · exact good_of_inv (hcall _ (by assumption) rfl)
    · rfl
  | bread p dev blkno =>
    unfold Cache.step
    dsimp only
    split
    · exact good_of_inv (hcall _ (by assumption) rfl)
    · rfl
  | breada p dev blkno rablkno =>
    unfold Cache.step
    dsimp only
    split
    · rename_i hp
      obtain ⟨r, hr, -⟩ := find_spec h.device dev blkno
      rw [hr]
      cases r with
      | none => exact good_of_inv (hcall _ hp rfl)
      | some b => exact breadaAhead_good dev blkno rablkno fun pc hpc => hcall pc hp hpc
    · rfl
  | bwrite p b d drv =>
    unfold Cache.step
    dsimp only
    split
    · rename_i hp
      refine good_of_inv ?_
      unfold Cache.bwrite
      rw [if_neg]
      · exact startWrite_inv h (hheld hp) d drv (hidle (of_holds hp).1)
      · have := (hheld hp).async
        simpa [Cache.setData] using this
    · rfl
  | bdwrite p b d drv =>
    unfold Cache.step
    dsimp only
    split
    · exact good_of_inv (bdwrite_inv h (hheld (by assumption)) d drv)
    · rfl
  | bawrite p b d drv =>
    unfold Cache.step
    dsimp only
    split
    · exact good_of_inv (bawrite_inv h (hheld (by assumption)) d drv)
    · rfl
  | brelse p b =>
    unfold Cache.step
    dsimp only
    split
    · exact good_of_inv (brelse_inv h (hheld (by assumption)))
    · rfl
  | bflush p dev =>
    unfold Cache.step
    dsimp only
    split
    · exact good_of_inv (hcall _ (by assumption) rfl)
    · rfl
  | run p drv =>
    unfold Cache.step
    dsimp only
    split
    · exact run_good h p drv
    · rfl
  | iodone b =>
    unfold Cache.step
    dsimp only
    split
    · exact good_of_inv (iodone_inv h (by assumption))
    · rfl

/-! ## The start -/

/-- Nothing is under way before `binit`. -/
structure Start (s : Cache B T Dev P D) : Prop where
  pc : ∀ p, s.pc p = .idle
  pending : ∀ b, s.pending b = false
  last : s.last = s.disk

/-- The buffers in `bufs` are through `binit`, and on both lists of `bfreelist`. -/
structure InitOk (s : Cache B T Dev P D) (bufs : List B) : Prop where
  free : FreeOk s.avForw s.avBack fun b => decide (b ∉ bufs)
  device : Listed s.forw s.back fun b h => b ∈ bufs ∧ h = .bfreelist
  flags : ∀ b ∈ bufs, s.flags b = noFlags
  dev : ∀ b ∈ bufs, s.dev b = none
  owner : ∀ b ∈ bufs, s.owner b = none
  start : Start s

omit [Fintype B] in
theorem initBuf_ok {bufs : List B} (h : InitOk s bufs) (hb : b ∉ bufs) :
    InitOk (s.initBuf b) (b :: bufs) := by
  unfold Cache.initBuf
  obtain ⟨f, k, x, y, heq, hfree⟩ := brelse_spec ({ s with
    dev := Function.update s.dev b none
    back := Function.update (Function.update s.back (.buf b) .bfreelist) (s.forw .bfreelist) (.buf b)
    forw := Function.update (Function.update s.forw (.buf b) (s.forw .bfreelist)) .bfreelist (.buf b)
    flags := Function.update s.flags b { noFlags with busy := true } } : Cache B T Dev P D) b
  simp only [Cache.setFlags]
  rw [heq]
  refine ⟨?_, ?_, ?_, ?_, ?_, h.start.pc, h.start.pending, h.start.last⟩
  · have hbusy : (fun b' => decide (b' ∉ b :: bufs)) =
        Function.update (fun b' => decide (b' ∉ bufs)) b false := by
      funext b'
      by_cases e : b' = b
      · subst e
        simp
      · rw [Function.update_of_ne e]
        simp [e]
    rw [hbusy]
    exact hfree _ h.free (by simpa using hb)
  · have hhead : ∀ b, (Node.bfreelist : Node B T) ≠ .buf b := by simp
    have hlink := h.device.link b hhead (fun hd hq => hb hq.1)
      (fun b' hd hd' h1 h2 => h1.2.trans h2.2.symm)
    have hQ : (fun b' (hd : Node B T) => b' ∈ b :: bufs ∧ hd = .bfreelist) =
        fun b' hd => (b' = b ∧ hd = .bfreelist) ∨ (b' ∈ bufs ∧ hd = .bfreelist) := by
      funext b' hd
      rw [← or_and_right, List.mem_cons]
    rw [hQ]
    exact hlink
  · intro b' hb'
    by_cases e : b' = b
    · subst e
      simp [noFlags]
    · simpa [Function.update_of_ne e] using h.flags b' (by simpa [e] using hb')
  · intro b' hb'
    by_cases e : b' = b
    · subst e
      simp
    · simpa [Function.update_of_ne e] using h.dev b' (by simpa [e] using hb')
  · intro b' hb'
    by_cases e : b' = b
    · subst e
      simp
    · simpa [Function.update_of_ne e] using h.owner b' (by simpa [e] using hb')

omit [Fintype B] in
theorem foldl_initBuf_ok {bufs done : List B} (h : InitOk s done) (hnd : (bufs ++ done).Nodup) :
    InitOk (bufs.foldl Cache.initBuf s) (bufs.reverse ++ done) := by
  induction bufs generalizing s done with
  | nil => exact h
  | cons b bufs ih =>
    rw [List.cons_append, List.nodup_cons] at hnd
    have hb : b ∉ done := fun hb => hnd.1 (List.mem_append_right _ hb)
    have hmid : (bufs ++ b :: done).Nodup := by
      rw [List.nodup_middle, List.nodup_cons]
      exact hnd
    have := ih (initBuf_ok h hb) hmid
    simpa using this

omit [Fintype B] in
/-- The cache is in order after `binit`. -/
theorem binit_inv {bufs : List B} (hs : Start s) (hnd : bufs.Nodup) (hall : ∀ b, b ∈ bufs) :
    Inv sw (s.binit bufs) := by
  have hok : InitOk (s.binit bufs) (bufs.reverse ++ []) := by
    refine foldl_initBuf_ok ?_ (by simpa using hnd : (bufs ++ []).Nodup)
    refine ⟨⟨[], ⟨⟨?_, ?_⟩, by simp⟩, by simp⟩, fun h hh => ⟨[], ⟨?_, by simp⟩, by simp⟩, by simp,
      by simp, by simp, hs.pc, hs.pending, hs.last⟩
    · simp
    · simp
    · cases h with
      | buf b => exact absurd rfl (hh b)
      | tab t => exact ⟨rfl, rfl⟩
      | bfreelist => exact ⟨rfl, rfl⟩
  rw [List.append_nil] at hok
  have hmem : ∀ b, b ∈ bufs.reverse := fun b => List.mem_reverse.mpr (hall b)
  generalize s.binit bufs = s' at hok ⊢
  have hflags : ∀ b, s'.flags b = noFlags := fun b => hok.flags b (hmem b)
  have hdev : ∀ b, s'.dev b = none := fun b => hok.dev b (hmem b)
  refine ⟨?_, ?_, fun b b' d hd => ?_, fun b => ?_, fun d k => Or.inl ?_, fun p b a ha => ?_⟩
  · have hbusy : (fun b => (s'.flags b).busy) = fun b => decide (b ∉ bufs.reverse) := by
      funext b
      rw [hflags b]
      simp [noFlags, hall b]
    rw [hbusy]
    exact hok.free
  · intro h hh
    obtain ⟨l, hring, hl⟩ := hok.device h hh
    refine ⟨l, hring, fun b => ?_⟩
    rw [hl]
    dsimp only
    rw [hdev b]
    exact ⟨fun hb => hb.2.symm, fun hb => ⟨hmem b, hb.symm⟩⟩
  · rw [hdev b] at hd
    cases hd
  · constructor <;> simp [hflags b, noFlags, hok.start.pending b, hok.owner b (hmem b)]
  · rw [hok.start.last]
  · rw [hok.start.pc p] at ha
    cases ha

/-- From `binit` on, for every order of the steps: no two buffers have one block, a buffer is busy
or once on the free list, both kinds of list are doubly linked rings, no walk along them is lost,
and `bread` and `breada` return the block with the data of its last completed write. -/
theorem cache_sound (sw : Bdevsw T Dev) (bufs : List B) (s₀ : Cache B T Dev P D) (hs : Start s₀)
    (hnd : bufs.Nodup) (hall : ∀ b, b ∈ bufs) (acts : List (Cache.Act B T Dev P D))
    (s : Cache B T Dev P D) (rets : List (Option (Cache.Ret B Dev P)))
    (hrun : runs (fun s a => s.step sw a) (s₀.binit bufs) acts = .ok (s, rets)) :
    (∀ b b' d, s.dev b = some d → s.dev b' = some d → s.blkno b = s.blkno b' → b = b') ∧
      FreeOk s.avForw s.avBack (fun b => (s.flags b).busy) ∧ DevOk sw s.forw s.back s.dev ∧
      ∀ a, s.step sw a ≠ .error .lost ∧
        ∀ s' ret, s.step sw a = .ok (s', some ret) → RetOk s' ret := by
  have hinv : Inv sw s := by
    refine runs_inv (fun s a s' r hs hstep => ?_) (binit_inv hs hnd hall) hrun
    have := step_good hs a
    rw [hstep] at this
    exact this.1
  refine ⟨hinv.unique, hinv.free, hinv.device, fun a => ⟨fun hcon => ?_, fun s' ret hstep => ?_⟩⟩
  · have := step_good hinv a
    rw [hcon] at this
    cases this
  · have := step_good hinv a
    rw [hstep] at this
    exact this.2 ret rfl

/-! ## A delayed write whose buffer was taken for another block -/

/-- One buffer, one disk, and one process that writes block 5, reads block 6 and reads block 5
again. -/
def oneBuf : Cache (Fin 1) Unit Unit Unit Nat where
  forw := fun _ => .bfreelist
  back := fun _ => .bfreelist
  avForw := fun _ => .bfreelist
  avBack := fun _ => .bfreelist
  dev := fun _ => none
  blkno := fun _ => 0
  flags := fun _ => noFlags
  freeWanted := false
  data := fun _ => 0
  disk := fun _ _ => 0
  pending := fun _ => false
  pc := fun _ => .idle
  asleep := fun _ => none
  owner := fun _ => none
  last := fun _ _ => 0

def oneDisk : Bdevsw Unit Unit := ⟨fun _ => (), fun _ => false⟩

def later : Driver (Fin 1) Unit := ⟨.bfreelist, .bfreelist, false⟩

def evict : List (Cache.Act (Fin 1) Unit Unit Unit Nat) :=
  [.getblk () () 5, .run () later, .bdwrite () 0 7 later,
    .bread () () 6, .run () later, .iodone 0, .run () later, .iodone 0, .run () later, .brelse () 0,
    .bread () () 5, .run () later, .iodone 0]

/-- The last step of the run returns what the delayed write put in block 5. -/
theorem cache_sound_evict : ∃ s rets s',
    runs (fun s a => s.step oneDisk a) (oneBuf.binit [0]) evict = .ok (s, rets) ∧
      s.step oneDisk (.run () later) = .ok (s', some ⟨(), (), 5, 0, true⟩) ∧
      RetOk s' ⟨(), (), 5, 0, true⟩ ∧ s'.last () 5 = 7 := by
  obtain ⟨s, rets, hrun⟩ : ∃ s rets,
      runs (fun s a => s.step oneDisk a) (oneBuf.binit [0]) evict = .ok (s, rets) := ⟨_, _, rfl⟩
  obtain ⟨s', hstep⟩ : ∃ s', s.step oneDisk (.run () later) =
      .ok (s', some ⟨(), (), 5, 0, true⟩) := by
    cases hrun
    exact ⟨_, rfl⟩
  refine ⟨s, rets, s', hrun, hstep, ?_, ?_⟩
  · exact ((cache_sound oneDisk [0] oneBuf ⟨fun _ => rfl, fun _ => rfl, rfl⟩ (by simp) (by decide)
      evict s rets hrun).2.2.2 (.run () later)).2 s' _ hstep
  · cases hrun
    cases hstep
    rfl

end Venix.Bio
