/-
  The routines of the buffer cache keep its invariant.

  A routine changes one buffer and what the process that calls it is doing. `Inv.buf` is the rule
  for a routine that leaves the blocks of the buffers as they are; `getblk` alone gives a buffer
  to another block.
-/
import Venix.Bio.Inv

set_option linter.unusedSectionVars false

namespace Venix.Bio

open Venix.Lib

variable {B T Dev P D : Type} [DecidableEq B] [DecidableEq T] [DecidableEq Dev] [DecidableEq P]
  {sw : Bdevsw T Dev} {s s' : Cache B T Dev P D} {b : B} {p : P}

/-! ## Rules -/

/-- A step that changes one buffer but not its block. -/
theorem Inv.buf (h : Inv sw s) (b : B)
    (hforw : s'.forw = s.forw) (hback : s'.back = s.back) (hdev : s'.dev = s.dev)
    (hblkno : s'.blkno = s.blkno) (hother : ∀ b', b' ≠ b → SameBuf s s' b')
    (hblock : ∀ d k, ¬(s.dev b = some d ∧ s.blkno b = k) →
      s'.last d k = s.last d k ∧ s'.disk d k = s.disk d k)
    (hown : ∀ d, s.dev b = some d →
      s'.disk d (s.blkno b) = s'.last d (s.blkno b) ∨ Dirty s' b)
    (hfree : FreeOk s'.avForw s'.avBack fun b => (s'.flags b).busy)
    (hbuf : BufOk s' b)
    (hpc : ∀ q, (s'.pc q = s.pc q ∧ ¬WaitsFor (s.pc q) b) ∨
      (PcOk s' q ∧ ∀ b', b' ≠ b → WaitsFor (s.pc q) b' → WaitsFor (s'.pc q) b')) :
    Inv sw s' := by
  have hne : ∀ b' d, b' ≠ b → s.dev b' = some d →
      ¬(s.dev b = some d ∧ s.blkno b = s.blkno b') := fun b' d hb' hd hcon =>
    hb' (h.unique b' b d hd hcon.1 hcon.2.symm)
  refine h.local b hother (fun b' d hb' hd => (hblock d _ (hne b' d hb' hd)).1) hfree ?_ ?_ hbuf
    ?_ hpc
  · rw [hforw, hback, hdev]
    exact h.device
  · intro b' d hb' hd hd'
    rw [hdev] at hd
    rw [hblkno]
    exact fun heq => hne b' d hb' hd' ⟨hd, heq.symm⟩
  · intro d k
    by_cases hb : s.dev b = some d ∧ s.blkno b = k
    · obtain ⟨hd, rfl⟩ := hb
      rcases hown d hd with h1 | h1
      · exact Or.inl h1
      · refine Or.inr (Or.inl ⟨?_, ?_, h1⟩)
        · rw [hdev]
          exact hd
        · rw [hblkno]
    · obtain ⟨h1, h2⟩ := hblock d k hb
      rw [h1, h2]
      rcases h.disk d k with h3 | ⟨b', h3, h4, h5⟩
      · exact Or.inl h3
      · have hbb : b' ≠ b := by
          intro e
          subst e
          exact hb ⟨h3, h4⟩
        exact Or.inr (Or.inr ⟨b', hbb, h3, h4, h5⟩)

/-- Sleeping processes are no part of the invariant. -/
theorem Inv.asleep (h : Inv sw s) (asleep : P → Option (Chan B)) (freeWanted : Bool) :
    Inv sw { s with asleep := asleep, freeWanted := freeWanted } :=
  ⟨h.free, h.device, h.unique, fun b => by
    obtain ⟨h1, h2, h3, h4, h5, h6, h7⟩ := h.bufs b
    exact ⟨h1, h2, h3, h4, h5, h6, h7⟩, h.disk, h.pcs⟩

/-- Nor are the flags `B_WANTED` and `B_AGE`. -/
theorem Inv.marks (h : Inv sw s) (b : B) (wanted age : Bool) :
    Inv sw (s.setFlags b { s.flags b with wanted := wanted, age := age }) := by
  have hf : ∀ b', ∃ w a, (s.setFlags b { s.flags b with wanted := wanted, age := age }).flags b' =
      { s.flags b' with wanted := w, age := a } := by
    intro b'
    by_cases e : b' = b
    · subst e
      exact ⟨wanted, age, Function.update_self _ _ _⟩
    · exact ⟨(s.flags b').wanted, (s.flags b').age, Function.update_of_ne e _ _⟩
  refine ⟨?_, h.device, h.unique, fun b' => ?_, fun d k => ?_, fun q b' a hw => ?_⟩
  · have hbusy : (fun b' => ((s.setFlags b
        { s.flags b with wanted := wanted, age := age }).flags b').busy) =
        fun b' => (s.flags b').busy := by
      funext b'
      obtain ⟨w, a, hf⟩ := hf b'
      rw [hf]
    rw [hbusy]
    exact h.free
  · obtain ⟨w, a, hf⟩ := hf b'
    obtain ⟨h1, h2, h3, h4, h5, h6, h7⟩ := h.bufs b'
    refine ⟨?_, ?_, ?_, ?_, h5, ?_, ?_⟩
    · rw [hf]
      exact h1
    · rw [hf]
      exact h2
    · rw [hf]
      exact h3
    · rw [hf]
      exact h4
    · rw [hf]
      exact h6
    · rw [hf]
      exact h7
  · rcases h.disk d k with h1 | ⟨b', h1, h2, h3⟩
    · exact Or.inl h1
    · obtain ⟨w, a, hf⟩ := hf b'
      refine Or.inr ⟨b', h1, h2, ?_⟩
      unfold Dirty
      rw [hf]
      exact h3
  · obtain ⟨w, a', hf⟩ := hf b'
    rw [hf]
    exact h.pcs q b' a hw

/-- A process turns to something else. -/
theorem Inv.setPc (h : Inv sw s) (p : P) (pc : Pc B Dev) (hok : PcOk (s.setPc p pc) p)
    (hkeep : ∀ b, s.owner b = some p → s.pending b = true → WaitsFor pc b) :
    Inv sw (s.setPc p pc) := by
  refine ⟨h.free, h.device, h.unique, fun b => ?_, h.disk, fun q => ?_⟩
  · obtain ⟨h1, h2, h3, h4, h5, h6, h7⟩ := h.bufs b
    refine ⟨h1, h2, h3, h4, fun q hq hp => ?_, h6, h7⟩
    unfold Cache.setPc at hq hp ⊢
    dsimp only at hq hp ⊢
    by_cases e : q = p
    · subst e
      rw [Function.update_self]
      exact hkeep b hq hp
    · rw [Function.update_of_ne e]
      exact h5 q hq hp
  · by_cases e : q = p
    · subst e
      exact hok
    · intro b a hw
      unfold Cache.setPc at hw ⊢
      dsimp only at hw ⊢
      rw [Function.update_of_ne e] at hw
      exact h.pcs q b a hw

/-! ## A buffer at rest -/

/-- `p` has the buffer, and nothing is under way with it. -/
structure Held (s : Cache B T Dev P D) (p : P) (b : B) : Prop where
  owner : s.owner b = some p
  busy : (s.flags b).busy = true
  pending : s.pending b = false
  async : (s.flags b).async = false
  alone : ∀ q, ¬WaitsFor (s.pc q) b

theorem Inv.held (h : Inv sw s) (hown : s.owner b = some p) (hp : ¬WaitsFor (s.pc p) b) :
    Held s p b := by
  have hb := h.bufs b
  refine ⟨hown, hb.owned (by rw [hown]; simp), ?_, ?_, fun q hw => ?_⟩
  · by_contra hpend
    exact hp (hb.waited p hown (by simpa using hpend))
  · by_contra hasync
    have := (hb.async (by simpa using hasync)).2
    rw [hown] at this
    cases this
  · obtain ⟨a, ha⟩ := hw
    have := (h.pcs q b a ha).1
    rw [hown] at this
    cases this
    exact hp ⟨a, ha⟩

/-- A buffer that is not busy belongs to nobody. -/
theorem Inv.idle (h : Inv sw s) (hb : (s.flags b).busy = false) :
    s.owner b = none ∧ s.pending b = false ∧ (s.flags b).async = false ∧
      ∀ q, ¬WaitsFor (s.pc q) b := by
  have hok := h.bufs b
  have hpend : s.pending b = false := by
    by_contra hp
    have := (hok.pend (by simpa using hp)).1
    rw [hb] at this
    cases this
  have howner : s.owner b = none := by
    by_contra ho
    have := hok.owned ho
    rw [hb] at this
    cases this
  refine ⟨howner, hpend, ?_, fun q hw => ?_⟩
  · by_contra ha
    have := (hok.async (by simpa using ha)).1
    rw [hpend] at this
    cases this
  · obtain ⟨a, ha⟩ := hw
    have := (h.pcs q b a ha).1
    rw [howner] at this
    cases this

theorem busy_update (s : Cache B T Dev P D) (b : B) (f : Flags) :
    (fun b' => (Function.update s.flags b f b').busy) =
      Function.update (fun b' => (s.flags b').busy) b f.busy := by
  funext b'
  by_cases e : b' = b
  · subst e
    simp
  · rw [Function.update_of_ne e, Function.update_of_ne e]

theorem notavail_inv (h : Inv sw s) (p : P) (hb : (s.flags b).busy = false) :
    Inv sw (s.notavail p b) := by
  obtain ⟨howner, hpend, hasync, halone⟩ := h.idle hb
  have hok := h.bufs b
  refine h.buf b rfl rfl rfl rfl (fun b' hb' => ?_) (fun d k _ => ⟨rfl, rfl⟩) (fun d hd => ?_) ?_ ?_
    (fun q => Or.inl ⟨rfl, halone q⟩)
  · exact ⟨Function.update_of_ne hb' _ _, rfl, rfl, rfl, rfl, Function.update_of_ne hb' _ _⟩
  · rcases h.disk d (s.blkno b) with h1 | ⟨b', h1, h2, h3⟩
    · exact Or.inl h1
    · have e : b' = b := h.unique b' b d h1 hd h2
      subst e
      refine Or.inr ?_
      unfold Dirty at h3 ⊢
      simpa [Cache.notavail, Cache.setFlags, Cache.setOwner] using h3
  · unfold Cache.notavail Cache.setFlags Cache.setOwner
    dsimp only
    rw [busy_update]
    exact h.free.notavail hb
  · constructor <;> simp [Cache.notavail, Cache.setFlags, Cache.setOwner, hpend, hasync]
    · exact hok.delwri
    · exact hok.fresh

/-! ## Giving a buffer back -/

/-- What `brelse` does: the wakeups change only who is asleep, and the buffer goes on the free
list. -/
theorem brelse_spec (s : Cache B T Dev P D) (b : B) :
    ∃ f k x y, s.brelse b =
        { s with
          avForw := f
          avBack := k
          flags := Function.update s.flags b
            { s.flags b with wanted := false, busy := false, async := false, age := false }
          owner := Function.update s.owner b none
          asleep := x
          freeWanted := y } ∧
      ∀ busy, FreeOk s.avForw s.avBack busy → busy b = true →
        FreeOk f k (Function.update busy b false) := by
  have h1 : ∃ x, (if (s.flags b).wanted then s.wakeup (.buf b) else s) = { s with asleep := x } := by
    split
    · exact ⟨_, rfl⟩
    · exact ⟨s.asleep, rfl⟩
  obtain ⟨x, hx⟩ := h1
  have h2 : ∃ x' y, ({ s with asleep := x } : Cache B T Dev P D).wakeFree =
      { s with asleep := x', freeWanted := y } := by
    unfold Cache.wakeFree
    split
    · exact ⟨_, _, rfl⟩
    · exact ⟨x, s.freeWanted, rfl⟩
  obtain ⟨x', y, hy⟩ := h2
  unfold Cache.brelse
  simp only [hx, hy]
  split
  · exact ⟨_, _, x', y, rfl, fun busy hfree hb => hfree.putFirst hb⟩
  · exact ⟨_, _, x', y, rfl, fun busy hfree hb => hfree.putLast hb⟩

theorem brelse_inv (h : Inv sw s) (hheld : Held s p b) : Inv sw (s.brelse b) := by
  obtain ⟨f, k, x, y, heq, hfree⟩ := brelse_spec s b
  have hok := h.bufs b
  rw [heq]
  refine h.buf b rfl rfl rfl rfl (fun b' hb' => ?_) (fun d k _ => ⟨rfl, rfl⟩) (fun d hd => ?_) ?_ ?_
    (fun q => Or.inl ⟨rfl, hheld.alone q⟩)
  · exact ⟨Function.update_of_ne hb' _ _, rfl, rfl, rfl, rfl, Function.update_of_ne hb' _ _⟩
  · rcases h.disk d (s.blkno b) with h1 | ⟨b', h1, h2, h3⟩
    · exact Or.inl h1
    · have e : b' = b := h.unique b' b d h1 hd h2
      subst e
      refine Or.inr ?_
      unfold Dirty at h3 ⊢
      simpa using h3
  · dsimp only
    rw [busy_update]
    exact hfree _ h.free hheld.busy
  · constructor <;> simp [hheld.pending]
    · exact hok.delwri
    · exact hok.fresh

theorem brelse_setPc (s : Cache B T Dev P D) (b : B) (p : P) (pc : Pc B Dev) :
    (s.setPc p pc).brelse b = (s.brelse b).setPc p pc := by
  by_cases h1 : (s.flags b).wanted <;> by_cases h2 : s.freeWanted <;>
    by_cases h3 : (s.flags b).age <;>
    simp [Cache.brelse, Cache.wakeFree, Cache.wakeup, Cache.setPc, Cache.putFirst, Cache.putLast,
      Cache.setFlags, Cache.setOwner, h1, h2, h3]

/-! ## The end of a transfer -/

/-- What a transfer does to the buffer and to the disk. -/
theorem transfer_spec (s : Cache B T Dev P D) (b : B) :
    ∃ data disk last, s.transfer b = { s with data := data, disk := disk, last := last } ∧
      (∀ b', b' ≠ b → data b' = s.data b') ∧
      (∀ d k, ¬(s.dev b = some d ∧ s.blkno b = k) →
        last d k = s.last d k ∧ disk d k = s.disk d k) ∧
      ∀ d, s.dev b = some d →
        data b = disk d (s.blkno b) ∧
        ((s.flags b).read = true → disk = s.disk ∧ last = s.last) ∧
        ((s.flags b).read = false → data b = last d (s.blkno b)) := by
  unfold Cache.transfer
  cases hd : s.dev b with
  | none => exact ⟨s.data, s.disk, s.last, rfl, fun _ _ => rfl, fun _ _ _ => ⟨rfl, rfl⟩, by simp⟩
  | some d =>
    dsimp only
    split
    · rename_i hread
      refine ⟨_, s.disk, s.last, rfl, fun b' hb' => Function.update_of_ne hb' _ _,
        fun _ _ _ => ⟨rfl, rfl⟩, fun d' hd' => ?_⟩
      cases hd'
      refine ⟨Function.update_self _ _ _, fun _ => ⟨rfl, rfl⟩, fun hr => ?_⟩
      rw [hread] at hr
      cases hr
    · rename_i hread
      refine ⟨s.data, _, _, rfl, fun _ _ => rfl, fun d' k hne => ?_, fun d' hd' => ?_⟩
      · by_cases e : d' = d
        · subst e
          have hk : k ≠ s.blkno b := fun hk => hne ⟨rfl, hk.symm⟩
          simp [Function.update_of_ne hk]
        · simp [Function.update_of_ne e]
      · cases hd'
        refine ⟨by simp, fun hr => absurd hr hread, fun _ => by simp⟩

/-- What `iodone` does: the buffer is done, and is given back or its owner goes on. -/
theorem iodone_spec (s : Cache B T Dev P D) (b : B) :
    ∃ f k x y, s.iodone b =
        { s.transfer b with
          pending := Function.update s.pending b false
          avForw := f
          avBack := k
          flags := Function.update s.flags b
            { s.flags b with
              done := true
              wanted := false
              busy := (s.flags b).busy && !(s.flags b).async
              async := false
              age := (s.flags b).age && !(s.flags b).async }
          owner := if (s.flags b).async then Function.update s.owner b none else s.owner
          asleep := x
          freeWanted := y } ∧
      ∀ busy, FreeOk s.avForw s.avBack busy → busy b = true →
        FreeOk f k (Function.update busy b (!(s.flags b).async)) := by
  obtain ⟨data, disk, last, ht, -, -, -⟩ := transfer_spec s b
  unfold Cache.iodone
  simp only [ht, Cache.setFlags, Function.update_self]
  by_cases ha : (s.flags b).async = true
  · obtain ⟨f, k, x, y, heq, hfree⟩ := brelse_spec ({ s with
      data := data, disk := disk, last := last, pending := Function.update s.pending b false
      flags := Function.update s.flags b { s.flags b with done := true } }) b
    refine ⟨f, k, x, y, ?_, ?_⟩
    · rw [if_pos ha, if_pos ha]
      refine heq.trans ?_
      simp [ha]
    · simpa [ha] using hfree
  · refine ⟨s.avForw, s.avBack, (s.wakeup (.buf b)).asleep, s.freeWanted, ?_, fun busy h hb => ?_⟩
    · rw [if_neg ha, if_neg ha]
      simp only [Cache.wakeup, Function.update_idem, Bool.not_eq_true] at ha ⊢
      simp [ha]
    · simp only [Bool.not_eq_true] at ha
      rw [ha, Bool.not_false, ← hb, Function.update_eq_self]
      exact h

theorem iodone_inv (h : Inv sw s) (hpend : s.pending b = true) : Inv sw (s.iodone b) := by
  obtain ⟨data, disk, last, ht, hdata, hblock, hown⟩ := transfer_spec s b
  obtain ⟨f, k, x, y, heq, hfree⟩ := iodone_spec s b
  have hok := h.bufs b
  obtain ⟨hbusy, hdone, hdelwri⟩ := hok.pend hpend
  -- the disk had the data of the last write already if the transfer is a read
  have hlast : ∀ d, s.dev b = some d → disk d (s.blkno b) = last d (s.blkno b) := by
    intro d hd
    obtain ⟨h1, h2, h3⟩ := hown d hd
    cases hr : (s.flags b).read with
    | false => rw [← h1, h3 hr]
    | true =>
      obtain ⟨rfl, rfl⟩ := h2 hr
      rcases h.disk d (s.blkno b) with h4 | ⟨b', h4, h5, h6⟩
      · exact h4
      · have e : b' = b := h.unique b' b d h4 hd h5
        subst e
        rcases h6 with h6 | h6
        · rw [hdelwri] at h6
          cases h6
        · rw [hr] at h6
          cases h6.2
  rw [heq, ht]
  refine h.buf b rfl rfl rfl rfl (fun b' hb' => ?_) (fun d k hne => hblock d k hne)
    (fun d hd => Or.inl (hlast d hd)) ?_ ?_ (fun q => ?_)
  · refine ⟨Function.update_of_ne hb' _ _, rfl, rfl, hdata b' hb', Function.update_of_ne hb' _ _, ?_⟩
    dsimp only
    split
    · exact Function.update_of_ne hb' _ _
    · rfl
  · dsimp only
    rw [busy_update]
    simpa [hbusy] using hfree _ h.free hbusy
  · constructor <;> simp
    · intro hb ha
      rw [if_neg (by simp [ha])]
      simpa [ha] using hok.busy hb
    · intro ho
      by_cases ha : (s.flags b).async = true
      · simp [ha] at ho
      · exact ⟨hbusy, by simpa using ha⟩
    · intro d hd
      rw [(hown d hd).1, hlast d hd]
  · by_cases hw : WaitsFor (s.pc q) b
    · refine Or.inr ⟨fun b' a ha => ?_, fun b' _ hw' => hw'⟩
      obtain ⟨h1, h2, h3⟩ := h.pcs q b' a ha
      dsimp only at ha ⊢
      have hna : (s.flags b).async = false := by
        obtain ⟨a', ha'⟩ := hw
        by_contra hcon
        have := (hok.async (by simpa using hcon)).2
        rw [(h.pcs q b a' ha').1] at this
        cases this
      by_cases e : b' = b
      · subst e
        refine ⟨?_, Or.inr (by simp), h3⟩
        simpa [hna] using h1
      · refine ⟨?_, ?_, h3⟩
        · simpa [hna] using h1
        · simpa [Function.update_of_ne e] using h2
    · exact Or.inl ⟨rfl, hw⟩

theorem iodone_setPc (s : Cache B T Dev P D) (b : B) (p : P) (pc : Pc B Dev) :
    (s.setPc p pc).iodone b = (s.iodone b).setPc p pc := by
  obtain ⟨data, disk, last, ht, -⟩ := transfer_spec s b
  have ht' : (s.setPc p pc).transfer b = (s.transfer b).setPc p pc := by
    unfold Cache.transfer Cache.setPc
    dsimp only
    cases s.dev b with
    | none => rfl
    | some d =>
      dsimp only
      split <;> rfl
  unfold Cache.iodone
  simp only [ht', ht]
  split
  · rename_i ha
    rw [if_pos (by exact ha), ← brelse_setPc]
    rfl
  · rename_i ha
    rw [if_neg (by exact ha)]
    rfl

/-! ## The start of a transfer -/

/-- The driver has the request. -/
def Cache.request (s : Cache B T Dev P D) (b : B) (drv : Driver B T) : Cache B T Dev P D :=
  { s with
    pending := Function.update s.pending b true
    avForw := Function.update s.avForw (.buf b) drv.avForw
    avBack := Function.update s.avBack (.buf b) drv.avBack }

theorem strategy_inv {drv : Driver B T} (h : Inv sw (s.request b drv)) :
    Inv sw (s.strategy b drv) := by
  have heq : s.strategy b drv =
      if drv.atOnce then (s.request b drv).iodone b else s.request b drv := rfl
  rw [heq]
  split
  · exact iodone_inv h (Function.update_self _ _ _)
  · exact h

theorem strategy_setPc (s : Cache B T Dev P D) (b : B) (p : P) (pc : Pc B Dev) (drv : Driver B T) :
    (s.setPc p pc).strategy b drv = (s.strategy b drv).setPc p pc := by
  unfold Cache.strategy
  dsimp only
  split
  · rw [← iodone_setPc]
    rfl
  · rfl

/-- A request of a buffer that `p` has: the flags, the data and the owner are set before. A
process that waits for it is the owner; nobody waits for an asynchronous one. -/
theorem request_inv (h : Inv sw s) (hheld : Held s p b) (f : Flags) (x : D) (o : Option P)
    (pc : Pc B Dev) (drv : Driver B T) (hf : f.busy = true ∧ f.done = false ∧ f.delwri = false)
    (hdisk : f.read = true → (s.flags b).delwri = false)
    (hpc : ∀ b', WaitsFor (s.pc p) b' → WaitsFor pc b')
    (ho : (o = some p ∧ f.async = false ∧
        ∃ a, pc.waits = some (b, a) ∧
          ∀ dev blkno, a = some (dev, blkno) → s.dev b = some dev ∧ s.blkno b = blkno) ∨
      (o = none ∧ f.async = true ∧ pc = s.pc p)) :
    Inv sw (((((s.setData b x).setFlags b f).setOwner b o).setPc p pc).request b drv) := by
  unfold Cache.request Cache.setPc Cache.setOwner Cache.setFlags Cache.setData
  dsimp only
  obtain ⟨hbusy, hdone, hdelwri⟩ := hf
  refine h.buf b rfl rfl rfl rfl (fun b' hb' => ?_) (fun d k hne => ⟨rfl, rfl⟩) (fun d hd => ?_)
    ?_ ?_ (fun q => ?_)
  · exact ⟨Function.update_of_ne hb' _ _, rfl, rfl, Function.update_of_ne hb' _ _,
      Function.update_of_ne hb' _ _, Function.update_of_ne hb' _ _⟩
  · cases hr : f.read with
    | false => exact Or.inr (Or.inr ⟨by simp, by simpa using hr⟩)
    | true =>
      rcases h.disk d (s.blkno b) with h1 | ⟨b', h1, h2, h3⟩
      · exact Or.inl h1
      · have e : b' = b := h.unique b' b d h1 hd h2
        subst e
        rcases h3 with h3 | h3
        · rw [hdisk hr] at h3
          cases h3
        · rw [hheld.pending] at h3
          cases h3.1
  · dsimp only
    rw [busy_update, hbusy]
    have hsame : Function.update (fun b' => (s.flags b').busy) b true =
        fun b' => (s.flags b').busy := by
      rw [← hheld.busy]
      exact Function.update_eq_self _ _
    rw [hsame]
    exact h.free.scribble hheld.busy _ _
  · constructor <;> simp [hbusy, hdone, hdelwri]
    · intro ha
      rcases ho with ⟨-, ha', -⟩ | ⟨ho, -, -⟩
      · rw [ha] at ha'
        cases ha'
      · exact ho
    · rcases ho with ⟨ho, -, -⟩ | ⟨-, ha, -⟩
      · exact Or.inl (by rw [ho]; simp)
      · exact Or.inr ha
    · intro q hq
      rcases ho with ⟨ho, -, a, ha, -⟩ | ⟨ho, -, -⟩
      · rw [ho] at hq
        cases hq
        rw [Function.update_self]
        exact ⟨a, ha⟩
      · rw [ho] at hq
        cases hq
  · by_cases e : q = p
    · subst e
      rcases ho with ⟨ho, hasync, a, ha, hblk⟩ | ⟨-, -, hsame⟩
      · refine Or.inr ⟨fun b' a' ha' => ?_, fun b' _ hw => ?_⟩
        · dsimp only at ha' ⊢
          rw [Function.update_self, ha] at ha'
          cases ha'
          exact ⟨by simpa using ho, Or.inl (by simp), hblk⟩
        · dsimp only
          rw [Function.update_self]
          exact hpc b' hw
      · refine Or.inl ⟨?_, hheld.alone q⟩
        dsimp only
        rw [Function.update_self, hsame]
    · exact Or.inl ⟨Function.update_of_ne e _ _, hheld.alone q⟩

theorem setData_self (s : Cache B T Dev P D) (b : B) : s.setData b (s.data b) = s := by
  unfold Cache.setData
  rw [Function.update_eq_self]

theorem setOwner_self (s : Cache B T Dev P D) {o : Option P} (h : s.owner b = o) :
    s.setOwner b o = s := by
  unfold Cache.setOwner
  rw [← h, Function.update_eq_self]

theorem setPc_self (s : Cache B T Dev P D) (p : P) : s.setPc p (s.pc p) = s := by
  unfold Cache.setPc
  rw [Function.update_eq_self]

theorem startRead_inv (h : Inv sw s) (hheld : Held s p b) (hdone : (s.flags b).done = false)
    (pc : Pc B Dev) (drv : Driver B T) (hpc : ∀ b', ¬WaitsFor (s.pc p) b') {dev : Dev} {blkno : Nat}
    (hwait : pc.waits = some (b, some (dev, blkno))) (hdev : s.dev b = some dev)
    (hblkno : s.blkno b = blkno) :
    Inv sw ((s.startRead b drv).setPc p pc) := by
  have hdelwri : (s.flags b).delwri = false := by
    by_contra hcon
    have := (h.bufs b).delwri (by simpa using hcon)
    rw [hdone] at this
    cases this
  unfold Cache.startRead
  rw [← strategy_setPc]
  apply strategy_inv
  have hreq := request_inv h hheld { s.flags b with read := true } (s.data b) (some p) pc drv
    ⟨hheld.busy, hdone, hdelwri⟩ (fun _ => hdelwri) (fun b' hw => absurd hw (hpc b'))
    (Or.inl ⟨rfl, hheld.async, _, hwait, fun dev' blkno' heq => by
      cases heq
      exact ⟨hdev, hblkno⟩⟩)
  rw [setData_self, setOwner_self] at hreq
  · exact hreq
  · exact hheld.owner

theorem startReadAsync_inv (h : Inv sw s) (hheld : Held s p b) (hdone : (s.flags b).done = false)
    (drv : Driver B T) : Inv sw (s.startReadAsync b drv) := by
  have hdelwri : (s.flags b).delwri = false := by
    by_contra hcon
    have := (h.bufs b).delwri (by simpa using hcon)
    rw [hdone] at this
    cases this
  unfold Cache.startReadAsync
  apply strategy_inv
  have hreq := request_inv h hheld { s.flags b with read := true, async := true } (s.data b) none
    (s.pc p) drv ⟨hheld.busy, hdone, hdelwri⟩ (fun _ => hdelwri) (fun b' hw => hw)
    (Or.inr ⟨rfl, rfl, rfl⟩)
  rw [setData_self] at hreq
  have hpc := setPc_self ((s.setFlags b { s.flags b with read := true, async := true }).setOwner b
    none) p
  unfold Cache.setOwner Cache.setFlags at hpc hreq ⊢
  dsimp only at hpc hreq ⊢
  rw [hpc] at hreq
  exact hreq

theorem startWrite_inv (h : Inv sw s) (hheld : Held s p b) (x : D) (drv : Driver B T)
    (hpc : ∀ b', ¬WaitsFor (s.pc p) b') :
    Inv sw (((s.setData b x).startWrite b drv).setPc p (.iowait b .bwrite)) := by
  unfold Cache.startWrite
  rw [← strategy_setPc]
  apply strategy_inv
  have hreq := request_inv h hheld
    { s.flags b with read := false, done := false, delwri := false, age := false } x (some p)
    (.iowait b .bwrite) drv ⟨hheld.busy, rfl, rfl⟩ (by simp) (fun b' hw => absurd hw (hpc b'))
    (Or.inl ⟨rfl, hheld.async, none, rfl, by simp⟩)
  rw [setOwner_self] at hreq
  · exact hreq
  · exact hheld.owner

theorem bawrite_inv (h : Inv sw s) (hheld : Held s p b) (x : D) (drv : Driver B T) :
    Inv sw ((s.setData b x).bawrite b drv) := by
  have hreq := request_inv h hheld
    { s.flags b with read := false, done := false, delwri := false, age := false, async := true } x
    none (s.pc p) drv ⟨hheld.busy, rfl, rfl⟩ (by simp) (fun b' hw => hw) (Or.inr ⟨rfl, rfl, rfl⟩)
  have hstart : Inv sw (((((s.setData b x).setFlags b { (s.setData b x).flags b with async := true })
      |>.setOwner b none)).startWrite b drv) := by
    unfold Cache.startWrite
    apply strategy_inv
    unfold Cache.setOwner Cache.setFlags Cache.setPc at hreq
    unfold Cache.setOwner Cache.setFlags
    simpa [Cache.setData, Function.update_eq_self, Cache.request] using hreq
  unfold Cache.bawrite Cache.bwriteAsync
  dsimp only
  split
  · exact hstart.marks b _ true
  · exact hstart

/-- The delayed write counts as a write from here on, though the disk does not have it. -/
theorem bdwrite_inv (h : Inv sw s) (hheld : Held s p b) (x : D) (drv : Driver B T) :
    Inv sw ((s.setData b x).bdwrite sw b drv) := by
  have hok := h.bufs b
  unfold Cache.bdwrite
  cases hd : (s.setData b x).dev b with
  | none =>
    have hd' : s.dev b = none := hd
    refine h.buf b rfl rfl rfl rfl (fun b' hb' => ?_) (fun d k _ => ⟨rfl, rfl⟩)
      (fun d hd'' => ?_) h.free ?_ (fun q => Or.inl ⟨rfl, hheld.alone q⟩)
    · exact ⟨rfl, rfl, rfl, Function.update_of_ne hb' _ _, rfl, rfl⟩
    · rw [hd'] at hd''
      cases hd''
    · refine ⟨hok.pend, hok.async, hok.busy, hok.owned, hok.waited, hok.delwri, fun _ d hd'' => ?_⟩
      rw [hd] at hd''
      cases hd''
  | some d =>
    have hd' : s.dev b = some d := hd
    dsimp only
    split
    · exact bawrite_inv h hheld x drv
    · have hmark : Inv sw ({ s.setData b x with
          last := Function.update s.last d (Function.update (s.last d) (s.blkno b) x)
          flags := Function.update s.flags b { s.flags b with delwri := true, done := true } }) := by
        refine h.buf b rfl rfl rfl rfl (fun b' hb' => ?_) (fun d' k hne => ⟨?_, rfl⟩)
          (fun d' hd'' => Or.inr (Or.inl (by simp))) ?_ ?_ (fun q => Or.inl ⟨rfl, hheld.alone q⟩)
        · exact ⟨Function.update_of_ne hb' _ _, rfl, rfl, Function.update_of_ne hb' _ _, rfl, rfl⟩
        · by_cases e : d' = d
          · subst e
            have hk : k ≠ s.blkno b := fun hk => hne ⟨hd', hk.symm⟩
            simp [Function.update_of_ne hk]
          · simp [Function.update_of_ne e]
        · dsimp only
          rw [busy_update]
          have hsame := Function.update_eq_self b fun b' => (s.flags b').busy
          dsimp only at hsame ⊢
          rw [hsame]
          exact h.free
        · constructor <;> simp [Cache.setData, hheld.pending, hheld.async, hheld.owner, hheld.busy,
            hd']
      have hheld' : Held ({ s.setData b x with
          last := Function.update s.last d (Function.update (s.last d) (s.blkno b) x)
          flags := Function.update s.flags b { s.flags b with delwri := true, done := true } }) p
          b := by
        refine ⟨hheld.owner, ?_, hheld.pending, ?_, hheld.alone⟩
        · simpa using hheld.busy
        · simpa using hheld.async
      have hrel := brelse_inv hmark hheld'
      simpa [Cache.setData, Cache.setFlags] using hrel

/-! ## Another block for a buffer -/

/-- A buffer is given to a block that no buffer has; nothing is lost with its old block. -/
theorem reassign_inv (h : Inv sw s) (hheld : Held s p b) (hdelwri : (s.flags b).delwri = false)
    (dev : Dev) (blkno : Nat) (hnone : ∀ b', ¬(s.blkno b' = blkno ∧ s.dev b' = some dev)) :
    Inv sw (s.reassign sw dev blkno b) := by
  refine h.local b (fun b' hb' => ?_) (fun _ _ _ _ => rfl) ?_ ?_ ?_ ?_ ?_
    (fun q => Or.inl ⟨rfl, hheld.alone q⟩)
  · exact ⟨Function.update_of_ne hb' _ _, Function.update_of_ne hb' _ _,
      Function.update_of_ne hb' _ _, rfl, rfl, rfl⟩
  · unfold Cache.reassign Cache.setFlags
    dsimp only
    rw [busy_update]
    have hsame := Function.update_eq_self b fun b' => (s.flags b').busy
    dsimp only at hsame ⊢
    rw [hheld.busy] at hsame
    rw [hsame]
    exact h.free
  · exact h.device.move b dev rfl rfl
  · intro b' d hb' hd hd' heq
    unfold Cache.reassign Cache.setFlags at hd heq
    dsimp only at hd heq
    rw [Function.update_self] at hd heq
    cases hd
    exact hnone b' ⟨heq, hd'⟩
  · constructor <;> simp [Cache.reassign, Cache.setFlags, noFlags, hheld.pending, hheld.owner]
  · intro d k
    rcases h.disk d k with h1 | ⟨b', h1, h2, h3⟩
    · exact Or.inl h1
    · refine Or.inr (Or.inr ⟨b', ?_, h1, h2, h3⟩)
      intro e
      subst e
      rcases h3 with h3 | h3
      · rw [hdelwri] at h3
        cases h3
      · rw [hheld.pending] at h3
        cases h3.1

end Venix.Bio
