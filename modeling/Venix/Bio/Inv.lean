/-
  What holds of the buffer cache at every point where another process may run.

  `Inv` is the invariant. A buffer that is done has the data of the last write of its block. The
  disk has them too unless a buffer of the block waits for its delayed write or is being written.
  A busy buffer has an owner, or is with a driver and nobody waits for it. `Inv.local` is the
  rule for a step that changes one buffer and what one process is doing.
-/
import Venix.Bio.Lists

set_option linter.unusedSectionVars false

namespace Venix.Bio

open Venix.Lib

variable {B T Dev P D : Type} [DecidableEq B] [DecidableEq T] [DecidableEq Dev] [DecidableEq P]

/-- The buffer a process waits for, with the block it has to be for where that matters. -/
def Pc.waits : Pc B Dev → Option (B × Option (Dev × Nat))
  | .iowait b (.bread dev blkno) => some (b, some (dev, blkno))
  | .iowait b .bwrite => some (b, none)
  | .getblk dev _ (.readAhead (some b) blkno) => some (b, some (dev, blkno))
  | _ => none

def WaitsFor (pc : Pc B Dev) (b : B) : Prop := ∃ a, pc.waits = some (b, a)

structure BufOk (s : Cache B T Dev P D) (b : B) : Prop where
  pend : s.pending b = true →
    (s.flags b).busy = true ∧ (s.flags b).done = false ∧ (s.flags b).delwri = false
  async : (s.flags b).async = true → s.pending b = true ∧ s.owner b = none
  busy : (s.flags b).busy = true → s.owner b ≠ none ∨ (s.pending b = true ∧ (s.flags b).async = true)
  owned : s.owner b ≠ none → (s.flags b).busy = true
  waited : ∀ p, s.owner b = some p → s.pending b = true → WaitsFor (s.pc p) b
  delwri : (s.flags b).delwri = true → (s.flags b).done = true
  fresh : (s.flags b).done = true → ∀ d, s.dev b = some d → s.data b = s.last d (s.blkno b)

/-- What a process waits for is its own, and is for the block it asked for. -/
def PcOk (s : Cache B T Dev P D) (p : P) : Prop :=
  ∀ b a, (s.pc p).waits = some (b, a) →
    s.owner b = some p ∧ (s.pending b = true ∨ (s.flags b).done = true) ∧
      ∀ dev blkno, a = some (dev, blkno) → s.dev b = some dev ∧ s.blkno b = blkno

/-- The disk does not have the data of the buffer yet. -/
def Dirty (s : Cache B T Dev P D) (b : B) : Prop :=
  (s.flags b).delwri = true ∨ (s.pending b = true ∧ (s.flags b).read = false)

structure Inv (sw : Bdevsw T Dev) (s : Cache B T Dev P D) : Prop where
  free : FreeOk s.avForw s.avBack fun b => (s.flags b).busy
  device : DevOk sw s.forw s.back s.dev
  unique : ∀ b b' d, s.dev b = some d → s.dev b' = some d → s.blkno b = s.blkno b' → b = b'
  bufs : ∀ b, BufOk s b
  disk : ∀ d k, s.disk d k = s.last d k ∨ ∃ b, s.dev b = some d ∧ s.blkno b = k ∧ Dirty s b
  pcs : ∀ p, PcOk s p

/-- Nothing about `b` is different. -/
structure SameBuf (s s' : Cache B T Dev P D) (b : B) : Prop where
  flags : s'.flags b = s.flags b
  dev : s'.dev b = s.dev b
  blkno : s'.blkno b = s.blkno b
  data : s'.data b = s.data b
  pending : s'.pending b = s.pending b
  owner : s'.owner b = s.owner b

/-- A step that changes one buffer, and what some processes do that may wait for it. -/
theorem Inv.local {sw : Bdevsw T Dev} {s s' : Cache B T Dev P D} (h : Inv sw s) (b : B)
    (hother : ∀ b', b' ≠ b → SameBuf s s' b')
    (hlast : ∀ b' d, b' ≠ b → s.dev b' = some d → s'.last d (s.blkno b') = s.last d (s.blkno b'))
    (hfree : FreeOk s'.avForw s'.avBack fun b => (s'.flags b).busy)
    (hdevice : DevOk sw s'.forw s'.back s'.dev)
    (hunique : ∀ b' d, b' ≠ b → s'.dev b = some d → s.dev b' = some d → s.blkno b' ≠ s'.blkno b)
    (hbuf : BufOk s' b)
    (hdisk : ∀ d k, s'.disk d k = s'.last d k ∨ (s'.dev b = some d ∧ s'.blkno b = k ∧ Dirty s' b) ∨
      ∃ b', b' ≠ b ∧ s.dev b' = some d ∧ s.blkno b' = k ∧ Dirty s b')
    (hpc : ∀ q, (s'.pc q = s.pc q ∧ ¬WaitsFor (s.pc q) b) ∨
      (PcOk s' q ∧ ∀ b', b' ≠ b → WaitsFor (s.pc q) b' → WaitsFor (s'.pc q) b')) :
    Inv sw s' := by
  have hwaits : ∀ q b', b' ≠ b → WaitsFor (s.pc q) b' → WaitsFor (s'.pc q) b' := by
    intro q b' hb' hw
    rcases hpc q with ⟨heq, _⟩ | ⟨_, hk⟩
    · rw [heq]
      exact hw
    · exact hk b' hb' hw
  refine ⟨hfree, hdevice, ?_, ?_, ?_, ?_⟩
  · intro b₁ b₂ d h1 h2 h3
    by_cases e1 : b₁ = b
    · by_cases e2 : b₂ = b
      · rw [e1, e2]
      · subst e1
        rw [(hother b₂ e2).dev] at h2
        rw [(hother b₂ e2).blkno] at h3
        exact absurd h3.symm (hunique b₂ d e2 h1 h2)
    · rw [(hother b₁ e1).dev] at h1
      rw [(hother b₁ e1).blkno] at h3
      by_cases e2 : b₂ = b
      · subst e2
        exact absurd h3 (hunique b₁ d e1 h2 h1)
      · rw [(hother b₂ e2).dev] at h2
        rw [(hother b₂ e2).blkno] at h3
        exact h.unique b₁ b₂ d h1 h2 h3
  · intro b'
    by_cases e : b' = b
    · subst e
      exact hbuf
    · obtain ⟨hf, hd, hk, hdat, hp, ho⟩ := hother b' e
      obtain ⟨h1, h2, h3, h4, h5, h6, h7⟩ := h.bufs b'
      refine ⟨?_, ?_, ?_, ?_, ?_, ?_, ?_⟩
      · rw [hf, hp]
        exact h1
      · rw [hf, hp, ho]
        exact h2
      · rw [hf, hp, ho]
        exact h3
      · rw [hf, ho]
        exact h4
      · rw [hp, ho]
        exact fun p hq hq' => hwaits p b' e (h5 p hq hq')
      · rw [hf]
        exact h6
      · rw [hf, hd, hk, hdat]
        intro hdone d hdev
        rw [hlast b' d e hdev]
        exact h7 hdone d hdev
  · intro d k
    rcases hdisk d k with h1 | h1 | ⟨b', e, h1, h2, h3⟩
    · exact Or.inl h1
    · exact Or.inr ⟨b, h1⟩
    · obtain ⟨hf, hd, hk, _, hp, _⟩ := hother b' e
      refine Or.inr ⟨b', hd.trans h1, hk.trans h2, ?_⟩
      unfold Dirty at h3 ⊢
      rw [hf, hp]
      exact h3
  · intro q
    rcases hpc q with ⟨heq, hno⟩ | ⟨hok, _⟩
    · intro b' a hw
      rw [heq] at hw
      have e : b' ≠ b := by
        rintro rfl
        exact hno ⟨a, hw⟩
      obtain ⟨hf, hd, hk, _, hp, ho⟩ := hother b' e
      rw [hf, hd, hk, hp, ho]
      exact h.pcs q b' a hw
    · exact hok

end Venix.Bio
