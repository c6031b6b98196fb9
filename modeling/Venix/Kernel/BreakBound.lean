/-
  What the data segment covers after `sbreak`.

  `btoc` rounds the break up to clicks in 16 bits, so that the last 63 addresses come to 0 clicks
  instead of 1024. The data is then cut to nothing, and no error is reported. At every other break
  the segment covers what lies below it, or the call reports the error.
-/
import Venix.Kernel.SbreakRun

namespace Venix.Kernel

namespace Core

/-- The first address of the data: after the text, when the two are not apart. -/
def Image.dataBase (s : Image) : Nat := if s.sep then 0 else 8192 * (ctos s.tsize).toNat

/-- No address of the data space below the break lies above the data. -/
def Image.covers (nsiz : Word) (s : Image) : Prop :=
  ∀ a < nsiz.toNat, s.dataBase ≤ a → a < s.dataBase + 64 * s.dsize.toNat

/-- The call reports an error and changes no size, or the data reaches the break. -/
def BreakCovers (cpu : Cpu) (nsiz : Word) (away : Away) (s : Image) : Prop :=
  match sbreak cpu nsiz away s with
  | .ok s' =>
    s'.enomem = true ∧ s'.dsize = s.dsize ∧ s'.ssize = s.ssize ∧ s'.size = s.size ∨
      s'.covers nsiz
  | .error _ => True

/-- The break does not wrap around in `btoc`, or the text takes the whole space below it. -/
def BreakRounds (nsiz : Word) (s : Image) : Prop :=
  nsiz.toNat ≤ 65472 ∨ s.sep = false ∧ (ctos s.tsize).toNat = 8

theorem DataSized.dataBase {newd : Word} {s s' : Image} (h : DataSized newd s s') :
    s'.dataBase = s.dataBase := by
  unfold Image.dataBase
  rw [h.sep, h.tsize]

/-- A break that is rounded up right is covered. -/
theorem dataClicks_covers {nsiz : Word} {s : Image} (htext : (ctos s.tsize).toNat ≤ 8)
    (h : nsiz.toNat ≤ 65472) : nsiz.toNat ≤ s.dataBase + 64 * (dataClicks nsiz s).toNat := by
  have hbtoc := btoc_toNat nsiz
  rw [dataClicks_toNat htext]
  unfold Image.dataBase
  split <;> omega

/-- A break at the end of the space is taken for an empty one. -/
theorem dataClicks_wraps {nsiz : Word} {s : Image} (htext : (ctos s.tsize).toNat ≤ 8)
    (h : 65472 < nsiz.toNat) : dataClicks nsiz s = 0 := by
  apply BitVec.eq_of_toNat_eq
  have hbtoc := btoc_toNat nsiz
  rw [dataClicks_toNat htext]
  simp only [BitVec.reduceToNat]
  omega

/-- Less data is accepted where more was. -/
theorem Valid.accepts_empty {cpu : Cpu} {s : Image} (h : Valid cpu s) :
    estabur cpu s.tsize 0 s.ssize s.sep = true := by
  obtain ⟨ht, hd, hs⟩ := h.segments
  obtain ⟨hseg, hmax⟩ := (estabur_iff (by omega) (by omega) (by omega)).1 h.accepted
  rw [estabur_iff (by omega) (by simp) (by omega)]
  simp only [BitVec.reduceToNat]
  refine ⟨?_, by omega⟩
  split at hseg
  · rename_i hsep
    rw [if_pos hsep]
    exact ⟨hseg.1, hseg.2.1, by omega⟩
  · rename_i hsep
    rw [if_neg hsep]
    omega

theorem sbreak_refused {cpu : Cpu} {s : Image} {nsiz : Word}
    (hacc : ¬estabur cpu s.tsize (dataClicks nsiz s) s.ssize s.sep = true) (away : Away) :
    sbreak cpu nsiz away s = .ok { s with enomem := true } := by
  have hnew : s.dsize + (dataClicks nsiz s - s.dsize) = dataClicks nsiz s := by bv_omega
  unfold sbreak
  dsimp only
  rw [hnew, if_pos hacc]

/-- Without data only the text covers anything. -/
theorem covers_empty_iff (nsiz : Word) {s : Image} (h : s.dsize = 0) :
    s.covers nsiz ↔ nsiz.toNat ≤ s.dataBase := by
  unfold Image.covers
  rw [h]
  constructor
  · intro hcov
    by_contra hlt
    have := hcov s.dataBase (by omega) (Nat.le_refl _)
    simp at this
  · intro hle a ha hbase
    omega

theorem break_covers_iff (cpu : Cpu) (nsiz : Word) (away : Away) (s : Image) (h : Valid cpu s)
    (herr : s.enomem = false) : BreakCovers cpu nsiz away s ↔ BreakRounds nsiz s := by
  obtain ⟨hparts, _, htext⟩ := h.bounds
  by_cases hwrap : 65472 < nsiz.toNat
  · -- the data is cut to nothing
    have hzero := dataClicks_wraps htext hwrap
    obtain ⟨s', hs', hdata⟩ := break_shrink h nsiz (by rw [hzero]; simp)
      (by rw [hzero]; exact h.accepts_empty) away
    rw [hzero] at hdata
    have hcov := covers_empty_iff nsiz hdata.dsize
    rw [hdata.dataBase] at hcov
    unfold BreakCovers
    rw [hs']
    dsimp only
    rw [hdata.enomem, herr, hcov]
    unfold BreakRounds Image.dataBase
    cases s.sep with
    | true =>
      simp only [if_true]
      simp
      omega
    | false =>
      simp only [Bool.false_eq_true, if_false]
      simp
      omega
  · refine iff_of_true ?_ (.inl (by omega))
    by_cases hacc : estabur cpu s.tsize (dataClicks nsiz s) s.ssize s.sep = true
    · have hkeeps := sbreak_keeps h hacc away
      unfold BreakKeeps at hkeeps
      unfold BreakCovers
      cases hrun : sbreak cpu nsiz away s with
      | error e => trivial
      | ok s' =>
        rw [hrun] at hkeeps
        right
        intro a ha _
        rw [hkeeps.dataBase, hkeeps.dsize]
        exact ha.trans_le (dataClicks_covers htext (by omega))
    · unfold BreakCovers
      rw [sbreak_refused hacc away]
      exact .inl ⟨rfl, rfl, rfl, rfl⟩

theorem break_covers_iff_small :
    BreakCovers smallCpu 640 ⟨smallImage.core, [⟨0, 0⟩], [⟨0, 0⟩], smallImage.disk⟩ smallImage ↔
      BreakRounds 640 smallImage :=
  break_covers_iff smallCpu 640 _ smallImage smallImage_valid rfl

/-- `break(0177777)` frees the data. -/
theorem break_cuts :
    ¬BreakCovers smallCpu 65535 ⟨smallImage.core, [⟨0, 0⟩], [⟨0, 0⟩], smallImage.disk⟩
      smallImage := by
  intro hcov
  obtain ⟨s', hs', hdata⟩ := break_shrink smallImage_valid 65535 (by decide) (by decide)
    ⟨smallImage.core, [⟨0, 0⟩], [⟨0, 0⟩], smallImage.disk⟩
  have hzero : dataClicks 65535 smallImage = 0 := by decide
  rw [hzero] at hdata
  unfold BreakCovers at hcov
  rw [hs'] at hcov
  rcases hcov with ⟨herr, _⟩ | hcov
  · rw [hdata.enomem] at herr
    cases herr
  · rw [covers_empty_iff 65535 hdata.dsize, hdata.dataBase] at hcov
    revert hcov
    decide

end Core

end Venix.Kernel
