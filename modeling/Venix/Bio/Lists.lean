/-
  The two kinds of lists of the buffer cache.

  `FreeOk` says that the free list is a ring of exactly the buffers that are not busy, and
  `DevOk` that every buffer is on the ring of the header of its device, with those of no device
  on the ring of `bfreelist`. What the routines do to the links keeps them, and the walks along
  the lists come to an end.
-/
import Venix.Bio.Buf

set_option linter.unusedSectionVars false

namespace Venix.Bio

open Venix.Lib

variable {B T Dev P D : Type} [DecidableEq B] [DecidableEq T]

/-- The free list holds every buffer that is not busy, once. -/
def FreeOk (avForw avBack : Node B T → Node B T) (busy : B → Bool) : Prop :=
  ∃ l : List B, LinkRing avForw avBack .bfreelist (l.map Node.buf) ∧ ∀ b, b ∈ l ↔ busy b = false

/-- The header a buffer of `dev` is listed under. -/
def headOf (sw : Bdevsw T Dev) : Option Dev → Node B T
  | none => .bfreelist
  | some d => .tab (sw.tab d)

/-- Every header has a ring of the buffers `Q` gives it. -/
def Listed (forw back : Node B T → Node B T) (Q : B → Node B T → Prop) : Prop :=
  ∀ h : Node B T, (∀ b, h ≠ .buf b) →
    ∃ l : List B, LinkRing forw back h (l.map Node.buf) ∧ ∀ b, b ∈ l ↔ Q b h

/-- Every header has a ring of its buffers. -/
def DevOk (sw : Bdevsw T Dev) (forw back : Node B T → Node B T) (dev : B → Option Dev) : Prop :=
  Listed forw back fun b h => headOf sw (dev b) = h

theorem buf_mem_map {l : List B} {b : B} : (Node.buf b : Node B T) ∈ l.map Node.buf ↔ b ∈ l := by
  simp

/-! ## The free list -/

section Free

variable {avForw avBack : Node B T → Node B T} {busy : B → Bool} {b : B}

theorem FreeOk.notavail (h : FreeOk avForw avBack busy) (hb : busy b = false) :
    FreeOk (unlinkNext avForw avBack (.buf b)) (unlinkPrev avForw avBack (.buf b))
      (Function.update busy b true) := by
  obtain ⟨l, hring, hmem⟩ := h
  obtain ⟨l₁, l₂, rfl⟩ := List.append_of_mem ((hmem b).mpr hb)
  have hnd : (l₁ ++ b :: l₂).Nodup := (List.nodup_cons.mp hring.nodup).2.of_map
  rw [List.map_append, List.map_cons] at hring
  refine ⟨l₁ ++ l₂, ?_, fun b' => ?_⟩
  · rw [List.map_append]
    exact hring.remove
  · by_cases hbb : b' = b
    · subst hbb
      have hnot := (List.nodup_middle.mp hnd)
      simp only [List.nodup_cons] at hnot
      simp [Function.update_self, hnot.1]
    · rw [Function.update_of_ne hbb, ← hmem b']
      simp [hbb]

theorem FreeOk.notMem (l : List B) (hmem : ∀ b, b ∈ l ↔ busy b = false) (hb : busy b = true) :
    (Node.buf b : Node B T) ∉ .bfreelist :: l.map Node.buf := by
  intro h
  rcases List.mem_cons.mp h with h | h
  · cases h
  · rw [buf_mem_map, hmem, hb] at h
    cases h

theorem mem_update_false {l l' : List B} (hmem : ∀ b, b ∈ l ↔ busy b = false)
    (hl : ∀ b', b' ∈ l' ↔ b' = b ∨ b' ∈ l) (b' : B) :
    b' ∈ l' ↔ Function.update busy b false b' = false := by
  rw [hl]
  by_cases hbb : b' = b
  · simp [hbb]
  · rw [Function.update_of_ne hbb, ← hmem]
    simp [hbb]

theorem FreeOk.putFirst (h : FreeOk avForw avBack busy) (hb : busy b = true) :
    FreeOk (Function.update (Function.update avForw (.buf b) (avForw .bfreelist)) .bfreelist (.buf b))
      (Function.update (Function.update avBack (avForw .bfreelist) (.buf b)) (.buf b) .bfreelist)
      (Function.update busy b false) := by
  obtain ⟨l, hring, hmem⟩ := h
  refine ⟨b :: l, hring.insertHead (FreeOk.notMem l hmem hb), mem_update_false hmem ?_⟩
  simp

theorem FreeOk.putLast (h : FreeOk avForw avBack busy) (hb : busy b = true) :
    FreeOk (Function.update (Function.update avForw (avBack .bfreelist) (.buf b)) (.buf b) .bfreelist)
      (Function.update (Function.update avBack (.buf b) (avBack .bfreelist)) .bfreelist (.buf b))
      (Function.update busy b false) := by
  obtain ⟨l, hring, hmem⟩ := h
  have hnot := FreeOk.notMem (T := T) l hmem hb
  have hins := hring.insertTail hnot
  have hne : (Node.buf b : Node B T) ≠ avBack .bfreelist := fun e =>
    hnot (e ▸ hring.path.prev_mem)
  refine ⟨l ++ [b], ?_, mem_update_false hmem (by simp [or_comm])⟩
  rw [List.map_append, Function.update_comm hne.symm,
    Function.update_comm (show (Node.buf b : Node B T) ≠ .bfreelist by simp)]
  exact hins

/-- The links of a busy buffer are the driver's. -/
theorem FreeOk.scribble (h : FreeOk avForw avBack busy) (hb : busy b = true) (x y : Node B T) :
    FreeOk (Function.update avForw (.buf b) x) (Function.update avBack (.buf b) y) busy := by
  obtain ⟨l, hring, hmem⟩ := h
  have hnot := FreeOk.notMem (T := T) l hmem hb
  have hne : ∀ n ∈ (Node.bfreelist : Node B T) :: l.map Node.buf, n ≠ .buf b := by
    rintro n hn rfl
    exact hnot hn
  refine ⟨l, hring.congr (fun n hn => ?_) (fun n hn => ?_), hmem⟩
  · exact Function.update_of_ne (hne n hn) _ _
  · exact Function.update_of_ne (hne n hn) _ _

/-- The first entry of the free list. -/
theorem FreeOk.first (h : FreeOk avForw avBack busy) :
    avForw .bfreelist = .bfreelist ∨ ∃ b, avForw .bfreelist = .buf b ∧ busy b = false := by
  obtain ⟨l, hring, hmem⟩ := h
  cases l with
  | nil => exact Or.inl hring.path.1
  | cons b l => exact Or.inr ⟨b, hring.path.1, (hmem b).mp (by simp)⟩

end Free

/-! ## The lists of the devices -/

section Device

variable {sw : Bdevsw T Dev} {forw back : Node B T → Node B T} {dev : B → Option Dev}

theorem headOf_ne_buf (d : Option Dev) (b : B) : (headOf sw d : Node B T) ≠ .buf b := by
  cases d <;> simp [headOf]

/-- A buffer leaves its list: it is under no header then. -/
theorem DevOk.unlink (h : DevOk sw forw back dev) (b : B) :
    Listed (unlinkNext forw back (.buf b)) (unlinkPrev forw back (.buf b))
      fun b' hd => b' ≠ b ∧ headOf sw (dev b') = hd := by
  intro hd hh
  obtain ⟨l, hring, hmem⟩ := h hd hh
  dsimp only at hmem ⊢
  by_cases hb : headOf sw (dev b) = hd
  · obtain ⟨l₁, l₂, rfl⟩ := List.append_of_mem ((hmem b).mpr hb)
    have hnd : (l₁ ++ b :: l₂).Nodup := (List.nodup_cons.mp hring.nodup).2.of_map
    rw [List.map_append, List.map_cons] at hring
    refine ⟨l₁ ++ l₂, ?_, fun b' => ?_⟩
    · rw [List.map_append]
      exact hring.remove
    · rw [← hmem b']
      by_cases hbb : b' = b
      · subst hbb
        have hnot := List.nodup_middle.mp hnd
        simp only [List.nodup_cons] at hnot
        simp [hnot.1]
      · simp [hbb]
  · -- the links change at the neighbours of `b`, which are on another list
    obtain ⟨lb, hringb, hmemb⟩ := h (headOf sw (dev b)) (headOf_ne_buf _)
    dsimp only at hmemb
    obtain ⟨l₁, l₂, rfl⟩ := List.append_of_mem ((hmemb b).mpr rfl)
    rw [List.map_append, List.map_cons] at hringb
    obtain ⟨hp1, hp2⟩ := path_append.mp hringb.path
    have hdis : ∀ n ∈ hd :: l.map Node.buf, n ∉ headOf sw (dev b) :: (l₁ ++ b :: l₂).map Node.buf := by
      intro n hn hn'
      rcases List.mem_cons.mp hn with rfl | hn
      · rcases List.mem_cons.mp hn' with e | hn'
        · exact hb e.symm
        · obtain ⟨c, _, hc⟩ := List.mem_map.mp hn'
          exact hh c hc.symm
      · obtain ⟨c, hc, rfl⟩ := List.mem_map.mp hn
        rcases List.mem_cons.mp hn' with e | hn'
        · exact headOf_ne_buf _ c e.symm
        · have hc' := (hmemb c).mp (buf_mem_map.mp hn')
          rw [(hmem c).mp hc] at hc'
          exact hb hc'.symm
    have hprev : back (.buf b) ∈ headOf sw (dev b) :: (l₁ ++ b :: l₂).map Node.buf := by
      have := hp1.prev_mem
      simp only [List.map_append, List.mem_cons, List.mem_append] at this ⊢
      tauto
    have hnext : forw (.buf b) ∈ headOf sw (dev b) :: (l₁ ++ b :: l₂).map Node.buf := by
      have := hp2.next_mem
      simp only [List.map_append, List.map_cons, List.mem_cons, List.mem_append,
        List.not_mem_nil, or_false] at this ⊢
      tauto
    refine ⟨l, hring.congr (fun n hn => ?_) (fun n hn => ?_), fun b' => ?_⟩
    · exact Function.update_of_ne (fun e => hdis n hn (by rw [e]; exact hprev)) _ _
    · exact Function.update_of_ne (fun e => hdis n hn (by rw [e]; exact hnext)) _ _
    · rw [hmem b']
      refine ⟨fun e => ⟨?_, e⟩, fun e => e.2⟩
      rintro rfl
      exact hb e

/-- A buffer under no header is put first on the list of `dp`. -/
theorem Listed.link {Q : B → Node B T → Prop} (h : Listed forw back Q) (b : B) {dp : Node B T}
    (hdp : ∀ b, dp ≠ .buf b) (hb : ∀ hd, ¬Q b hd)
    (hQ : ∀ b' hd hd', Q b' hd → Q b' hd' → hd = hd') :
    Listed (Function.update (Function.update forw (.buf b) (forw dp)) dp (.buf b))
      (Function.update (Function.update back (.buf b) dp) (forw dp) (.buf b))
      fun b' hd => (b' = b ∧ hd = dp) ∨ Q b' hd := by
  obtain ⟨ld, hringd, hmemd⟩ := h dp hdp
  have hnotd : (Node.buf b : Node B T) ∉ dp :: ld.map Node.buf := by
    intro hmem
    rcases List.mem_cons.mp hmem with e | hmem
    · exact hdp b e.symm
    · exact hb dp ((hmemd b).mp (buf_mem_map.mp hmem))
  have hfirst : forw dp ∈ dp :: ld.map Node.buf := by
    have := hringd.path.next_mem
    simp only [List.mem_append, List.mem_cons, List.not_mem_nil, or_false] at this ⊢
    exact this.symm
  intro hd hh
  by_cases he : hd = dp
  · subst he
    have hne : (Node.buf b : Node B T) ≠ forw hd := fun e => hnotd (e ▸ hfirst)
    refine ⟨b :: ld, ?_, fun b' => ?_⟩
    · rw [List.map_cons, Function.update_comm hne]
      exact hringd.insertHead hnotd
    · rw [List.mem_cons, hmemd]
      simp
  · obtain ⟨l, hring, hmem⟩ := h hd hh
    have hoff : ∀ n ∈ hd :: l.map Node.buf, n ≠ .buf b ∧ n ∉ dp :: ld.map Node.buf := by
      intro n hn
      rcases List.mem_cons.mp hn with rfl | hn
      · refine ⟨hh b, fun hn' => ?_⟩
        rcases List.mem_cons.mp hn' with e | hn'
        · exact he e
        · obtain ⟨c, _, hc⟩ := List.mem_map.mp hn'
          exact hh c hc.symm
      · obtain ⟨c, hc, rfl⟩ := List.mem_map.mp hn
        have hcQ := (hmem c).mp hc
        refine ⟨?_, fun hn' => ?_⟩
        · rintro ⟨⟩
          exact hb hd hcQ
        · rcases List.mem_cons.mp hn' with e | hn'
          · exact hdp c e.symm
          · exact he (hQ c _ _ hcQ ((hmemd c).mp (buf_mem_map.mp hn')))
    refine ⟨l, hring.congr (fun n hn => ?_) (fun n hn => ?_), fun b' => ?_⟩
    · have hnd : n ≠ dp := fun e => (hoff n hn).2 (by rw [e]; exact List.mem_cons_self)
      rw [Function.update_of_ne hnd, Function.update_of_ne (hoff n hn).1]
    · have hnf : n ≠ forw dp := fun e => (hoff n hn).2 (by rw [e]; exact hfirst)
      rw [Function.update_of_ne hnf, Function.update_of_ne (hoff n hn).1]
    · rw [hmem]
      simp [he]

/-- A buffer is given to another device. -/
theorem DevOk.move [DecidableEq Dev] (h : DevOk sw forw back dev) (b : B) (d : Dev)
    {forw' back' : Node B T → Node B T} (hf : forw' = unlinkNext forw back (.buf b))
    (hk : back' = unlinkPrev forw back (.buf b)) :
    DevOk sw (Function.update (Function.update forw' (.buf b) (forw' (.tab (sw.tab d))))
        (.tab (sw.tab d)) (.buf b))
      (Function.update (Function.update back' (.buf b) (.tab (sw.tab d)))
        (forw' (.tab (sw.tab d))) (.buf b))
      (Function.update dev b (some d)) := by
  subst hf hk
  have hl := (h.unlink b).link b (show ∀ b, (Node.tab (sw.tab d) : Node B T) ≠ .buf b by simp) (by simp)
    fun b' hd hd' e e' => e.2.symm.trans e'.2
  intro hd hh
  obtain ⟨l, hring, hmem⟩ := hl hd hh
  refine ⟨l, hring, fun b' => ?_⟩
  rw [hmem]
  dsimp only
  by_cases hbb : b' = b
  · subst hbb
    rw [Function.update_self]
    simp [headOf, eq_comm]
  · rw [Function.update_of_ne hbb]
    simp [hbb]

end Device

/-! ## The walks -/

section Walk

variable [DecidableEq Dev] {s : Cache B T Dev P D}

theorem search_path {t : T} (dev : Dev) (blkno : Nat) {l : List B} {n : Node B T} {fuel : Nat}
    {prev : Node B T → Node B T} (hp : Path s.forw prev n (l.map Node.buf) (.tab t))
    (hfuel : l.length < fuel) :
    ∃ r, s.search t dev blkno fuel (s.forw n) = some r ∧
      match r with
      | some b => b ∈ l ∧ s.blkno b = blkno ∧ s.dev b = some dev
      | none => ∀ b ∈ l, ¬(s.blkno b = blkno ∧ s.dev b = some dev) := by
  induction l generalizing n fuel with
  | nil =>
    obtain ⟨fuel, rfl⟩ : ∃ k, fuel = k + 1 := ⟨fuel - 1, by simp at hfuel; omega⟩
    refine ⟨none, ?_, by simp⟩
    rw [hp.1]
    simp [Cache.search]
  | cons b l ih =>
    obtain ⟨fuel, rfl⟩ : ∃ k, fuel = k + 1 := ⟨fuel - 1, by simp at hfuel; omega⟩
    obtain ⟨h1, -, h3⟩ := hp
    rw [h1, Cache.search]
    by_cases hb : s.blkno b = blkno ∧ s.dev b = some dev
    · exact ⟨some b, by rw [if_pos hb], by simp, hb⟩
    · obtain ⟨r, hr, hspec⟩ := ih h3 (by simpa using hfuel)
      refine ⟨r, by rw [if_neg hb, hr], ?_⟩
      cases r with
      | none =>
        intro c hc
        rcases List.mem_cons.mp hc with rfl | hc
        · exact hb
        · exact hspec c hc
      | some c => exact ⟨List.mem_cons_of_mem _ hspec.1, hspec.2⟩

theorem searchDelwri_path (dev : Option Dev) {l : List B} {n : Node B T} {fuel : Nat}
    {prev : Node B T → Node B T} (hp : Path s.avForw prev n (l.map Node.buf) .bfreelist)
    (hfuel : l.length < fuel) :
    ∃ r, s.searchDelwri dev fuel (s.avForw n) = some r ∧
      ∀ b, r = some b → b ∈ l ∧ (s.flags b).delwri = true := by
  induction l generalizing n fuel with
  | nil =>
    obtain ⟨fuel, rfl⟩ : ∃ k, fuel = k + 1 := ⟨fuel - 1, by simp at hfuel; omega⟩
    refine ⟨none, ?_, by simp⟩
    rw [hp.1]
    simp [Cache.searchDelwri]
  | cons b l ih =>
    obtain ⟨fuel, rfl⟩ : ∃ k, fuel = k + 1 := ⟨fuel - 1, by simp at hfuel; omega⟩
    obtain ⟨h1, -, h3⟩ := hp
    rw [h1, Cache.searchDelwri]
    by_cases hb : (s.flags b).delwri = true ∧ (dev = none ∨ dev = s.dev b)
    · refine ⟨some b, by rw [if_pos hb], fun c hc => ?_⟩
      cases hc
      exact ⟨by simp, hb.1⟩
    · obtain ⟨r, hr, hspec⟩ := ih h3 (by simpa using hfuel)
      refine ⟨r, by rw [if_neg hb, hr], fun c hc => ?_⟩
      exact ⟨List.mem_cons_of_mem _ (hspec c hc).1, (hspec c hc).2⟩

variable [Fintype B]

theorem nodup_length_lt {l : List B} {h : Node B T} (hnd : (h :: l.map Node.buf).Nodup) :
    l.length < Fintype.card B + 1 := by
  have := (List.Nodup.of_map _ (List.nodup_cons.mp hnd).2).length_le_card
  omega

/-- The buffer of a block is found if there is one, and the walk ends. -/
theorem find_spec {sw : Bdevsw T Dev} (h : DevOk sw s.forw s.back s.dev) (dev : Dev)
    (blkno : Nat) :
    ∃ r, s.find sw dev blkno = some r ∧
      match r with
      | some b => s.blkno b = blkno ∧ s.dev b = some dev
      | none => ∀ b, ¬(s.blkno b = blkno ∧ s.dev b = some dev) := by
  obtain ⟨l, hring, hmem⟩ := h (.tab (sw.tab dev)) (by simp)
  obtain ⟨r, hr, hspec⟩ := search_path dev blkno hring.path
    (nodup_length_lt hring.nodup)
  refine ⟨r, hr, ?_⟩
  cases r with
  | some b => exact hspec.2
  | none =>
    intro b hb
    refine hspec b ((hmem b).mpr ?_) hb
    show headOf sw (s.dev b) = _
    rw [hb.2]
    rfl

theorem searchDelwri_spec (dev : Option Dev)
    (h : FreeOk s.avForw s.avBack fun b => (s.flags b).busy) :
    ∃ r, s.searchDelwri dev (Fintype.card B + 1) (s.avForw .bfreelist) = some r ∧
      ∀ b, r = some b → (s.flags b).busy = false ∧ (s.flags b).delwri = true := by
  obtain ⟨l, hring, hmem⟩ := h
  obtain ⟨r, hr, hspec⟩ := searchDelwri_path dev hring.path
    (nodup_length_lt hring.nodup)
  exact ⟨r, hr, fun b hb => ⟨(hmem b).mp (hspec b hb).1, (hspec b hb).2⟩⟩

end Walk

end Venix.Bio
