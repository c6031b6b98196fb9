/-
  `itrunc` and `tloop` (`iget.c`) on a disk whose operations may fail.

  `e n` says that the `n`-th operation of the disk fails: a read of an indirect block, after which
  `tloop` gives up the blocks under it, or the write of a block of the free list, which is not seen
  by `free`. Both set `u_error`. Without failures the functions are those of `Itrunc`
  (`itruncE_quiet`). `u_error` is set exactly if one of the operations fails that a truncation then
  takes (`itruncE_error_iff`).
-/
import Venix.Fs.Itrunc

namespace Venix.Fs

open Venix.Lib

/-- The volume, and the number of operations of the disk so far. -/
structure Cutting where
  v : Vol
  io : Nat

namespace Cutting

/-- `geterror` after operation `io`. -/
def ended (e : Nat → Bool) (s : Cutting) : Cutting :=
  { v := if e s.io then { s.v with uError := some .eio } else s.v
    io := s.io + 1 }

/-- Whether `free` writes the list of free blocks to the block. -/
def writesList (v : Vol) (bno : Daddr) : Bool :=
  InRange (getfs v).sb bno ∧ (getfs v).sb.sNfree ≥ nicfree

/-- `free`; a write that fails leaves the block as it was. -/
def free (e : Nat → Bool) (stale : Daddr → Block) (bno : Daddr) (s : Cutting) : Cutting :=
  let v := Fs.free s.v bno (stale bno)
  if writesList s.v bno then
    ended e { s with v := if e s.io then { v with disk := s.v.disk } else v }
  else { s with v := v }

/-- `bread` of block `bn`: the buffer, unless the read failed. -/
def bread (e : Nat → Bool) (bn : Daddr) (s : Cutting) : Option Block × Cutting :=
  (if e s.io then none else some (s.v.disk bn), s.ended e)

end Cutting

/-- The loop of `tloop`, and whether a read failed. -/
def tloopTurnsE (e : Nat → Bool) (stale : Daddr → Block) (deeper : Daddr → Cutting → Cutting)
    (f1 : Bool) (bn : Daddr) : Nat → Option Block → Cutting → Bool × Cutting
  | 0, _, s => (false, s)
  | i + 1, bp, s =>
    match (match bp with
      | some bap => (some bap, s)
      | none => s.bread e bn) with
    | (none, s) => (true, s)
    | (some bap, s) =>
      let nb := bap.getLong (4 * i)
      if nb = 0 then tloopTurnsE e stale deeper f1 bn i (some bap) s
      else if f1 then tloopTurnsE e stale deeper f1 bn i none (deeper nb s)
      else tloopTurnsE e stale deeper f1 bn i (some bap) (s.free e stale nb)

/-- `tloop` after its loop: the block itself is freed, unless a read of it failed. -/
def tloopEnd (e : Nat → Bool) (stale : Daddr → Block) (bn : Daddr) : Bool × Cutting → Cutting
  | (true, s) => s
  | (false, s) => s.free e stale bn

def tloopE (e : Nat → Bool) (stale : Daddr → Block) : Nat → Daddr → Bool → Bool → Cutting → Cutting
  | 0, _, _, _, s => s
  | k + 1, bn, f1, f2, s =>
    tloopEnd e stale bn
      (tloopTurnsE e stale (fun nb => tloopE e stale k nb f2 false) f1 bn nindir none s)

def itruncSlotE (e : Nat → Bool) (stale : Daddr → Block) (i : Nat) (bn : Daddr) (s : Cutting) :
    Cutting :=
  if i = naddr - 3 then tloopE e stale 3 bn false false s
  else if i = naddr - 2 then tloopE e stale 3 bn true false s
  else if i = naddr - 1 then tloopE e stale 3 bn true true s
  else s.free e stale bn

def itruncLoopE (e : Nat → Bool) (stale : Daddr → Block) : Nat → Cutting × Inode → Cutting × Inode
  | 0, r => r
  | i + 1, r =>
    let bn := r.2.iAddr.get i
    if bn = 0 then itruncLoopE e stale i r
    else
      let ip := { r.2 with iAddr := r.2.iAddr.put i 0 }
      itruncLoopE e stale i (itruncSlotE e stale i bn r.1, ip)

theorem itruncLoopE_succ (e : Nat → Bool) (stale : Daddr → Block) (i : Nat) (s : Cutting) (ip : Inode) :
    itruncLoopE e stale (i + 1) (s, ip) =
      if ip.iAddr.get i = 0 then itruncLoopE e stale i (s, ip)
      else itruncLoopE e stale i (itruncSlotE e stale i (ip.iAddr.get i) s,
        { ip with iAddr := ip.iAddr.put i 0 }) :=
  rfl

def itruncE (e : Nat → Bool) (stale : Daddr → Block) (s : Cutting) (ip : Inode) : Cutting × Inode :=
  if ip.iType ≠ .ifreg ∧ ip.iType ≠ .ifdir then (s, ip)
  else
    let r := itruncLoopE e stale naddr (s, ip)
    (r.1, { r.2 with iSize := 0, iFlag := r.2.iFlag ||| (ichg ||| iupd) })

/-- No operation fails. -/
def quiet : Nat → Bool := fun _ => false

/-! ## With failures and without -/

/-- From `s`, a run without failures comes to `q`, and one with the failures `e` to `r`: if none of
    the operations fails then `P`, and else `r` has an error. -/
structure Tracks (e : Nat → Bool) (s q r : Cutting) (P : Prop) : Prop where
  le : s.io ≤ q.io
  calm : q.v.uError = s.v.uError
  same : (∀ n, s.io ≤ n → n < q.io → e n = false) → P
  fails : ∀ n, s.io ≤ n → n < q.io → e n = true → r.v.uError ≠ none

/-- One run after the other. An error of the first is not cleared by the second. -/
theorem Tracks.comp {e : Nat → Bool} {s q₁ r₁ q₂ r₂ r₂' : Cutting} {P₁ P₂ P : Prop}
    (h₁ : Tracks e s q₁ r₁ P₁) (h₂ : Tracks e q₁ q₂ r₂' P₂)
    (hsame : P₁ → r₂ = r₂' ∧ (P₂ → P)) (hsticky : r₁.v.uError ≠ none → r₂.v.uError ≠ none) :
    Tracks e s q₂ r₂ P := by
  have hle₁ := h₁.le
  have hle₂ := h₂.le
  refine ⟨by omega, h₂.calm.trans h₁.calm, fun hok => ?_, fun n hlo hhi hn => ?_⟩
  · have heq := h₁.same fun n h1 h2 => hok n h1 (by omega)
    exact (hsame heq).2 (h₂.same fun n h1 h2 => hok n (by omega) h2)
  · by_cases hfirst : ∃ m, s.io ≤ m ∧ m < q₁.io ∧ e m = true
    · obtain ⟨m, h1, h2, hm⟩ := hfirst
      exact hsticky (h₁.fails m h1 h2 hm)
    · have heq : P₁ := by
        refine h₁.same fun m h1 h2 => ?_
        by_contra hm
        exact hfirst ⟨m, h1, h2, by simpa using hm⟩
      rw [(hsame heq).1]
      refine h₂.fails n ?_ hhi hn
      by_contra hlt
      exact hfirst ⟨n, hlo, by omega, hn⟩

/-- One operation. -/
theorem Tracks.op {e : Nat → Bool} {s q r : Cutting} {P : Prop} (hio : q.io = s.io + 1)
    (hcalm : q.v.uError = s.v.uError) (hsame : e s.io = false → P)
    (hfails : e s.io = true → r.v.uError ≠ none) : Tracks e s q r P := by
  refine ⟨by omega, hcalm, fun hok => hsame (hok s.io (Nat.le_refl _) (by omega)),
    fun n hlo hhi hn => hfails ?_⟩
  rwa [show s.io = n by omega]

theorem free_uError (v : Vol) (bno : Daddr) (b : Block) : (Fs.free v bno b).uError = v.uError := by
  have hgetfs : (getfs v).uError = v.uError := by
    unfold getfs
    split
    · rfl
    · rfl
  rw [← hgetfs]
  unfold Fs.free badblock
  dsimp only
  split
  · next heq =>
    split at heq
    · cases heq
      rfl
    · cases heq
  · next heq =>
    split at heq
    · cases heq
    · cases heq
      split
      · split <;> rfl
      · split <;> rfl

namespace Cutting

variable {e : Nat → Bool} {stale : Daddr → Block}

theorem ended_sticky {s : Cutting} (h : s.v.uError ≠ none) : (s.ended e).v.uError ≠ none := by
  unfold ended
  dsimp only
  split
  · simp
  · exact h

theorem free_sticky (bno : Daddr) {s : Cutting} (h : s.v.uError ≠ none) :
    (s.free e stale bno).v.uError ≠ none := by
  unfold free
  dsimp only
  split
  · apply ended_sticky
    dsimp only
    split
    · exact (free_uError s.v bno (stale bno)).symm ▸ h
    · exact (free_uError s.v bno (stale bno)).symm ▸ h
  · exact (free_uError s.v bno (stale bno)).symm ▸ h

theorem free_tracks (bno : Daddr) (s : Cutting) :
    Tracks e s (s.free quiet stale bno) (s.free e stale bno)
      (s.free e stale bno = s.free quiet stale bno) := by
  have hcalm := free_uError s.v bno (stale bno)
  unfold free quiet ended
  dsimp only
  split
  · refine Tracks.op rfl hcalm (fun hok => ?_) fun hfail => ?_
    · rw [hok]
    · rw [if_pos hfail]
      simp
  · exact ⟨Nat.le_refl _, hcalm, fun _ => rfl, fun n hlo hhi => absurd hlo (Nat.not_le.2 hhi)⟩

end Cutting

section Turns

variable {e : Nat → Bool} {stale : Daddr → Block} {deeper deeperQ : Daddr → Cutting → Cutting}
  {f1 : Bool} {bn : Daddr}

/-- A turn with the block in a buffer. -/
theorem tloopTurnsE_some (i : Nat) (bap : Block) (s : Cutting) :
    tloopTurnsE e stale deeper f1 bn (i + 1) (some bap) s =
      if bap.getLong (4 * i) = 0 then tloopTurnsE e stale deeper f1 bn i (some bap) s
      else if f1 then tloopTurnsE e stale deeper f1 bn i none (deeper (bap.getLong (4 * i)) s)
      else tloopTurnsE e stale deeper f1 bn i (some bap) (s.free e stale (bap.getLong (4 * i))) := rfl

/-- A turn that has to read the block. -/
theorem tloopTurnsE_none (i : Nat) (s : Cutting) :
    tloopTurnsE e stale deeper f1 bn (i + 1) none s =
      if e s.io then (true, s.ended e)
      else tloopTurnsE e stale deeper f1 bn (i + 1) (some (s.v.disk bn)) (s.ended e) := by
  by_cases h : e s.io = true
  · rw [if_pos h, tloopTurnsE]
    unfold Cutting.bread
    rw [if_pos h]
  · rw [if_neg h, tloopTurnsE, tloopTurnsE]
    unfold Cutting.bread
    rw [if_neg h]

theorem tloopTurnsE_sticky
    (hdeeper : ∀ nb s, s.v.uError ≠ none → (deeper nb s).v.uError ≠ none) (i : Nat)
    (bp : Option Block) {s : Cutting} (h : s.v.uError ≠ none) :
    (tloopTurnsE e stale deeper f1 bn i bp s).2.v.uError ≠ none := by
  induction i generalizing bp s with
  | zero => exact h
  | succ i ih =>
    have hsome : ∀ bap {s : Cutting}, s.v.uError ≠ none →
        (tloopTurnsE e stale deeper f1 bn (i + 1) (some bap) s).2.v.uError ≠ none := by
      intro bap s h
      rw [tloopTurnsE_some]
      split
      · exact ih _ h
      · split
        · exact ih _ (hdeeper _ s h)
        · exact ih _ (Cutting.free_sticky _ h)
    cases bp with
    | some bap => exact hsome bap h
    | none =>
      rw [tloopTurnsE_none]
      split
      · exact Cutting.ended_sticky h
      · exact hsome _ (Cutting.ended_sticky h)

/-- Without failures the loop goes through all slots. -/
theorem tloopTurnsE_quiet (i : Nat) (bp : Option Block) (s : Cutting) :
    (tloopTurnsE quiet stale deeper f1 bn i bp s).1 = false := by
  induction i generalizing bp s with
  | zero => rfl
  | succ i ih =>
    have hsome : ∀ bap s, (tloopTurnsE quiet stale deeper f1 bn (i + 1) (some bap) s).1 = false := by
      intro bap s
      rw [tloopTurnsE_some]
      split
      · exact ih _ s
      · split
        · exact ih _ _
        · exact ih _ _
    cases bp with
    | some bap => exact hsome bap s
    | none =>
      rw [tloopTurnsE_none]
      exact hsome _ _

theorem tloopTurnsE_tracks
    (hsticky : ∀ nb s, s.v.uError ≠ none → (deeper nb s).v.uError ≠ none)
    (hdeeper : ∀ nb s, Tracks e s (deeperQ nb s) (deeper nb s) (deeper nb s = deeperQ nb s))
    (i : Nat) (bp : Option Block) (s : Cutting) :
    Tracks e s (tloopTurnsE quiet stale deeperQ f1 bn i bp s).2
      (tloopTurnsE e stale deeper f1 bn i bp s).2
      (tloopTurnsE e stale deeper f1 bn i bp s = tloopTurnsE quiet stale deeperQ f1 bn i bp s) := by
  induction i generalizing bp s with
  | zero => exact ⟨Nat.le_refl _, rfl, fun _ => rfl, fun n hlo hhi => absurd hlo (Nat.not_le.2 hhi)⟩
  | succ i ih =>
    have hrest : ∀ i bp {s : Cutting}, s.v.uError ≠ none →
        (tloopTurnsE e stale deeper f1 bn i bp s).2.v.uError ≠ none :=
      fun i bp => tloopTurnsE_sticky hsticky i bp
    have hsome : ∀ bap s, Tracks e s (tloopTurnsE quiet stale deeperQ f1 bn (i + 1) (some bap) s).2
        (tloopTurnsE e stale deeper f1 bn (i + 1) (some bap) s).2
        (tloopTurnsE e stale deeper f1 bn (i + 1) (some bap) s =
          tloopTurnsE quiet stale deeperQ f1 bn (i + 1) (some bap) s) := by
      intro bap s
      rw [tloopTurnsE_some, tloopTurnsE_some]
      split
      · exact ih _ s
      · split
        · exact (hdeeper _ s).comp (ih _ _) (fun heq => by rw [heq]; exact ⟨rfl, id⟩) (hrest i _)
        · exact (Cutting.free_tracks _ s).comp (ih _ _) (fun heq => by rw [heq]; exact ⟨rfl, id⟩)
            (hrest i _)
    cases bp with
    | some bap => exact hsome bap s
    | none =>
      have hread : Tracks e s (s.ended quiet) (s.ended e) (e s.io = false) := by
        refine Tracks.op rfl rfl id fun hfail => ?_
        unfold Cutting.ended
        rw [if_pos hfail]
        simp
      rw [tloopTurnsE_none, tloopTurnsE_none]
      refine hread.comp (hsome (s.v.disk bn) (s.ended quiet)) (fun hok => ?_) fun herr => ?_
      · have hended : s.ended e = s.ended quiet := by
          unfold Cutting.ended
          rw [hok]
          rfl
        rw [hok, hended]
        exact ⟨rfl, id⟩
      · split
        · exact herr
        · exact hrest (i + 1) _ herr

end Turns

section Levels

variable {e : Nat → Bool} {stale : Daddr → Block}

theorem tloopEnd_sticky (bn : Daddr) {r : Bool × Cutting} (h : r.2.v.uError ≠ none) :
    (tloopEnd e stale bn r).v.uError ≠ none := by
  obtain ⟨flag, r⟩ := r
  cases flag with
  | true => exact h
  | false => exact Cutting.free_sticky bn h

theorem tloopEnd_tracks (bn : Daddr) {s : Cutting} {q r : Bool × Cutting} (hflag : q.1 = false)
    (h : Tracks e s q.2 r.2 (r = q)) :
    Tracks e s (tloopEnd quiet stale bn q) (tloopEnd e stale bn r)
      (tloopEnd e stale bn r = tloopEnd quiet stale bn q) := by
  obtain ⟨flagQ, q⟩ := q
  obtain rfl : flagQ = false := hflag
  refine h.comp (Cutting.free_tracks bn q) (fun heq => ?_) (tloopEnd_sticky bn)
  rw [heq]
  exact ⟨rfl, id⟩

theorem tloopE_sticky (k : Nat) (bn : Daddr) (f1 f2 : Bool) {s : Cutting} (h : s.v.uError ≠ none) :
    (tloopE e stale k bn f1 f2 s).v.uError ≠ none := by
  induction k generalizing bn f1 f2 s with
  | zero => exact h
  | succ k ih =>
    rw [tloopE]
    exact tloopEnd_sticky bn (tloopTurnsE_sticky (fun nb s hs => ih nb f2 false hs) nindir none h)

theorem tloopE_tracks (k : Nat) (bn : Daddr) (f1 f2 : Bool) (s : Cutting) :
    Tracks e s (tloopE quiet stale k bn f1 f2 s) (tloopE e stale k bn f1 f2 s)
      (tloopE e stale k bn f1 f2 s = tloopE quiet stale k bn f1 f2 s) := by
  induction k generalizing bn f1 f2 s with
  | zero => exact ⟨Nat.le_refl _, rfl, fun _ => rfl, fun n hlo hhi => absurd hlo (Nat.not_le.2 hhi)⟩
  | succ k ih =>
    rw [tloopE, tloopE]
    exact tloopEnd_tracks bn (tloopTurnsE_quiet nindir none s)
      (tloopTurnsE_tracks (fun nb s hs => tloopE_sticky k nb f2 false hs)
        (fun nb s => ih nb f2 false s) nindir none s)

theorem itruncSlotE_sticky (i : Nat) (bn : Daddr) {s : Cutting} (h : s.v.uError ≠ none) :
    (itruncSlotE e stale i bn s).v.uError ≠ none := by
  unfold itruncSlotE
  split
  · exact tloopE_sticky _ _ _ _ h
  · split
    · exact tloopE_sticky _ _ _ _ h
    · split
      · exact tloopE_sticky _ _ _ _ h
      · exact Cutting.free_sticky _ h

theorem itruncSlotE_tracks (i : Nat) (bn : Daddr) (s : Cutting) :
    Tracks e s (itruncSlotE quiet stale i bn s) (itruncSlotE e stale i bn s)
      (itruncSlotE e stale i bn s = itruncSlotE quiet stale i bn s) := by
  unfold itruncSlotE
  split
  · exact tloopE_tracks _ _ _ _ s
  · split
    · exact tloopE_tracks _ _ _ _ s
    · split
      · exact tloopE_tracks _ _ _ _ s
      · exact Cutting.free_tracks _ s

theorem itruncLoopE_sticky (i : Nat) {s : Cutting} (ip : Inode) (h : s.v.uError ≠ none) :
    (itruncLoopE e stale i (s, ip)).1.v.uError ≠ none := by
  induction i generalizing s ip with
  | zero => exact h
  | succ i ih =>
    rw [itruncLoopE_succ]
    split
    · exact ih ip h
    · exact ih _ (itruncSlotE_sticky i _ h)

theorem itruncLoopE_tracks (e : Nat → Bool) (stale : Daddr → Block) (i : Nat) (s : Cutting) (ip : Inode) :
    Tracks e s (itruncLoopE quiet stale i (s, ip)).1 (itruncLoopE e stale i (s, ip)).1
      (itruncLoopE e stale i (s, ip) = itruncLoopE quiet stale i (s, ip)) := by
  induction i generalizing s ip with
  | zero => exact ⟨Nat.le_refl _, rfl, fun _ => rfl, fun n hlo hhi => absurd hlo (Nat.not_le.2 hhi)⟩
  | succ i ih =>
    rw [itruncLoopE_succ, itruncLoopE_succ]
    split
    · exact ih s ip
    · exact (itruncSlotE_tracks i _ s).comp (ih _ _)
        (fun heq => by rw [heq]; exact ⟨rfl, id⟩) (itruncLoopE_sticky i _)

/-- What becomes of the inode does not depend on the disk. -/
theorem itruncLoopE_cleared (e : Nat → Bool) (stale : Daddr → Block) (i : Nat) (hi : i ≤ naddr) (s : Cutting) (ip : Inode) :
    Cleared i ip (itruncLoopE e stale i (s, ip)).2 := by
  induction i generalizing s ip with
  | zero => exact ⟨fun k hk => absurd hk (Nat.not_lt_zero k), fun _ _ => rfl⟩
  | succ i ih =>
    rw [itruncLoopE_succ]
    split
    · next hnull =>
      have hclear := ih (by omega) s ip
      refine ⟨fun k hk => ?_, fun k hk => hclear.above k (by omega)⟩
      rcases Nat.lt_succ_iff_lt_or_eq.1 hk with hlt | rfl
      · exact hclear.below k hlt
      · rw [hclear.above k (le_refl k), hnull]
    · have hclear := ih (by omega) (itruncSlotE e stale i (ip.iAddr.get i) s)
        { ip with iAddr := ip.iAddr.put i 0 }
      refine ⟨fun k hk => ?_, fun k hk => ?_⟩
      · rcases Nat.lt_succ_iff_lt_or_eq.1 hk with hlt | rfl
        · exact hclear.below k hlt
        · rw [hclear.above k (le_refl k)]
          exact Arr.get_put_self _ _ _ (by omega)
      · rw [hclear.above k (by omega)]
        exact Arr.get_put_ne _ _ (by omega)

theorem itruncLoopE_type (i : Nat) (s : Cutting) (ip : Inode) :
    (itruncLoopE e stale i (s, ip)).2.iType = ip.iType := by
  induction i generalizing s ip with
  | zero => rfl
  | succ i ih =>
    rw [itruncLoopE_succ]
    split
    · exact ih s ip
    · exact ih _ _

/-- What is freed depends on the addresses alone. -/
theorem itruncLoopE_fst (i : Nat) (s : Cutting) {ip ip' : Inode} (h : ip'.iAddr = ip.iAddr) :
    (itruncLoopE e stale i (s, ip')).1 = (itruncLoopE e stale i (s, ip)).1 := by
  induction i generalizing s ip ip' with
  | zero => rfl
  | succ i ih =>
    rw [itruncLoopE_succ, itruncLoopE_succ, h]
    split
    · exact ih s h
    · exact ih _ rfl

/-- Of an inode without addresses nothing is freed. -/
theorem itruncLoopE_empty (i : Nat) (s : Cutting) {ip : Inode}
    (h : ∀ k < i, ip.iAddr.get k = 0) : itruncLoopE e stale i (s, ip) = (s, ip) := by
  induction i with
  | zero => rfl
  | succ i ih =>
    rw [itruncLoopE_succ, if_pos (h i (Nat.lt_succ_self i))]
    exact ih fun k hk => h k (by omega)

end Levels

/-! ## Without failures -/

section Quiet

variable {stale : Daddr → Block}

theorem free_quiet (bno : Daddr) {s : Cutting} {t : Freeing} (h : s.v = t.v) :
    (s.free quiet stale bno).v = (t.free stale bno).v := by
  unfold Cutting.free Freeing.free
  rw [h]
  dsimp only
  split
  · rfl
  · rfl

theorem tloopTurns_quiet {deeperQ : Daddr → Cutting → Cutting}
    {deeper : Daddr → Freeing → Freeing} (f1 : Bool) (bn : Daddr)
    (hdeeper : ∀ nb s t, s.v = t.v → (deeperQ nb s).v = (deeper nb t).v) (i : Nat)
    (bp : Option Block) {s : Cutting} {t : Freeing} (h : s.v = t.v) :
    (tloopTurnsE quiet stale deeperQ f1 bn i bp s).2.v =
      (tloopTurns stale deeper f1 bn i bp t).v := by
  induction i generalizing bp s t with
  | zero => exact h
  | succ i ih =>
    have hsome : ∀ bap {s : Cutting}, s.v = t.v →
        (tloopTurnsE quiet stale deeperQ f1 bn (i + 1) (some bap) s).2.v =
          (tloopTurns stale deeper f1 bn (i + 1) (some bap) t).v := by
      intro bap s h
      rw [tloopTurnsE_some, tloopTurns]
      dsimp only [Option.getD_some]
      split
      · exact ih _ h
      · split
        · exact ih _ (hdeeper _ s t h)
        · exact ih _ (free_quiet _ h)
    cases bp with
    | some bap => exact hsome bap h
    | none =>
      rw [tloopTurnsE_none, h]
      exact hsome (t.v.disk bn) h

theorem tloopEnd_quiet (bn : Daddr) {r : Bool × Cutting} {t : Freeing} (hflag : r.1 = false)
    (h : r.2.v = t.v) : (tloopEnd quiet stale bn r).v = (t.free stale bn).v := by
  obtain ⟨flag, r⟩ := r
  obtain rfl : flag = false := hflag
  exact free_quiet bn h

theorem tloop_quiet (k : Nat) (bn : Daddr) (f1 f2 : Bool) {s : Cutting} {t : Freeing}
    (h : s.v = t.v) : (tloopE quiet stale k bn f1 f2 s).v = (tloop stale k bn f1 f2 t).v := by
  induction k generalizing bn f1 f2 s t with
  | zero => exact h
  | succ k ih =>
    rw [tloopE, tloop]
    exact tloopEnd_quiet bn (tloopTurnsE_quiet nindir none s)
      (tloopTurns_quiet f1 bn (fun nb s t hst => ih nb f2 false hst) nindir none h)

theorem itruncSlot_quiet (i : Nat) (bn : Daddr) {s : Cutting} {t : Freeing} (h : s.v = t.v) :
    (itruncSlotE quiet stale i bn s).v = (itruncSlot stale i bn t).v := by
  unfold itruncSlotE itruncSlot
  split
  · exact tloop_quiet _ _ _ _ h
  · split
    · exact tloop_quiet _ _ _ _ h
    · split
      · exact tloop_quiet _ _ _ _ h
      · exact free_quiet _ h

theorem itruncLoop_quiet (stale : Daddr → Block) (i : Nat) (ip : Inode) {s : Cutting} {t : Freeing} (h : s.v = t.v) :
    (itruncLoopE quiet stale i (s, ip)).1.v = (itruncLoop stale i (t, ip)).1.v ∧
      (itruncLoopE quiet stale i (s, ip)).2 = (itruncLoop stale i (t, ip)).2 := by
  induction i generalizing ip s t with
  | zero => exact ⟨h, rfl⟩
  | succ i ih =>
    rw [itruncLoopE_succ, itruncLoop]
    dsimp only
    split
    · exact ih ip h
    · exact ih _ (itruncSlot_quiet i _ h)

theorem itruncE_quiet (ip : Inode) {s : Cutting} {t : Freeing} (h : s.v = t.v) :
    (itruncE quiet stale s ip).1.v = (itrunc stale t ip).1.v ∧
      (itruncE quiet stale s ip).2 = (itrunc stale t ip).2 := by
  obtain ⟨hv, hip⟩ := itruncLoop_quiet stale naddr ip h
  unfold itruncE itrunc
  split
  · exact ⟨h, rfl⟩
  · dsimp only
    rw [hip]
    exact ⟨hv, rfl⟩

end Quiet

/-! ## `itrunc` -/

section Itrunc

variable {e : Nat → Bool} {stale : Daddr → Block}

theorem itruncE_type (s : Cutting) (ip : Inode) :
    (itruncE e stale s ip).2.iType = ip.iType := by
  unfold itruncE
  split
  · rfl
  · exact itruncLoopE_type naddr s ip

theorem itruncE_fst (s : Cutting) {ip ip' : Inode} (htype : ip'.iType = ip.iType)
    (haddr : ip'.iAddr = ip.iAddr) :
    (itruncE e stale s ip').1 = (itruncE e stale s ip).1 := by
  unfold itruncE
  rw [htype]
  split
  · rfl
  · exact itruncLoopE_fst naddr s haddr

/-- `itrunc` of a file that has no blocks. -/
theorem itruncE_empty (e : Nat → Bool) (stale : Daddr → Block) (s : Cutting) {ip : Inode}
    (h : ∀ k < naddr, ip.iAddr.get k = 0) : (itruncE e stale s ip).1 = s := by
  unfold itruncE
  split
  · rfl
  · rw [itruncLoopE_empty naddr s h]

/-- Whatever fails, the inode of a file is left without size and addresses. -/
theorem itruncE_cleared (e : Nat → Bool) (stale : Daddr → Block) (s : Cutting) {ip : Inode}
    (htype : ip.iType = .ifreg) :
    (itruncE e stale s ip).2.iSize = 0 ∧
      ∀ k < naddr, (itruncE e stale s ip).2.iAddr.get k = 0 := by
  have hclear := itruncLoopE_cleared e stale naddr (le_refl naddr) s ip
  unfold itruncE
  rw [if_neg fun h => h.1 htype]
  exact ⟨rfl, hclear.below⟩

theorem itruncE_tracks (e : Nat → Bool) (stale : Daddr → Block) (s : Cutting) (ip : Inode) :
    Tracks e s (itruncE quiet stale s ip).1 (itruncE e stale s ip).1
      (itruncE e stale s ip = itruncE quiet stale s ip) := by
  have hloop := itruncLoopE_tracks e stale naddr s ip
  unfold itruncE
  split
  · exact ⟨Nat.le_refl _, rfl, fun _ => rfl, fun n hlo hhi => absurd hlo (Nat.not_le.2 hhi)⟩
  · refine ⟨hloop.le, hloop.calm, fun hok => ?_, hloop.fails⟩
    rw [hloop.same hok]

/-- None of the operations fails that the truncation takes. -/
def NoFault (e : Nat → Bool) (stale : Daddr → Block) (s : Cutting) (ip : Inode) : Prop :=
  ∀ n, s.io ≤ n → n < (itruncE quiet stale s ip).1.io → e n = false

/-- `itrunc` sets `u_error` exactly if one of its operations fails. -/
theorem itruncE_error_iff {s : Cutting} (hs : s.v.uError = none) (ip : Inode) :
    (itruncE e stale s ip).1.v.uError = none ↔ NoFault e stale s ip := by
  have htracks := itruncE_tracks e stale s ip
  constructor
  · intro hok n hlo hhi
    by_contra hn
    exact htracks.fails n hlo hhi (by simpa using hn) hok
  · intro hok
    rw [htracks.same hok, htracks.calm, hs]

end Itrunc

end Venix.Fs
