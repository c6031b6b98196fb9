/-
  Process ids over whole runs.

  The loop of `newproc` ends because 300 ids in the table cannot take all of 29999 numbers; the id
  that it ends with is in no slot. `fork` looks for the first free slot on its own, and it is the
  slot that `newproc` takes.
-/
import Venix.Kernel.Fork

namespace Venix.Kernel

open Venix.Lib

namespace Pids

variable {s s' : Pids}

/-! ## The search of `newproc` -/

/-- No slot has the id, be it a dead one. -/
def Fresh (s : Pids) (k : Int) : Prop := ∀ j, (s.proc j).pid ≠ k ∧ (s.proc j).pgrp ≠ k

def firstFree (s : Pids) (l : List (Fin nproc)) : Option (Fin nproc) :=
  l.find? fun j => (s.proc j).stat = .free

theorem scanProcs_taken {k : Int} {l : List (Fin nproc)} {p : Option (Fin nproc)} :
    (s.scanProcs k l p).1 = true ↔ ∃ j ∈ l, (s.proc j).pid = k ∨ (s.proc j).pgrp = k := by
  induction l generalizing p with
  | nil => simp [scanProcs]
  | cons j l ih =>
    unfold scanProcs
    dsimp only
    split
    · rename_i h
      simp [h]
    · rename_i h
      rw [ih]
      simp [h]

/-- A slot that was found stays, and if the loop runs to its end it finds the first one. -/
theorem scanProcs_slot (k : Int) (l : List (Fin nproc)) (p : Option (Fin nproc)) :
    (∀ x, p = some x → (s.scanProcs k l p).2 = some x) ∧
      (p = none → (s.scanProcs k l p).2 = none ∨ (s.scanProcs k l p).2 = s.firstFree l) ∧
      (p = none → (s.scanProcs k l p).1 = false → (s.scanProcs k l p).2 = s.firstFree l) := by
  induction l generalizing p with
  | nil => simp [scanProcs, firstFree]
  | cons j l ih =>
    unfold scanProcs firstFree
    dsimp only
    by_cases hf : (s.proc j).stat = .free
    · rw [List.find?_cons_of_pos (by simpa using hf)]
      cases p with
      | some x =>
        simp only [reduceCtorEq, and_false, if_false, false_implies, and_true]
        split
        · exact fun _ h => h
        · exact (ih (some x)).1
      | none =>
        simp only [hf, and_self, if_true, reduceCtorEq, false_implies, implies_true, true_and,
          forall_const]
        split
        · exact ⟨Or.inr rfl, fun _ => rfl⟩
        · have := (ih (some j)).1 j rfl
          exact ⟨Or.inr this, fun _ => this⟩
    · rw [List.find?_cons_of_neg (by simpa using hf)]
      simp only [hf, false_and, if_false]
      split
      · refine ⟨fun _ h => h, fun h => Or.inl h, fun _ h => ?_⟩
        cases h
      · exact ih p

theorem retry_spec {fuel : Nat} {k m : Int} {p q : Option (Fin nproc)} (hk : 0 ≤ k)
    (hp : p = none ∨ p = s.firstFree (List.finRange nproc))
    (h : s.retry fuel k p = some (m, q)) :
    1 ≤ m ∧ m < 30000 ∧ s.Fresh m ∧ q = s.firstFree (List.finRange nproc) := by
  induction fuel generalizing k p with
  | zero => cases h
  | succ fuel ih =>
    unfold retry at h
    dsimp only at h
    split at h
    · exact ih (Int.le_refl 0) hp h
    rename_i hlt
    obtain ⟨hsome, hnone, hend⟩ := scanProcs_slot (s := s) (k + 1) (List.finRange nproc) p
    have hq : (s.scanProcs (k + 1) (List.finRange nproc) p).2 = none ∨
        (s.scanProcs (k + 1) (List.finRange nproc) p).2 = s.firstFree (List.finRange nproc) := by
      cases hpx : p with
      | none =>
        rw [hpx] at hnone
        exact hnone rfl
      | some x =>
        refine Or.inr ?_
        rw [← hpx, hsome x hpx, ← hpx]
        rcases hp with h | h
        · rw [h] at hpx
          cases hpx
        · exact h
    split at h
    · rename_i p' hscan
      rw [hscan] at hq
      exact ih (by omega) hq h
    · rename_i p' hscan
      obtain ⟨rfl, rfl⟩ := Prod.mk.inj (Option.some.inj h)
      refine ⟨by omega, by omega, fun j => ?_, ?_⟩
      · have hno : ¬∃ j ∈ List.finRange nproc,
            (s.proc j).pid = k + 1 ∨ (s.proc j).pgrp = k + 1 := by
          rw [← scanProcs_taken (p := p), hscan]
          exact Bool.false_ne_true
        exact ⟨fun hj => hno ⟨j, List.mem_finRange j, Or.inl hj⟩,
          fun hj => hno ⟨j, List.mem_finRange j, Or.inr hj⟩⟩
      · rw [hscan] at hsome hend
        cases hpx : p with
        | none => exact hend hpx rfl
        | some x =>
          have : p' = some x := hsome x hpx
          rw [this, ← hpx]
          rcases hp with h | h
          · rw [h] at hpx
            cases hpx
          · exact h

/-- The table has too few slots to take all ids. -/
theorem exists_fresh (s : Pids) : ∃ k : Int, 1 ≤ k ∧ k < 30000 ∧ s.Fresh k := by
  let taken : Finset Int := Finset.univ.image (fun j => (s.proc j).pid) ∪
    Finset.univ.image fun j => (s.proc j).pgrp
  have hcard : taken.card < (Finset.Ico (1 : Int) 30000).card := by
    have h1 : (Finset.univ.image fun j => (s.proc j).pid).card ≤ 150 := by
      refine Finset.card_image_le.trans ?_
      rw [Finset.card_univ, Fintype.card_fin]
    have h2 : (Finset.univ.image fun j => (s.proc j).pgrp).card ≤ 150 := by
      refine Finset.card_image_le.trans ?_
      rw [Finset.card_univ, Fintype.card_fin]
    have h3 : taken.card ≤ _ := Finset.card_union_le _ _
    rw [Int.card_Ico]
    omega
  obtain ⟨k, hk, hfree⟩ := Finset.exists_mem_notMem_of_card_lt_card hcard
  rw [Finset.mem_Ico] at hk
  refine ⟨k, hk.1, hk.2, fun j => ⟨?_, ?_⟩⟩
  · rintro rfl
    exact hfree (Finset.mem_union_left _ (Finset.mem_image_of_mem _ (Finset.mem_univ j)))
  · rintro rfl
    exact hfree (Finset.mem_union_right _
      (Finset.mem_image_of_mem (fun j => (s.proc j).pgrp) (Finset.mem_univ j)))

/-- How many turns `retry` takes at most to come to `t`. -/
def turns (t k : Int) : Int := if k < t then t - k else 30000 - k + t

theorem retry_isSome {t : Int} (ht : 1 ≤ t) (ht' : t < 30000) (hf : s.Fresh t) {fuel : Nat}
    {k : Int} (hk : 0 ≤ k) (hk' : k < 30000) (hfuel : turns t k ≤ fuel)
    (p : Option (Fin nproc)) : ∃ r, s.retry fuel k p = some r := by
  induction fuel generalizing k p with
  | zero =>
    unfold turns at hfuel
    split at hfuel <;> omega
  | succ fuel ih =>
    unfold retry
    dsimp only
    split
    · refine ih (Int.le_refl 0) (by decide) ?_ p
      unfold turns at hfuel ⊢
      split at hfuel <;> split <;> omega
    · split
      · rename_i p' hscan
        refine ih (by omega) (by omega) ?_ p'
        have hne : k + 1 ≠ t := by
          intro he
          have htaken : (s.scanProcs (k + 1) (List.finRange nproc) p).1 = true := by rw [hscan]
          obtain ⟨j, -, hj⟩ := scanProcs_taken.mp htaken
          rw [he] at hj
          rcases hj with hj | hj
          · exact (hf j).1 hj
          · exact (hf j).2 hj
        unfold turns at hfuel ⊢
        split at hfuel <;> split <;> omega
      · exact ⟨_, rfl⟩

/-- The search ends, whatever is in the table. -/
theorem retry_ends (s : Pids) (h0 : 0 ≤ s.mpid) (h1 : s.mpid < 30000) :
    ∃ m, s.retry retryBound s.mpid none = some (m, s.firstFree (List.finRange nproc)) := by
  obtain ⟨t, ht, ht', hf⟩ := exists_fresh s
  have hle : turns t s.mpid ≤ (retryBound : Nat) := by
    unfold turns retryBound
    split <;> omega
  obtain ⟨⟨m, q⟩, hr⟩ := retry_isSome ht ht' hf h0 h1 hle none
  obtain ⟨-, -, -, rfl⟩ := retry_spec h0 (Or.inl rfl) hr
  exact ⟨m, hr⟩

/-! ## `fork` -/

theorem forkScan_slot (uid : BitVec 16) (l : List (Fin nproc)) (a : Nat) (p : Option (Fin nproc)) :
    (s.forkScan uid l a p).2 = if p = none then s.firstFree l else p := by
  induction l generalizing a p with
  | nil => cases p <;> simp [forkScan, firstFree]
  | cons j l ih =>
    unfold forkScan
    by_cases hf : (s.proc j).stat = .free
    · cases p with
      | none => simp [hf, ih, firstFree]
      | some x => simp [hf, ih]
    · have hcons : s.firstFree (j :: l) = s.firstFree l := by simp [firstFree, hf]
      rw [hcons]
      simp only [hf, false_and, if_false]
      split <;> exact ih _ p

/-- What a call of `fork` by `p` comes to: no change, or a child with a new id, which is the value
in the parent. -/
def ForkOk (s s' : Pids) (p : Fin nproc) : ForkRet → Prop
  | .ok parent child => 1 ≤ parent ∧ parent ≤ 29999 ∧ s.Fresh parent ∧
      child = (s.proc p).pid ∧ ∃ q, (s.proc q).stat = .free ∧
        s'.proc q = ⟨.live, (s.proc p).uid, parent, (s.proc p).pgrp, (s.proc p).pid⟩ ∧
        ∀ j, j ≠ q → s'.proc j = s.proc j
  | _ => s' = s

structure Inv (s : Pids) : Prop where
  distinct : ∀ p q, (s.proc p).stat ≠ .free → (s.proc q).stat ≠ .free →
    (s.proc p).pid = (s.proc q).pid → p = q
  low : 0 ≤ s.mpid
  high : s.mpid < 30000

theorem firstFree_free {q : Fin nproc} {l : List (Fin nproc)} (h : s.firstFree l = some q) :
    (s.proc q).stat = .free := by
  have := List.find?_some h
  simpa using this

theorem newproc_spec {q : Fin nproc} (h : Inv s) (p : Fin nproc)
    (hq : s.firstFree (List.finRange nproc) = some q) :
    ∃ m, 1 ≤ m ∧ m < 30000 ∧ s.Fresh m ∧ s.newproc p = some
      { proc := Function.update s.proc q
          ⟨.live, (s.proc p).uid, m, (s.proc p).pgrp, (s.proc p).pid⟩
        mpid := m } := by
  obtain ⟨m, hr⟩ := retry_ends s h.low h.high
  obtain ⟨h1, h2, hf, -⟩ := retry_spec h.low (Or.inl rfl) hr
  refine ⟨m, h1, h2, hf, ?_⟩
  unfold newproc
  rw [hr, hq]
  rfl

theorem fork_spec (h : Inv s) (p : Fin nproc) (uid : BitVec 16) (swap : Bool) :
    ∃ r s', s.fork p uid swap = some (r, s') ∧ ForkOk s s' p r ∧ Inv s' := by
  have hslot := forkScan_slot (s := s) uid (List.finRange nproc) 0 none
  rw [if_pos rfl] at hslot
  unfold fork
  split
  · exact ⟨_, _, rfl, rfl, h⟩
  split
  · exact ⟨_, _, rfl, rfl, h⟩
  rename_i a q hscan
  rw [hscan] at hslot
  split
  · exact ⟨_, _, rfl, rfl, h⟩
  obtain ⟨m, h1, h2, hf, hnew⟩ := newproc_spec h p hslot.symm
  rw [hnew]
  refine ⟨_, _, rfl, ?_, ?_⟩
  · refine ⟨?_, ?_, ?_, rfl, q, firstFree_free hslot.symm, ?_, ?_⟩
    · simp only [Function.update_self]
      exact h1
    · simp only [Function.update_self]
      exact Int.le_of_lt_add_one h2
    · simp only [Function.update_self]
      exact hf
    · dsimp only
      rw [Function.update_self]
    · intro j hj
      exact Function.update_of_ne hj _ _
  · refine ⟨?_, by dsimp only; omega, h2⟩
    intro i j hi hj hij
    dsimp only at hi hj hij
    by_cases hiq : i = q <;> by_cases hjq : j = q
    · rw [hiq, hjq]
    · rw [hiq, Function.update_self, Function.update_of_ne hjq] at hij
      exact absurd hij.symm (hf j).1
    · rw [hjq, Function.update_self, Function.update_of_ne hiq] at hij
      exact absurd hij (hf i).1
    · rw [Function.update_of_ne hiq] at hi hij
      rw [Function.update_of_ne hjq] at hj hij
      exact h.distinct i j hi hj hij

/-! ## Runs -/

/-- A change that makes no slot live, and no id new. -/
theorem Inv.less (h : Inv s) (hm : s'.mpid = s.mpid)
    (hp : ∀ j, (s'.proc j).stat ≠ .free →
      (s.proc j).stat ≠ .free ∧ (s'.proc j).pid = (s.proc j).pid) : Inv s' := by
  refine ⟨fun i j hi hj hij => ?_, by rw [hm]; exact h.low, by rw [hm]; exact h.high⟩
  obtain ⟨hi', hpi⟩ := hp i hi
  obtain ⟨hj', hpj⟩ := hp j hj
  rw [hpi, hpj] at hij
  exact h.distinct i j hi' hj' hij

theorem exit_inv (h : Inv s) {p : Fin nproc} (hp : (s.proc p).stat = .live) : Inv (s.exit p) := by
  refine h.less rfl fun j hj => ?_
  have hz : (Function.update s.proc p { s.proc p with stat := .zomb } j).stat ≠ .free →
      (s.proc j).stat ≠ .free ∧
      (Function.update s.proc p { s.proc p with stat := .zomb } j).pid = (s.proc j).pid := by
    by_cases hjp : j = p
    · subst hjp
      rw [Function.update_self, hp]
      exact fun _ => ⟨by decide, rfl⟩
    · rw [Function.update_of_ne hjp]
      exact fun h => ⟨h, rfl⟩
  unfold exit at hj ⊢
  dsimp only at hj ⊢
  split at hj
  · rename_i hc
    rw [if_pos hc]
    exact hz hj
  · rename_i hc
    rw [if_neg hc]
    exact hz hj

theorem wait_inv (h : Inv s) (p : Fin nproc) : Inv (s.wait p) := by
  unfold wait
  split
  · exact h
  · rename_i q hq
    refine h.less rfl fun j hj => ?_
    dsimp only at hj ⊢
    by_cases hjq : j = q
    · rw [hjq, Function.update_self] at hj
      exact absurd rfl hj
    · rw [Function.update_of_ne hjq] at hj ⊢
      exact ⟨hj, rfl⟩

theorem step_inv {a : Act} (h : Inv s) (hstep : s.step a = .ok (s', ())) : Inv s' := by
  unfold step at hstep
  split at hstep
  · rename_i hlive
    split at hstep
    · cases hstep
    rename_i s₁ hx
    cases hstep
    cases a with
    | fork p uid swap =>
      obtain ⟨r, s₂, hf, -, hinv⟩ := fork_spec h p uid swap
      dsimp only [act] at hx
      rw [hf] at hx
      cases hx
      exact hinv
    | setpgrp p =>
      cases hx
      refine h.less rfl fun j hj => ?_
      dsimp only at hj ⊢
      by_cases hjp : j = p
      · subst hjp
        rw [Function.update_self] at hj ⊢
        exact ⟨hj, rfl⟩
      · rw [Function.update_of_ne hjp] at hj ⊢
        exact ⟨hj, rfl⟩
    | exit p =>
      cases hx
      exact exit_inv h hlive
    | wait p =>
      cases hx
      exact wait_inv h p
  · cases hstep

theorem boot_inv : Inv boot := by
  refine ⟨fun p q hp hq _ => ?_, Int.le_refl 0, by decide⟩
  have h0 : ∀ r : Fin nproc, (boot.proc r).stat ≠ .free → r.val = 0 := by
    intro r hr
    by_contra hne
    exact hr (if_neg hne)
  exact Fin.ext ((h0 p hp).trans (h0 q hq).symm)

/-- The search of `newproc` ends for every table with a free slot, and finds it. In every state
that a run from the start reaches the pids are distinct, and every `fork` ends as it should. -/
theorem fork_pids :
    (∀ t : Pids, 0 ≤ t.mpid → t.mpid < 30000 → (∃ p, (t.proc p).stat = .free) →
      ∃ m q, t.retry retryBound t.mpid none = some (m, some q) ∧ (t.proc q).stat = .free) ∧
    ∀ acts s outs, runs step boot acts = .ok (s, outs) →
      (∀ p q, (s.proc p).stat ≠ .free → (s.proc q).stat ≠ .free →
        (s.proc p).pid = (s.proc q).pid → p = q) ∧
      ∀ p uid swap, (s.proc p).stat = .live →
        ∃ r s', s.fork p uid swap = some (r, s') ∧ ForkOk s s' p r := by
  constructor
  · intro t h0 h1 ⟨p, hp⟩
    obtain ⟨m, hm⟩ := retry_ends t h0 h1
    obtain ⟨q, hq⟩ : ∃ q, t.firstFree (List.finRange nproc) = some q := by
      rw [← Option.isSome_iff_exists]
      unfold firstFree
      rw [List.find?_isSome]
      exact ⟨p, List.mem_finRange p, by simpa using hp⟩
    rw [hq] at hm
    exact ⟨m, q, hm, firstFree_free hq⟩
  · intro acts s outs hrun
    have h : Inv s := runs_inv (fun _ _ _ _ h hstep => step_inv h hstep) boot_inv hrun
    refine ⟨h.distinct, fun p uid swap _ => ?_⟩
    obtain ⟨r, s', hf, hok, -⟩ := fork_spec h p uid swap
    exact ⟨r, s', hf, hok⟩

/-- The process 0 makes a child, which makes another and ends. -/
def family : List Act :=
  [.fork 0 0 true, .setpgrp 1, .fork 1 0 true, .exit 1, .wait 0, .fork 0 0 true]

theorem fork_pids_family : ∃ s outs, runs step boot family = .ok (s, outs) ∧
    (s.proc 1).pid = 3 ∧ ∃ r s', s.fork 2 0 true = some (r, s') ∧ ForkOk s s' 2 r := by
  have h : (match runs step boot family with
      | .ok (s, _) => decide ((s.proc 1).pid = 3 ∧ (s.proc 2).stat = .live)
      | .error _ => false) = true := by decide +kernel
  split at h
  · rename_i s outs hrun
    obtain ⟨h1, h2⟩ := of_decide_eq_true h
    exact ⟨s, outs, hrun, h1, (fork_pids.2 family s outs hrun).2 2 0 true h2⟩
  · cases h

end Pids

end Venix.Kernel
