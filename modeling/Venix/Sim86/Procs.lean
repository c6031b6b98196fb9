/-
  The process table of 86sim (`venix_fork` and `venix_rexit` of `pcvenix.h`).

  Every process on the host has its own copy of the table, which the fork of the host makes. The
  entries of `pid_venix` past the first are not set at the start, and may hold anything. The host
  pid that `fork` returns is given; -1 says that it failed, and nothing was made. The loop at
  `again` has a bound for its turns.

  Proved: a run whose forks find a free entry, or fail on the host, and where only the first
  process ends through `venix_rexit`, does what it should (`procs_sound`). A child does not find
  itself in its copy (`child_exit_fails`), and a fork without a free entry leaves a child running
  (`fork_full`).
-/
import Venix.Lib.Run

namespace Venix.Sim86

open Venix.Lib

/-- `VENIX_NPROC`. -/
abbrev venixNproc : Nat := 30

/-- `VENIX_MAXPROC`. -/
def venixMaxproc : Int := 30000

structure PidTab where
  pidHost : Fin venixNproc → Int
  pidVenix : Fin venixNproc → Int
  pid : Int

/-- What `fork` returns to the guest. -/
inductive ForkRes where
  | error
  | ok (v : Int)
  deriving DecidableEq

namespace PidTab

/-! ## The system calls -/

/-- The table at the start of the process `me`. -/
def start (me : Int) (junk : Fin venixNproc → Int) : PidTab :=
  { pidHost := fun i => if i.val = 0 then me else -1
    pidVenix := fun i => if i.val = 0 then 2 else junk i
    pid := 3 }

/-- The next `vp` at `again`. -/
def nextVp (vp : Int) : Int :=
  let vp := vp + 1
  let vp := if vp = 0 then vp + 1 else vp
  if vp ≥ venixMaxproc then 1 else vp

def again (t : PidTab) : Nat → Int → Option Int
  | 0, _ => none
  | fuel + 1, vp =>
    let vp := nextVp vp
    if (List.finRange venixNproc).any fun i => t.pidVenix i = vp then t.again fuel vp else some vp

def againBound : Nat := venixNproc + 1

/-- `venix_fork` in the parent, where the child has the host pid `p`. -/
def venixFork (t : PidTab) (p : Int) : Option (ForkRes × PidTab) := do
  let vp ← t.again againBound t.pid
  match (List.finRange venixNproc).find? fun i => t.pidHost i = -1 with
  | some i =>
    return (.ok vp,
      { t with
        pidHost := Function.update t.pidHost i p
        pidVenix := Function.update t.pidVenix i vp })
  | none => return (.error, t)

/-- The search of `venix_rexit`; if it finds nothing, the assertion after it fails. -/
def venixRexit (t : PidTab) (p : Int) : Option (Fin venixNproc) :=
  (List.finRange venixNproc).find? fun i => p = t.pidHost i

end PidTab

/-! ## The processes -/

/-- A process on the host. -/
structure HostProc where
  host : Int
  tab : PidTab
  live : Bool

/-- The processes, in the order in which they were made. -/
abbrev Host := List HostProc

/-- `fork` comes with what the host returns. -/
inductive ProcAct where
  | fork (i : Nat) (p : Int)
  | exit (i : Nat)

namespace Host

def tabAt (s : Host) (i : Nat) (q : HostProc) : Prop := s[i]? = some q ∧ q.live = true

/-- One system call. The child has the table of its parent as it is before the call. An exit that
does not find its entry aborts, which ends the process too. -/
def step (s : Host) : ProcAct → Except Unit (Host × Option ForkRes)
  | .fork i p =>
    match s[i]? with
    | none => .error ()
    | some q =>
      if ¬q.live then .error ()
      else if p = -1 then .ok (s, some .error)
      else
        match q.tab.venixFork p with
        | none => .error ()
        | some (r, t) =>
          .ok (s.set i { q with tab := t } ++ [{ host := p, tab := q.tab, live := true }], some r)
  | .exit i =>
    match s[i]? with
    | none => .error ()
    | some q => if ¬q.live then .error () else .ok (s.set i { q with live := false }, none)

/-- What a call should do: a fork that fails has made no child, and one that returns `v` has one
entry for it, with the child. An exit finds its process. -/
def Good (s : Host) : ProcAct → Prop
  | .fork i p => ∀ q, s.tabAt i q → p ≠ -1 →
      ∃ v t, q.tab.venixFork p = some (.ok v, t) ∧ 1 ≤ v ∧ v < venixMaxproc ∧
        ∃ j, t.pidHost j = p ∧ ∀ j', t.pidVenix j' = v ↔ j' = j
  | .exit i => ∀ q, s.tabAt i q → ∃ j, q.tab.venixRexit q.host = some j

/-- The table of the caller has a free entry, or the host has no child to give; and only the
first process ends. -/
def Ok (s : Host) : ProcAct → Prop
  | .fork i p => p = -1 ∨ ∀ q, s.tabAt i q → ∃ j, q.tab.pidHost j = -1
  | .exit i => i = 0

/-! ## The search for an id -/

theorem exists_free (t : PidTab) : ∃ k : Int, 4 ≤ k ∧ k < 35 ∧ ∀ i, t.pidVenix i ≠ k := by
  have hcard : (Finset.univ.image t.pidVenix).card < (Finset.Ico (4 : Int) 35).card := by
    have h : (Finset.univ.image t.pidVenix).card ≤ 30 := by
      refine Finset.card_image_le.trans ?_
      rw [Finset.card_univ, Fintype.card_fin]
    rw [Int.card_Ico]
    omega
  obtain ⟨k, hk, hfree⟩ := Finset.exists_mem_notMem_of_card_lt_card hcard
  rw [Finset.mem_Ico] at hk
  refine ⟨k, hk.1, hk.2, fun i hi => hfree ?_⟩
  rw [← hi]
  exact Finset.mem_image_of_mem _ (Finset.mem_univ i)

theorem nextVp_of_lt {vp : Int} (h0 : 0 ≤ vp) (h : vp < 35) : PidTab.nextVp vp = vp + 1 := by
  unfold PidTab.nextVp venixMaxproc
  rw [if_neg (by omega), if_neg (by omega)]

theorem again_spec {t : PidTab} {k : Int} (hk : k < 35) (hfree : ∀ i, t.pidVenix i ≠ k)
    {fuel : Nat} (vp : Int) (h0 : 0 ≤ vp) (hlt : vp < k) (hfuel : k - vp ≤ fuel) :
    ∃ v, t.again fuel vp = some v ∧ vp < v ∧ v ≤ k ∧ ∀ i, t.pidVenix i ≠ v := by
  induction fuel generalizing vp with
  | zero => omega
  | succ fuel ih =>
    unfold PidTab.again
    rw [nextVp_of_lt h0 (by omega)]
    dsimp only
    split
    · rename_i hany
      have hne : vp + 1 ≠ k := by
        intro he
        obtain ⟨i, -, hi⟩ := List.any_eq_true.mp hany
        rw [he] at hi
        exact hfree i (of_decide_eq_true hi)
      obtain ⟨v, hv, h1, h2, h3⟩ := ih (vp + 1) (by omega) (by omega) (by omega)
      exact ⟨v, hv, by omega, h2, h3⟩
    · rename_i hany
      refine ⟨vp + 1, rfl, by omega, by omega, fun i hi => hany ?_⟩
      exact List.any_eq_true.mpr ⟨i, List.mem_finRange i, decide_eq_true hi⟩

theorem venixFork_spec {t : PidTab} (hpid : t.pid = 3) (hfree : ∃ j, t.pidHost j = -1) (p : Int) :
    ∃ v j, t.venixFork p = some (.ok v,
        { t with
          pidHost := Function.update t.pidHost j p
          pidVenix := Function.update t.pidVenix j v }) ∧
      1 ≤ v ∧ v < venixMaxproc ∧ t.pidHost j = -1 ∧ ∀ i, t.pidVenix i ≠ v := by
  obtain ⟨k, hk, hk', hkfree⟩ := exists_free t
  have hb : k - t.pid ≤ (PidTab.againBound : Nat) := by
    rw [hpid]
    unfold PidTab.againBound venixNproc
    omega
  obtain ⟨v, hv, h1, h2, h3⟩ := again_spec hk' hkfree _ (by omega) (by omega) hb
  obtain ⟨j, hj⟩ : ∃ j, (List.finRange venixNproc).find? (fun i => t.pidHost i = -1) = some j := by
    rw [← Option.isSome_iff_exists, List.find?_isSome]
    obtain ⟨j, hj⟩ := hfree
    exact ⟨j, List.mem_finRange j, decide_eq_true hj⟩
  refine ⟨v, j, ?_, by omega, ?_, ?_, h3⟩
  · unfold PidTab.venixFork
    rw [hv, hj]
    rfl
  · unfold venixMaxproc
    omega
  · simpa using List.find?_some hj

/-! ## Runs -/

/-- No process has changed `pid`, and the first one is in the first entry of its table. -/
structure Inv (s : Host) : Prop where
  pid : ∀ q ∈ s, q.tab.pid = 3
  first : ∀ q, s[0]? = some q → q.host ≠ -1 ∧ q.tab.pidHost 0 = q.host

theorem venixFork_keeps {t t' : PidTab} {p : Int} {r : ForkRes}
    (h : t.venixFork p = some (r, t')) :
    t'.pid = t.pid ∧ ∀ j, t.pidHost j ≠ -1 → t'.pidHost j = t.pidHost j := by
  unfold PidTab.venixFork at h
  obtain ⟨vp, -, h⟩ := Option.bind_eq_some_iff.mp h
  split at h
  · rename_i i hi
    have hi' : t.pidHost i = -1 := by simpa using List.find?_some hi
    cases h
    refine ⟨rfl, fun j hj => Function.update_of_ne ?_ _ _⟩
    rintro rfl
    exact hj hi'
  · cases h
    exact ⟨rfl, fun _ _ => rfl⟩

theorem step_inv {s s' : Host} {a : ProcAct} {o : Option ForkRes} (h : Inv s)
    (hstep : s.step a = .ok (s', o)) : Inv s' := by
  unfold step at hstep
  split at hstep
  · rename_i i p
    split at hstep
    · cases hstep
    rename_i q hq
    split at hstep
    · cases hstep
    split at hstep
    · cases hstep
      exact h
    split at hstep
    · cases hstep
    rename_i r t hf
    cases hstep
    obtain ⟨hpid, hkeep⟩ := venixFork_keeps hf
    have hmem := List.mem_of_getElem? hq
    refine ⟨fun x hx => ?_, fun x hx => ?_⟩
    · rcases List.mem_append.mp hx with hx | hx
      · rcases List.mem_or_eq_of_mem_set hx with hx | rfl
        · exact h.pid x hx
        · exact hpid.trans (h.pid q hmem)
      · rw [List.mem_singleton.mp hx]
        exact h.pid q hmem
    · have hlen : 0 < (s.set i { q with tab := t }).length := by
        rw [List.length_set]
        exact List.length_pos_of_mem hmem
      rw [List.getElem?_append_left hlen, List.getElem?_set] at hx
      split at hx
      · rename_i hi
        split at hx
        · cases hx
          obtain ⟨h1, h2⟩ := h.first q (by rw [← hi]; exact hq)
          refine ⟨h1, ?_⟩
          rw [← h2] at h1
          exact (hkeep 0 h1).trans h2
        · cases hx
      · exact h.first x hx
  · rename_i i
    split at hstep
    · cases hstep
    rename_i q hq
    split at hstep
    · cases hstep
    cases hstep
    have hmem := List.mem_of_getElem? hq
    refine ⟨fun x hx => ?_, fun x hx => ?_⟩
    · rcases List.mem_or_eq_of_mem_set hx with hx | rfl
      · exact h.pid x hx
      · exact h.pid q hmem
    · rw [List.getElem?_set] at hx
      split at hx
      · rename_i hi
        split at hx
        · cases hx
          exact h.first q (by rw [← hi]; exact hq)
        · cases hx
      · exact h.first x hx

theorem good_of_ok {s : Host} (h : Inv s) {a : ProcAct} (hok : s.Ok a) : s.Good a := by
  cases a with
  | fork i p =>
    intro q hq hp
    have hfree := (hok.resolve_left hp) q hq
    obtain ⟨v, j, hf, h1, h2, -, hv⟩ :=
      venixFork_spec (h.pid q (List.mem_of_getElem? hq.1)) hfree p
    refine ⟨v, _, hf, h1, h2, j, Function.update_self _ _ _, fun j' => ⟨fun hj => ?_, ?_⟩⟩
    · by_contra hne
      dsimp only at hj
      rw [Function.update_of_ne hne] at hj
      exact hv j' hj
    · rintro rfl
      exact Function.update_self _ _ _
  | exit i =>
    intro q hq
    have hi : i = 0 := hok
    subst hi
    obtain ⟨-, h0⟩ := h.first q hq.1
    rw [← Option.isSome_iff_exists]
    unfold PidTab.venixRexit
    rw [List.find?_isSome]
    exact ⟨0, List.mem_finRange 0, decide_eq_true h0.symm⟩

/-- One process, with the host pid `me`. -/
def boot (me : Int) (junk : Fin venixNproc → Int) : Host :=
  [{ host := me, tab := .start me junk, live := true }]

theorem boot_inv {me : Int} (hme : me ≠ -1) (junk : Fin venixNproc → Int) :
    Inv (boot me junk) := by
  refine ⟨fun q hq => ?_, fun q hq => ?_⟩
  · rw [List.mem_singleton.mp hq]
    rfl
  · cases hq
    exact ⟨hme, rfl⟩

/-- In a run of calls that meet `Ok`, each of which is then made, every call does what it
should. -/
theorem procs_sound {me : Int} (hme : me ≠ -1) (junk : Fin venixNproc → Int) {s : Host}
    {acts : List ProcAct} {outs : List (Option ForkRes)} (hok : Meets step Ok (boot me junk) acts)
    (hrun : runs step (boot me junk) acts = .ok (s, outs)) (a : ProcAct) (ha : s.Ok a) :
    s.Good a :=
  good_of_ok (runs_inv_of_meets (fun _ _ _ _ h _ hstep => step_inv h hstep) (boot_inv hme junk)
    hok hrun) ha

theorem procs_sound_two : ∃ s outs, runs step (boot 100 fun _ => 0)
    [.fork 0 101, .fork 0 (-1), .fork 1 102] = .ok (s, outs) ∧ s.Good (.exit 0) := by
  obtain ⟨s, outs, hrun⟩ : ∃ s outs, runs step (boot 100 fun _ => 0)
      [.fork 0 101, .fork 0 (-1), .fork 1 102] = .ok (s, outs) := ⟨_, _, rfl⟩
  refine ⟨s, outs, hrun, procs_sound (by decide) _ ?_ hrun (.exit 0) rfl⟩
  refine ⟨Or.inr ?_, Or.inl rfl, Or.inr ?_, trivial⟩
  · rintro q ⟨hq, -⟩
    cases hq
    exact ⟨1, rfl⟩
  · rintro q ⟨hq, -⟩
    cases hq
    exact ⟨1, rfl⟩

/-- A child that a fork has made does not find itself when it exits. -/
theorem child_exit_fails : ∃ s outs, runs step (boot 100 fun _ => 0) [.fork 0 101] =
    .ok (s, outs) ∧ ¬s.Good (.exit 1) := by
  refine ⟨_, _, rfl, fun h => ?_⟩
  obtain ⟨j, hj⟩ := h ⟨101, .start 100 fun _ => 0, true⟩ ⟨rfl, rfl⟩
  have hnone : (PidTab.start 100 fun _ => 0).venixRexit 101 = none := by decide
  rw [hnone] at hj
  cases hj

/-- With 29 children the table is full: the next fork reports an error, and its child runs. -/
theorem fork_full : (match runs step (boot 100 fun _ => 0)
      ((List.range 30).map fun i => .fork 0 (101 + i)) with
    | .ok (s, outs) => s.length = 31 ∧ outs.getLast? = some (some ForkRes.error)
    | .error _ => False) := by
  have h : (match runs step (boot 100 fun _ => 0)
        ((List.range 30).map fun i => .fork 0 (101 + i)) with
      | .ok (s, outs) => decide (s.length = 31 ∧ outs.getLast? = some (some ForkRes.error))
      | .error _ => false) = true := by decide
  split at h
  · exact of_decide_eq_true h
  · cases h

end Host

end Venix.Sim86
