/-
  The queues of the processes over whole runs.

  Proved: while no `wakeup` is caught by the swapper it wakes on the way (`clash`) and `setrun` is
  not called for the process that runs, every sleeping process is once on the list of its channel,
  every other one that can run is once on `runq`, the lists end, and `wakeup` leaves nobody asleep
  on its channel. The other case: `setrun` of a process that is swapped out wakes the swapper; if
  the swapper is on the same list, next to the process, `wakeup` goes on along `runq` or links
  `runq` to the list.
-/
import Venix.Kernel.Slp
import Venix.Lib.Run

set_option linter.unusedSectionVars false

namespace Venix.Kernel

open Venix.Lib

variable {P Chan H : Type} [DecidableEq P] [DecidableEq Chan] [DecidableEq H] [Fintype P]

/-- The lists are as they should be: `B i` is the list `slpque[i]` and `R` is `runq`. -/
structure Queues (ch : Chans Chan H) (s : Procs P Chan H) (B : H → List P) (R : List P) : Prop where
  bucket : ∀ i, Chain s.link (s.slpque i) (B i)
  runq : Chain s.link s.runq R
  sleeps : ∀ i p, p ∈ B i ↔ s.stat p = .sleep ∧ ∃ c, s.wchan p = some c ∧ ch.hash c = i
  runs : ∀ p, p ∈ R ↔ s.stat p = .run ∧ s.cur ≠ some p
  wchan : ∀ p, (s.wchan p).isSome ↔ s.stat p = .sleep
  cur : ∀ p, s.cur = some p → s.stat p = .run

section Lists

variable {ch : Chans Chan H} {s : Procs P Chan H} {B : H → List P} {R : List P}

theorem Queues.notMem_run (h : Queues ch s B R) {i : H} {p : P} (hp : p ∈ B i) : p ∉ R := by
  intro hr
  have h1 := ((h.sleeps i p).mp hp).1
  rw [((h.runs p).mp hr).1] at h1
  cases h1

theorem Queues.bucket_unique (h : Queues ch s B R) {i j : H} {p : P} (hi : p ∈ B i) (hj : p ∈ B j) :
    i = j := by
  obtain ⟨-, c, hc, hi⟩ := (h.sleeps i p).mp hi
  obtain ⟨-, c', hc', hj⟩ := (h.sleeps j p).mp hj
  rw [hc] at hc'
  cases hc'
  rw [← hi, ← hj]

theorem nodup_length_le {l : List P} (h : l.Nodup) : l.length ≤ Fintype.card P :=
  h.length_le_card

theorem onQueue_eq {l : List P} {h : Option P} (p : P) (hc : Chain s.link h l) {n : Nat}
    (hn : l.length ≤ n) : s.onQueue p n h = some (decide (p ∈ l)) := by
  induction l generalizing h n with
  | nil =>
    have h0 : h = none := hc
    subst h0
    cases n <;> rfl
  | cons x l ih =>
    obtain ⟨rfl, hc⟩ := hc
    obtain ⟨n, rfl⟩ : ∃ k, n = k + 1 := ⟨n - 1, by simp at hn; omega⟩
    rw [Procs.onQueue]
    by_cases e : x = p
    · simp [e]
    · rw [if_neg e, ih hc (by simpa using hn)]
      have e' : p ≠ x := fun h => e h.symm
      simp [e']

/-- `setrq` of a process that is not on the queue. -/
theorem setrq_eq {p : P} (hc : Chain s.link s.runq R) (hp : p ∉ R) :
    s.setrq p = some { s with link := Function.update s.link p s.runq, runq := some p } := by
  unfold Procs.setrq
  rw [onQueue_eq p hc (nodup_length_le hc.nodup)]
  simp [hp]

theorem unlink_link (s : Procs P Chan H) (i : H) (q sp : Option P) :
    (s.unlink i q sp).link = Chain.relink s.link q sp ∧
      (s.unlink i q sp).slpque i = Chain.rehead (s.slpque i) q sp ∧
      (∀ j, j ≠ i → (s.unlink i q sp).slpque j = s.slpque j) := by
  cases q with
  | none => exact ⟨rfl, Function.update_self _ _ _, fun j hj => Function.update_of_ne hj _ _⟩
  | some q => exact ⟨rfl, rfl, fun _ _ => rfl⟩

/-- A process is taken out of its list, marked and put on `runq`. -/
def Procs.ready (s : Procs P Chan H) (i : H) (q : Option P) (x : P) : Procs P Chan H :=
  let s' := (s.unlink i q (s.link x)).setWchan x none
  { s' with
    stat := Function.update s.stat x .run
    link := Function.update s'.link x s.runq
    runq := some x }

theorem unlink_rest (s : Procs P Chan H) (i : H) (q sp : Option P) :
    ∃ f g, s.unlink i q sp = { s with link := f, slpque := g } := by
  cases q with
  | none => exact ⟨_, _, rfl⟩
  | some q => exact ⟨_, _, rfl⟩

/-- What `setrun` comes to for a process that `wakeup` has just unlinked. -/
theorem setrun_unlinked (h : Queues ch s B R) {i : H} {q : Option P} {x : P} (hx : x ∈ B i)
    (hq : ∀ y, q = some y → y ∈ B i)
    (w : Chan → Procs P Chan H → Option (Procs P Chan H)) :
    Procs.setrun ch w x ((s.unlink i q (s.link x)).setWchan x none) =
      if s.runout ∧ ¬s.load x then w ch.runout { s.ready i q x with runout := false }
      else some (s.ready i q x) := by
  obtain ⟨f, g, hfg⟩ := unlink_rest s i q (s.link x)
  have hlink := (unlink_link s i q (s.link x)).1
  have hstat := ((h.sleeps i x).mp hx).1
  have hrunq : Chain f s.runq R := by
    rw [hfg] at hlink
    dsimp only at hlink
    rw [hlink]
    refine h.runq.congr fun y hy => ?_
    cases q with
    | none => rfl
    | some q =>
      refine Function.update_of_ne ?_ _ _
      rintro rfl
      exact h.notMem_run (hq y rfl) hy
  unfold Procs.setrun Procs.ready
  rw [hfg]
  simp only [Procs.setWchan, Function.update_self]
  rw [if_neg (by rw [hstat]; simp)]
  let s₁ : Procs P Chan H := { s with
    link := f
    slpque := g
    wchan := Function.update s.wchan x none
    stat := Function.update s.stat x .run }
  have hset : s₁.setrq x = _ := setrq_eq hrunq (h.notMem_run hx)
  unfold Procs.setStat
  dsimp only
  rw [hset]
  rfl

/-- The rest of the state after `ready`. -/
theorem ready_rest (s : Procs P Chan H) (i : H) (q : Option P) (x : P) :
    (s.ready i q x).stat = Function.update s.stat x .run ∧
      (s.ready i q x).wchan = Function.update s.wchan x none ∧ (s.ready i q x).load = s.load ∧
      (s.ready i q x).cur = s.cur ∧ (s.ready i q x).runin = s.runin ∧
      (s.ready i q x).runout = s.runout := by
  obtain ⟨f, g, hfg⟩ := unlink_rest s i q (s.link x)
  unfold Procs.ready
  rw [hfg]
  exact ⟨rfl, rfl, rfl, rfl, rfl, rfl⟩

theorem ready_queues (h : Queues ch s B R) {i : H} {A C : List P} {x : P}
    (hB : B i = A ++ x :: C) :
    Queues ch (s.ready i A.getLast? x) (Function.update B i (A ++ C)) (x :: R) := by
  have hxB : x ∈ B i := by simp [hB]
  have hxR := h.notMem_run hxB
  have hbi := h.bucket i
  rw [hB] at hbi
  have hnd := hbi.nodup
  obtain ⟨hlink, hque, hque'⟩ := unlink_link s i A.getLast? (s.link x)
  -- only links of processes of the list are changed
  have hrel : ∀ y, y ∉ B i → Chain.relink s.link A.getLast? (s.link x) y = s.link y := by
    intro y hy
    cases hA : A.getLast? with
    | none => rfl
    | some a =>
      refine Function.update_of_ne ?_ _ _
      rintro rfl
      exact hy (by rw [hB]; exact List.mem_append_left _ (List.mem_of_getLast? hA))
  have hlink' : (s.ready i A.getLast? x).link =
      Function.update (Chain.relink s.link A.getLast? (s.link x)) x s.runq := by
    rw [← hlink]
    rfl
  obtain ⟨hstat, hwchan, -, hcur, -, -⟩ := ready_rest s i A.getLast? x
  have hmem : ∀ y, y ∈ A ++ C ↔ y ∈ B i ∧ y ≠ x := by
    intro y
    rw [hB]
    have hxA : x ∉ A := fun hx => by
      have := (List.nodup_append.mp hnd).2.2 x hx x (by simp)
      exact this rfl
    have hxC : x ∉ C := (List.nodup_cons.mp (List.nodup_append.mp hnd).2.1).1
    simp only [List.mem_append, List.mem_cons]
    constructor
    · intro hy
      refine ⟨by tauto, ?_⟩
      rintro rfl
      tauto
    · rintro ⟨hy, hne⟩
      tauto
  refine ⟨fun j => ?_, ?_, fun j p => ?_, fun p => ?_, fun p => ?_, fun p hp => ?_⟩
  · rw [hlink']
    by_cases hj : j = i
    · subst hj
      rw [Function.update_self]
      have hrem := hbi.remove
      rw [← hque] at hrem
      exact hrem.congr fun y hy => Function.update_of_ne ((hmem y).mp hy).2 _ _
    · rw [Function.update_of_ne hj]
      have hb := h.bucket j
      rw [← hque' j hj] at hb
      refine hb.congr fun y hy => ?_
      have hyi : y ∉ B i := fun hyi => hj (h.bucket_unique hy hyi)
      rw [Function.update_of_ne, hrel y hyi]
      rintro rfl
      exact hyi hxB
  · rw [hlink']
    refine Chain.push (h.runq.congr fun y hy => ?_) hxR
    exact hrel y fun hyi => h.notMem_run hyi hy
  · rw [hstat, hwchan]
    by_cases hj : j = i
    · subst hj
      rw [Function.update_self, hmem, h.sleeps]
      by_cases hp : p = x
      · subst hp
        simp
      · rw [Function.update_of_ne hp, Function.update_of_ne hp]
        tauto
    · rw [Function.update_of_ne hj, h.sleeps]
      by_cases hp : p = x
      · subst hp
        have hpj : p ∉ B j := fun hpj => hj (h.bucket_unique hpj hxB)
        rw [h.sleeps] at hpj
        simp [hpj]
      · rw [Function.update_of_ne hp, Function.update_of_ne hp]
  · rw [hstat, hcur, List.mem_cons, h.runs]
    by_cases hp : p = x
    · subst hp
      have hne : s.cur ≠ some p := fun hc => by
        have := h.cur p hc
        rw [((h.sleeps i p).mp hxB).1] at this
        cases this
      simp [hne]
    · rw [Function.update_of_ne hp]
      simp [hp]
  · rw [hstat, hwchan]
    by_cases hp : p = x
    · subst hp
      simp
    · rw [Function.update_of_ne hp, Function.update_of_ne hp]
      exact h.wchan p
  · rw [hcur] at hp
    rw [hstat]
    by_cases hpx : p = x
    · subst hpx
      simp
    · rw [Function.update_of_ne hpx]
      exact h.cur p hp

/-! ## `wakeup` -/

/-- From here on nobody is met who waits for `chan`. -/
theorem wakeLoop_done {f : P → Procs P Chan H → Option (Procs P Chan H)} {chan : Chan} {i : H}
    {l : List P} {p q : Option P} {n : Nat} (hc : Chain s.link p l) (hn : l.length ≤ n)
    (hl : ∀ y ∈ l, s.wchan y ≠ some chan) : Procs.wakeLoop f chan i n p q s = some s := by
  induction l generalizing p q n with
  | nil =>
    have h0 : p = none := hc
    subst h0
    exact Procs.wakeLoop_none f chan i n q s
  | cons x l ih =>
    obtain ⟨rfl, hc⟩ := hc
    obtain ⟨n, rfl⟩ : ∃ k, n = k + 1 := ⟨n - 1, by simp at hn; omega⟩
    rw [Procs.wakeLoop_some, if_neg fun h => hl x (by simp) h.1]
    exact ih hc (by simpa using hn) fun y hy => hl y (by simp [hy])

/-- What `wakeLoop` does for a process that waits for its channel. -/
theorem wakeLoop_match (h : Queues ch s B R) {w : Chan → Procs P Chan H → Option (Procs P Chan H)}
    {chan : Chan} {i : H} {A C : List P} {x : P} (hB : B i = A ++ x :: C)
    (hx : s.wchan x = some chan) (n : Nat) :
    Procs.wakeLoop (Procs.setrun ch w) chan i (n + 1) (some x) A.getLast? s =
      (if s.runout ∧ ¬s.load x then
        w ch.runout { s.ready i A.getLast? x with runout := false }
      else some (s.ready i A.getLast? x)).bind
        (Procs.wakeLoop (Procs.setrun ch w) chan i n C.head? A.getLast?) := by
  have hxB : x ∈ B i := by simp [hB]
  have hbi := h.bucket i
  rw [hB] at hbi
  have hsp : s.link x = C.head? := hbi.right.2.head_eq
  rw [← setrun_unlinked h hxB, hsp]
  · rw [Procs.wakeLoop_some, if_pos ⟨hx, by rw [((h.sleeps i x).mp hxB).1]; simp⟩, hsp]
  · intro y hy
    rw [hB]
    exact List.mem_append_left _ (List.mem_of_getLast? hy)

theorem wakeLoop_other {f : P → Procs P Chan H → Option (Procs P Chan H)} {chan : Chan} {i : H}
    {A C : List P} {x : P} (hc : Chain s.link (s.slpque i) (A ++ x :: C))
    (hx : s.wchan x ≠ some chan) (q : Option P) (n : Nat) :
    Procs.wakeLoop f chan i (n + 1) (some x) q s =
      Procs.wakeLoop f chan i n C.head? (A ++ [x]).getLast? s := by
  rw [Procs.wakeLoop_some, if_neg fun h => hx h.1, hc.right.2.head_eq]
  simp

/-- The loop where no process that is swapped out is made known to the swapper. -/
theorem wakeLoop_quiet {w : Chan → Procs P Chan H → Option (Procs P Chan H)} {chan : Chan} {i : H}
    {A C : List P} {q : Option P} {n : Nat} (h : Queues ch s B R) (hro : s.runout = false)
    (hB : B i = A ++ C) (hn : C.length ≤ n)
    (hq : ∀ y, C.head? = some y → s.wchan y = some chan → q = A.getLast?) :
    ∃ s' R', Procs.wakeLoop (Procs.setrun ch w) chan i n C.head? q s = some s' ∧
      Queues ch s' (Function.update B i (A ++ C.filter fun y => s.wchan y ≠ some chan)) R' ∧
      (∀ y, s'.wchan y = if y ∈ C ∧ s.wchan y = some chan then none else s.wchan y) ∧
      s'.runout = false ∧ R ⊆ R' ∧ ∀ y ∈ C, s.wchan y = some chan → y ∈ R' := by
  induction C generalizing s A q n B R with
  | nil =>
    refine ⟨s, R, ?_, ?_, by simp, hro, fun _ h => h, by simp⟩
    · exact Procs.wakeLoop_none _ _ _ _ _ _
    · rw [List.filter_nil, ← hB, Function.update_eq_self]
      exact h
  | cons x C ih =>
    obtain ⟨n, rfl⟩ : ∃ k, n = k + 1 := ⟨n - 1, by simp at hn; omega⟩
    rw [List.length_cons] at hn
    have hbi := h.bucket i
    rw [hB] at hbi
    by_cases hx : s.wchan x = some chan
    · obtain rfl := hq x rfl hx
      have hxC : x ∉ C := (List.nodup_cons.mp (List.nodup_append.mp hbi.nodup).2.1).1
      have hrest := ready_rest s i A.getLast? x
      obtain ⟨s', R', he, hq', hw, hro', hR, hC⟩ := ih (ready_queues h hB)
        (hrest.2.2.2.2.2.trans hro) (Function.update_self _ _ _) (Nat.le_of_succ_le_succ hn)
        fun _ _ _ => rfl
      rw [hrest.2.1] at hq' hw hC
      have hne : ∀ y ∈ C, Function.update s.wchan x none y = s.wchan y := by
        intro y hy
        refine Function.update_of_ne ?_ _ _
        rintro rfl
        exact hxC hy
      refine ⟨s', R', ?_, ?_, fun y => ?_, hro', fun y hy => hR (by simp [hy]), fun y hy hyc => ?_⟩
      · rw [List.head?_cons, wakeLoop_match h hB hx, if_neg (by simp [hro])]
        exact he
      · rw [Function.update_idem] at hq'
        have hf : (x :: C).filter (fun y => s.wchan y ≠ some chan) =
            C.filter fun y => Function.update s.wchan x none y ≠ some chan := by
          rw [List.filter_cons_of_neg (by simp [hx])]
          refine List.filter_congr fun y hy => ?_
          rw [hne y hy]
        rw [hf]
        exact hq'
      · rw [hw]
        by_cases hy : y = x
        · subst hy
          simp [hx]
        · rw [Function.update_of_ne hy]
          simp [hy]
      · rcases List.mem_cons.mp hy with rfl | hy
        · exact hR (by simp)
        · exact hC y hy (by rw [hne y hy]; exact hyc)
    · have hB' : B i = (A ++ [x]) ++ C := by rw [hB]; simp
      obtain ⟨s', R', he, hq', hw, hro', hR, hC⟩ := ih h hro hB' (Nat.le_of_succ_le_succ hn)
        fun _ _ _ => rfl
      refine ⟨s', R', ?_, ?_, fun y => ?_, hro', hR, fun y hy hyc => ?_⟩
      · rw [List.head?_cons, wakeLoop_other hbi hx]
        exact he
      · rw [List.filter_cons_of_pos (by simpa using hx)]
        rw [List.append_assoc, List.singleton_append] at hq'
        exact hq'
      · rw [hw]
        by_cases hy : y = x
        · subst hy
          simp [hx]
        · simp [hy]
      · rcases List.mem_cons.mp hy with rfl | hy
        · exact absurd hyc hx
        · exact hC y hy hyc

/-- A process that waits for a channel is on the list of the channel. -/
theorem Queues.mem_of_wchan (h : Queues ch s B R) {y : P} {c : Chan} (hy : s.wchan y = some c) :
    y ∈ B (ch.hash c) :=
  (h.sleeps _ y).mpr ⟨(h.wchan y).mp (by simp [hy]), c, hy, rfl⟩

theorem Queues.of_eq (h : Queues ch s B R) {B' : H → List P} (hB : ∀ i, B i = B' i) :
    Queues ch s B' R := by
  have he : B = B' := funext hB
  rw [← he]
  exact h

theorem Queues.runout (h : Queues ch s B R) (b : Bool) : Queues ch { s with runout := b } B R :=
  ⟨h.bucket, h.runq, h.sleeps, h.runs, h.wchan, h.cur⟩

theorem wakeup_quiet (h : Queues ch s B R) (hro : s.runout = false) (d : Nat) (chan : Chan) :
    ∃ s' R', Procs.wakeup ch (d + 1) chan s = some s' ∧
      Queues ch s' (fun j => (B j).filter fun y => s.wchan y ≠ some chan) R' ∧
      (∀ y, s'.wchan y = if s.wchan y = some chan then none else s.wchan y) ∧
      s'.runout = false ∧ R ⊆ R' ∧ ∀ y, s.wchan y = some chan → y ∈ R' := by
  have hlen := nodup_length_le (h.bucket (ch.hash chan)).nodup
  have hn : (B (ch.hash chan)).length ≤ 2 * Fintype.card P := by omega
  have hq : ∀ y, (B (ch.hash chan)).head? = some y → s.wchan y = some chan →
      none = ([] : List P).getLast? := fun _ _ _ => rfl
  obtain ⟨s', R', he, hq, hw, hro', hR, hC⟩ :=
    wakeLoop_quiet (w := Procs.wakeup ch d) h hro (List.nil_append _).symm hn hq
  refine ⟨s', R', ?_, hq.of_eq fun j => ?_, fun y => ?_, hro', hR, fun y hy => ?_⟩
  · unfold Procs.wakeup
    rw [(h.bucket (ch.hash chan)).head_eq]
    exact he
  · by_cases hj : j = ch.hash chan
    · subst hj
      simp
    · rw [Function.update_of_ne hj, List.filter_eq_self.mpr]
      intro y hy
      have hne : s.wchan y ≠ some chan := fun hc => hj (h.bucket_unique hy (h.mem_of_wchan hc))
      simpa using hne
  · rw [hw]
    by_cases hy : s.wchan y = some chan
    · rw [if_pos ⟨h.mem_of_wchan hy, hy⟩, if_pos hy]
    · rw [if_neg fun hc => hy hc.2, if_neg hy]
  · exact hC y (h.mem_of_wchan hy) hy

/-- The walk of `wakeup` along the list, after `a`: the first process that is swapped out and is
woken has the swapper next to it, after it or before it, and a process that `wakeup` has still to
wake is missed or the list is cut. -/
def reenter (ro chan : Chan) (wchan : P → Option Chan) (load : P → Bool) :
    Option P → List P → Prop
  | _, [] => False
  | a, x :: l =>
    if wchan x = some chan then
      if load x then reenter ro chan wchan load a l
      else
        (l.head?.bind wchan = some ro ∧ ∃ y ∈ l, wchan y = some chan) ∨
          (a.bind wchan = some ro ∧ l.head?.bind wchan = some chan)
    else reenter ro chan wchan load (some x) l

theorem getLast?_filter_of_last {A : List P} {f : P → Bool} (h : ∀ a, A.getLast? = some a → f a) :
    (A.filter f).getLast? = A.getLast? := by
  rcases List.eq_nil_or_concat A with rfl | ⟨A, a, rfl⟩
  · rfl
  · rw [List.concat_eq_append] at h ⊢
    have ha := h a (by simp)
    simp [List.filter_append, ha]

/-- The rest of the loop after the swapper was woken for `x`. -/
theorem wakeLoop_nested {d : Nat} {chan : Chan} {A C : List P} {x : P} {n : Nat}
    (h : Queues ch s B R) (hB : B (ch.hash chan) = A ++ x :: C)
    (hA : ∀ y ∈ A, s.wchan y ≠ some chan) (hx : s.wchan x = some chan)
    (hn : Fintype.card P + C.length ≤ n)
    (hre : chan ≠ ch.runout →
      ¬((C.head?.bind s.wchan = some ch.runout ∧ ∃ y ∈ C, s.wchan y = some chan) ∨
        (A.getLast?.bind s.wchan = some ch.runout ∧ C.head?.bind s.wchan = some chan))) :
    ∃ s' B' R', (Procs.wakeup ch (d + 1) ch.runout
        { s.ready (ch.hash chan) A.getLast? x with runout := false }).bind
        (Procs.wakeLoop (Procs.setrun ch (Procs.wakeup ch (d + 1))) chan (ch.hash chan) n C.head?
          A.getLast?) = some s' ∧
      Queues ch s' B' R' ∧ ∀ y, s'.wchan y ≠ some chan := by
  have hbi := h.bucket (ch.hash chan)
  rw [hB] at hbi
  have hrest := ready_rest s (ch.hash chan) A.getLast? x
  have hready := (ready_queues h hB).runout false
  have hxA : x ∉ A := fun hxA => hA x hxA hx
  have hxC : x ∉ C := (List.nodup_cons.mp (List.nodup_append.mp hbi.nodup).2.1).1
  obtain ⟨s₂, R₂, he, hq₂, hw₂, hro₂, -, hwoken⟩ := wakeup_quiet hready rfl d ch.runout
  dsimp only at hw₂ hq₂ hwoken
  rw [hrest.2.1] at hw₂ hq₂ hwoken
  rw [he, Option.bind_some]
  -- the processes of the list other than `x` are woken if they wait for `runout`
  have hw : ∀ y ∈ A ++ C, s₂.wchan y = if s.wchan y = some ch.runout then none else s.wchan y := by
    intro y hy
    have hne : y ≠ x := by
      rintro rfl
      rcases List.mem_append.mp hy with hy | hy
      · exact hxA hy
      · exact hxC hy
    rw [hw₂, Function.update_of_ne hne]
  by_cases hm : ∃ y, s₂.wchan y = some chan
  · -- then `chan` is not `runout`, and a process that is not yet woken is still to come
    have hne : chan ≠ ch.runout := by
      rintro rfl
      obtain ⟨y, hy⟩ := hm
      rw [hw₂] at hy
      split at hy
      · cases hy
      · contradiction
    let g : P → Bool := fun y => Function.update s.wchan x none y ≠ some ch.runout
    have hB₂ : (fun j => ((Function.update B (ch.hash chan) (A ++ C)) j).filter g) (ch.hash chan) =
        A.filter g ++ C.filter g := by
      dsimp only
      rw [Function.update_self, List.filter_append]
    have hin : ∀ y, s₂.wchan y = some chan → y ∈ C.filter g ∧ s.wchan y = some chan := by
      intro y hy
      have hyB := hq₂.mem_of_wchan hy
      have hyB' : y ∈ A.filter g ++ C.filter g := by
        rw [← hB₂]
        exact hyB
      have hAC : y ∈ A ++ C := by
        rw [← List.filter_append] at hyB'
        exact List.mem_of_mem_filter hyB'
      have hys : s.wchan y = some chan := by
        rw [hw y hAC] at hy
        split at hy
        · cases hy
        · exact hy
      rcases List.mem_append.mp hyB' with hyA | hyC
      · exact absurd hys (hA y (List.mem_of_mem_filter hyA))
      · exact ⟨hyC, hys⟩
    obtain ⟨hno₁, hno₂⟩ := not_or.mp (hre hne)
    obtain ⟨y₀, hy₀⟩ := hm
    obtain ⟨hy₀C, hy₀s⟩ := hin y₀ hy₀
    cases C with
    | nil => cases hy₀C
    | cons z C =>
      have hz : s.wchan z ≠ some ch.runout :=
        fun hz => hno₁ ⟨hz, y₀, List.mem_of_mem_filter hy₀C, hy₀s⟩
      have hzx : z ≠ x := by
        rintro rfl
        exact hxC (by simp)
      have hgz : g z = true := by
        have : Function.update s.wchan x none z ≠ some ch.runout := by
          rw [Function.update_of_ne hzx]
          exact hz
        simpa [g] using this
      have hhead : ((z :: C).filter g).head? = some z := by
        rw [List.filter_cons_of_pos hgz]
        rfl
      have hlast : ∀ y, ((z :: C).filter g).head? = some y → s₂.wchan y = some chan →
          A.getLast? = (A.filter g).getLast? := by
        intro y hy hyc
        rw [hhead] at hy
        cases hy
        rw [getLast?_filter_of_last]
        intro a ha
        have hax : a ≠ x := by
          rintro rfl
          exact hxA (List.mem_of_getLast? ha)
        have : Function.update s.wchan x none a ≠ some ch.runout := by
          rw [Function.update_of_ne hax]
          intro hro
          refine hno₂ ⟨?_, (hin _ hyc).2⟩
          rw [ha]
          exact hro
        simpa [g] using this
      have hlen : ((z :: C).filter g).length ≤ n :=
        le_trans (List.length_filter_le _ _) (by omega)
      obtain ⟨s', R', he', hq', hw', -⟩ := wakeLoop_quiet (w := Procs.wakeup ch (d + 1)) hq₂ hro₂
        hB₂ hlen hlast
      rw [hhead] at he'
      refine ⟨s', _, R', he', hq', fun y hy => ?_⟩
      rw [hw'] at hy
      split at hy
      · cases hy
      · rename_i hnot
        exact hnot ⟨(hin y hy).1, hy⟩
  · have hnone : ∀ y, s₂.wchan y ≠ some chan := fun y hy => hm ⟨y, hy⟩
    refine ⟨s₂, _, R₂, ?_, hq₂, hnone⟩
    cases C with
    | nil =>
      exact Procs.wakeLoop_none _ _ _ _ _ _
    | cons z C =>
      obtain ⟨l, hl⟩ : ∃ l, Chain s₂.link (some z) l := by
        have hzx : z ≠ x := by
          rintro rfl
          exact hxC (by simp)
        by_cases hz : s.wchan z = some ch.runout
        · have hzR := hwoken z (by rw [Function.update_of_ne hzx]; exact hz)
          obtain ⟨_, b, -, hc⟩ := hq₂.runq.of_mem hzR
          exact ⟨_, hc⟩
        · have hzB : z ∈ B (ch.hash chan) := by simp [hB]
          obtain ⟨-, c, hc, -⟩ := (h.sleeps _ z).mp hzB
          have hz₂ : s₂.wchan z = some c := by rw [hw z (by simp), if_neg hz, hc]
          obtain ⟨_, b, -, hc⟩ := (hq₂.bucket _).of_mem (hq₂.mem_of_wchan hz₂)
          exact ⟨_, hc⟩
      have hlen := nodup_length_le hl.nodup
      exact wakeLoop_done hl (by omega) fun y _ => hnone y

theorem wakeLoop_spec {d : Nat} {chan : Chan} {A C : List P} {n : Nat} (h : Queues ch s B R)
    (hB : B (ch.hash chan) = A ++ C) (hA : ∀ y ∈ A, s.wchan y ≠ some chan)
    (hn : Fintype.card P + C.length ≤ n) {f : P → Option Chan} (hf : ∀ y ∈ A ++ C, s.wchan y = f y)
    (hre : s.runout = true → chan ≠ ch.runout → ¬reenter ch.runout chan f s.load A.getLast? C) :
    ∃ s' B' R', Procs.wakeLoop (Procs.setrun ch (Procs.wakeup ch (d + 1))) chan (ch.hash chan) n
        C.head? A.getLast? s = some s' ∧
      Queues ch s' B' R' ∧ ∀ y, s'.wchan y ≠ some chan := by
  induction C generalizing s A n B R with
  | nil =>
    refine ⟨s, B, R, ?_, h, fun y hy => ?_⟩
    · exact Procs.wakeLoop_none _ _ _ _ _ _
    · have hm := h.mem_of_wchan hy
      rw [hB, List.append_nil] at hm
      exact hA y hm hy
  | cons x C ih =>
    obtain ⟨n, rfl⟩ : ∃ k, n = k + 1 := ⟨n - 1, by simp at hn; omega⟩
    rw [List.length_cons] at hn
    have hbi := h.bucket (ch.hash chan)
    rw [hB] at hbi
    by_cases hx : s.wchan x = some chan
    · have hxC : x ∉ C := (List.nodup_cons.mp (List.nodup_append.mp hbi.nodup).2.1).1
      have hxA : x ∉ A := fun hxA => hA x hxA hx
      have hfx : f x = some chan := by
        rw [← hf x (by simp)]
        exact hx
      rw [List.head?_cons, wakeLoop_match h hB hx]
      by_cases hro : s.runout ∧ ¬s.load x
      · rw [if_pos hro]
        refine wakeLoop_nested h hB hA hx (by omega) fun hne => ?_
        have h3 := hre hro.1 hne
        rw [reenter, if_pos hfx, if_neg hro.2] at h3
        have hbind : ∀ o : Option P, (∀ y, o = some y → y ∈ A ++ x :: C) →
            o.bind s.wchan = o.bind f := by
          intro o ho
          cases o with
          | none => rfl
          | some y => exact hf y (ho y rfl)
        rw [hbind C.head? fun y hy => by simp [List.mem_of_mem_head? hy],
          hbind A.getLast? fun y hy => by simp [List.mem_of_getLast? hy]]
        rintro (⟨h4, y, hy, hyc⟩ | h4)
        · exact h3 (.inl ⟨h4, y, hy, by rw [← hf y (by simp [hy])]; exact hyc⟩)
        · exact h3 (.inr h4)
      · rw [if_neg hro, Option.bind_some]
        have hrest := ready_rest s (ch.hash chan) A.getLast? x
        have hupd : ∀ y ∈ A ++ C, (s.ready (ch.hash chan) A.getLast? x).wchan y = s.wchan y := by
          intro y hy
          rw [hrest.2.1, Function.update_of_ne]
          rintro rfl
          rcases List.mem_append.mp hy with hy | hy
          · exact hxA hy
          · exact hxC hy
        refine ih (ready_queues h hB) (Function.update_self _ _ _) (fun y hy => ?_) (by omega)
          (fun y hy => ?_) fun h1 h2 => ?_
        · rw [hupd y (by simp [hy])]
          exact hA y hy
        · rw [hupd y hy]
          exact hf y (by simp at hy ⊢; tauto)
        · rw [hrest.2.2.2.2.2] at h1
          have hload : s.load x = true := by
            by_contra hl
            exact hro ⟨h1, hl⟩
          have h3 := hre h1 h2
          rw [reenter, if_pos hfx, if_pos hload] at h3
          rw [hrest.2.2.1]
          exact h3
    · have hB' : B (ch.hash chan) = (A ++ [x]) ++ C := by rw [hB]; simp
      have hfx : f x ≠ some chan := by
        rw [← hf x (by simp)]
        exact hx
      have hA' : ∀ y ∈ A ++ [x], s.wchan y ≠ some chan := by
        intro y hy
        rcases List.mem_append.mp hy with hy | hy
        · exact hA y hy
        · rw [List.mem_singleton.mp hy]
          exact hx
      obtain ⟨s', B', R', he, hq, hw⟩ := ih (n := n) h hB' hA' (by omega)
        (fun y hy => hf y (by simpa using hy)) fun h1 h2 => by
          have h3 := hre h1 h2
          rw [reenter, if_neg hfx] at h3
          simpa using h3
      refine ⟨s', B', R', ?_, hq, hw⟩
      rw [List.head?_cons, wakeLoop_other hbi hx]
      exact he

/-- The list from `h` on, of at most `n` processes. -/
def Procs.walk (s : Procs P Chan H) : Nat → Option P → List P
  | 0, _ => []
  | _, none => []
  | n + 1, some p => p :: s.walk n (s.link p)

theorem walk_eq {l : List P} {p : Option P} {n : Nat} (hc : Chain s.link p l) (hn : l.length ≤ n) :
    s.walk n p = l := by
  induction l generalizing p n with
  | nil =>
    have h0 : p = none := hc
    subst h0
    cases n <;> rfl
  | cons x l ih =>
    obtain ⟨rfl, hc⟩ := hc
    obtain ⟨n, rfl⟩ : ∃ k, n = k + 1 := ⟨n - 1, by simp at hn; omega⟩
    rw [Procs.walk, ih hc (by simpa using hn)]

/-- The `wakeup` of `chan` is caught by the `wakeup` of the swapper that it leads to. -/
def Procs.clash (ch : Chans Chan H) (s : Procs P Chan H) (chan : Chan) : Prop :=
  s.runout = true ∧ chan ≠ ch.runout ∧
    reenter ch.runout chan s.wchan s.load none (s.walk (Fintype.card P) (s.slpque (ch.hash chan)))

theorem wakeup_spec (h : Queues ch s B R) {chan : Chan} (hcl : ¬s.clash ch chan) (d : Nat) :
    ∃ s' B' R', Procs.wakeup ch (d + 2) chan s = some s' ∧ Queues ch s' B' R' ∧
      ∀ y, s'.wchan y ≠ some chan := by
  have hb := h.bucket (ch.hash chan)
  have hlen := nodup_length_le hb.nodup
  have hre : s.runout = true → chan ≠ ch.runout →
      ¬reenter ch.runout chan s.wchan s.load ([] : List P).getLast? (B (ch.hash chan)) := by
    intro h1 h2 h3
    refine hcl ⟨h1, h2, ?_⟩
    rw [walk_eq hb hlen]
    exact h3
  have hn : Fintype.card P + (B (ch.hash chan)).length ≤ 2 * Fintype.card P := by omega
  unfold Procs.wakeup
  rw [hb.head_eq]
  exact wakeLoop_spec h (List.nil_append _).symm (by simp) hn (fun _ _ => rfl) hre

/-! ## `setrun`, `sleep` and `swtch` -/

/-- A process that does not sleep is put on `runq`, while `c` runs. -/
theorem setrq_queues (h : Queues ch s B R) {p : P} (hp : s.wchan p = none) {c : Option P}
    (hcp : c ≠ some p) (hc : ∀ y, y ≠ p → (c = some y ↔ s.cur = some y)) :
    ∃ s' R', (({ s with cur := c } : Procs P Chan H).setStat p .run).setrq p = some s' ∧
      Queues ch s' B R' ∧ s'.load = s.load ∧ s'.runout = s.runout := by
  have hns : s.stat p ≠ .sleep := fun hs => by
    have := (h.wchan p).mpr hs
    rw [hp] at this
    cases this
  have hpB : ∀ i, p ∉ B i := fun i hi => hns ((h.sleeps i p).mp hi).1
  -- the state with `p` marked, whatever `runq` is
  have hmark : ∀ (f : P → Option P) (r : Option P) (R' : List P),
      (∀ i, Chain f (s.slpque i) (B i)) → Chain f r R' → (∀ y, y ∈ R' ↔ y = p ∨ y ∈ R) →
      Queues ch { s with
        cur := c
        stat := Function.update s.stat p .run
        link := f
        runq := r } B R' := by
    intro f r R' hf hr hR'
    refine ⟨hf, hr, fun i y => ?_, fun y => ?_, fun y => ?_, fun y hy => ?_⟩
    · rw [h.sleeps]
      dsimp only
      by_cases hy : y = p
      · subst hy
        simp [hp]
      · rw [Function.update_of_ne hy]
    · rw [hR', h.runs]
      dsimp only
      by_cases hy : y = p
      · subst hy
        simp [hcp]
      · have hcy := hc y hy
        rw [Function.update_of_ne hy]
        simp only [hy, false_or, ne_eq, hcy]
    · rw [h.wchan]
      dsimp only
      by_cases hy : y = p
      · subst hy
        simp [hns]
      · rw [Function.update_of_ne hy]
    · dsimp only at hy ⊢
      have hyp : y ≠ p := by
        rintro rfl
        exact hcp hy
      rw [Function.update_of_ne hyp]
      exact h.cur y ((hc y hyp).mp hy)
  have hrunq : Chain (({ s with cur := c } : Procs P Chan H).setStat p .run).link s.runq R := h.runq
  by_cases hpR : p ∈ R
  · refine ⟨({ s with cur := c } : Procs P Chan H).setStat p .run, R, ?_,
      hmark s.link s.runq R h.bucket h.runq fun y => ?_, rfl, rfl⟩
    · unfold Procs.setrq
      have hon := onQueue_eq p hrunq (nodup_length_le hrunq.nodup)
      have hon' : (({ s with cur := c } : Procs P Chan H).setStat p .run).onQueue p
          (Fintype.card P) (({ s with cur := c } : Procs P Chan H).setStat p .run).runq =
            some (decide (p ∈ R)) := hon
      rw [hon']
      simp [hpR]
    · constructor
      · exact .inr
      · rintro (rfl | hy)
        · exact hpR
        · exact hy
  · refine ⟨_, p :: R, setrq_eq hrunq hpR, ?_, rfl, rfl⟩
    refine hmark (Function.update s.link p s.runq) (some p) (p :: R) (fun i => ?_)
      (h.runq.push hpR) fun y => List.mem_cons
    refine (h.bucket i).congr fun y hy => Function.update_of_ne ?_ _ _
    rintro rfl
    exact hpB i hy

theorem setrun_spec (h : Queues ch s B R) {p : P} (hfree : ¬(s.stat p = .free ∨ s.stat p = .zomb))
    (hcur : s.cur ≠ some p) (hcl : ∀ w, s.wchan p = some w → ¬s.clash ch w) (d : Nat) :
    ∃ s' B' R', Procs.setrun ch (Procs.wakeup ch (d + 2)) p s = some s' ∧ Queues ch s' B' R' := by
  unfold Procs.setrun
  rw [if_neg hfree]
  cases hw : s.wchan p with
  | some w =>
    obtain ⟨s', B', R', he, hq, -⟩ := wakeup_spec h (hcl w hw) d
    exact ⟨s', B', R', he, hq⟩
  | none =>
    obtain ⟨s₁, R₁, he, hq₁, hload, hrun⟩ := setrq_queues h hw hcur fun _ _ => Iff.rfl
    have he' : (s.setStat p .run).setrq p = some s₁ := he
    dsimp only
    rw [he', Option.bind_eq_bind, Option.bind_some]
    by_cases hro : s₁.runout ∧ ¬s₁.load p
    · rw [if_pos hro]
      obtain ⟨s', R', hs', hq', -⟩ := wakeup_quiet (hq₁.runout false) rfl (d + 1) ch.runout
      exact ⟨s', _, R', hs', hq'⟩
    · rw [if_neg hro]
      exact ⟨s₁, B, R₁, rfl, hq₁⟩

theorem enqueue_queues (h : Queues ch s B R) {p : P} (hcur : s.cur = some p) (chan : Chan)
    (pri : Int) :
    Queues ch (s.enqueue ch p chan pri)
      (Function.update B (ch.hash chan) (p :: B (ch.hash chan))) R := by
  have hrun := h.cur p hcur
  have hpB : ∀ i, p ∉ B i := fun i hi => by
    have := ((h.sleeps i p).mp hi).1
    rw [hrun] at this
    cases this
  have hpR : p ∉ R := fun hp => ((h.runs p).mp hp).2 hcur
  unfold Procs.enqueue Procs.setWchan Procs.setStat
  refine ⟨fun i => ?_, ?_, fun i y => ?_, fun y => ?_, fun y => ?_, fun y hy => ?_⟩
  · dsimp only
    by_cases hi : i = ch.hash chan
    · subst hi
      rw [Function.update_self, Function.update_self]
      exact (h.bucket _).push (hpB _)
    · rw [Function.update_of_ne hi, Function.update_of_ne hi]
      refine (h.bucket i).congr fun y hy => Function.update_of_ne ?_ _ _
      rintro rfl
      exact hpB i hy
  · refine h.runq.congr fun y hy => Function.update_of_ne ?_ _ _
    rintro rfl
    exact hpR hy
  · dsimp only
    by_cases hy : y = p
    · subst hy
      rw [Function.update_self, Function.update_self]
      by_cases hi : i = ch.hash chan
      · subst hi
        simp
      · rw [Function.update_of_ne hi]
        simp only [hpB i, true_and, Option.some.injEq, exists_eq_left', false_iff]
        exact fun he => hi he.symm
    · rw [Function.update_of_ne hy, Function.update_of_ne hy, ← h.sleeps i y]
      by_cases hi : i = ch.hash chan
      · subst hi
        simp [hy]
      · rw [Function.update_of_ne hi]
  · dsimp only
    rw [h.runs]
    by_cases hy : y = p
    · subst hy
      simp [hcur]
    · rw [Function.update_of_ne hy, hcur]
      have hne : p ≠ y := fun he => hy he.symm
      simp [hne]
  · dsimp only
    by_cases hy : y = p
    · subst hy
      simp
    · rw [Function.update_of_ne hy, Function.update_of_ne hy]
      exact h.wchan y
  · cases hy

theorem Queues.runin (h : Queues ch s B R) (b : Bool) : Queues ch { s with runin := b } B R :=
  ⟨h.bucket, h.runq, h.sleeps, h.runs, h.wchan, h.cur⟩

/-- What `wakeup` finds when `sleep` calls it for the swapper. -/
def Procs.asleep (ch : Chans Chan H) (s : Procs P Chan H) (p : P) (chan : Chan) (pri : Int) :
    Procs P Chan H :=
  { s.enqueue ch p chan pri with runin := false }

theorem sleep_spec (h : Queues ch s B R) {p : P} (hcur : s.cur = some p) {chan : Chan} {pri : Int}
    (hcl : pri > Procs.pzero → s.runin → ¬(s.asleep ch p chan pri).clash ch ch.runin) (d : Nat) :
    ∃ s' B' R', s.sleep ch (d + 2) p chan pri = some s' ∧ Queues ch s' B' R' := by
  have hq := enqueue_queues h hcur chan pri
  unfold Procs.sleep
  dsimp only
  by_cases hc : pri > Procs.pzero ∧ (s.enqueue ch p chan pri).runin
  · rw [if_pos hc]
    have hq' : Queues ch (s.asleep ch p chan pri) _ R := hq.runin false
    obtain ⟨s', B', R', he, hq', -⟩ := wakeup_spec hq' (hcl hc.1 hc.2) d
    exact ⟨s', B', R', he, hq'⟩
  · rw [if_neg hc]
    exact ⟨_, _, _, rfl, hq⟩

/-- What `best` finds is on the list, with the process before it. -/
theorem best_spec {l : List P} {p q : Option P} {k : Nat} {n : Int} {A : List P}
    {pp : Option (P × Option P)} (hc : Chain s.link p l) (hk : l.length ≤ k)
    (hq : q = A.getLast?)
    (hpp : ∀ x a, pp = some (x, a) → ∃ A' C', A ++ l = A' ++ x :: C' ∧ a = A'.getLast?) :
    ∃ r, s.best k p q pp n = some r ∧
      ∀ x a, r = some (x, a) → ∃ A' C', A ++ l = A' ++ x :: C' ∧ a = A'.getLast? := by
  induction l generalizing p q k n A pp with
  | nil =>
    have h0 : p = none := hc
    subst h0
    refine ⟨pp, ?_, hpp⟩
    unfold Procs.best
    rfl
  | cons y l ih =>
    obtain ⟨rfl, hc⟩ := hc
    obtain ⟨k, rfl⟩ : ∃ j, k = j + 1 := ⟨k - 1, by simp at hk; omega⟩
    have hk' : l.length ≤ k := by simpa using hk
    have hlast : some y = (A ++ [y]).getLast? := by simp
    have happ : A ++ y :: l = (A ++ [y]) ++ l := by simp
    unfold Procs.best
    rw [happ] at hpp ⊢
    split
    · refine ih hc hk' hlast fun x a hxa => ?_
      cases hxa
      exact ⟨A, l, by simp, hq⟩
    · exact ih hc hk' hlast hpp

theorem swtch_spec (h : Queues ch s B R) (hcur : s.cur = none) :
    ∃ s' R', s.swtch = some s' ∧ Queues ch s' B R' := by
  have hstart : ∀ (x : P) (a : Option P), none = some (x, a) →
      ∃ A' C', [] ++ R = A' ++ x :: C' ∧ a = A'.getLast? := fun _ _ h => by cases h
  obtain ⟨r, hr, hrs⟩ := best_spec (q := none) (n := 128) h.runq (nodup_length_le h.runq.nodup) rfl
    hstart
  unfold Procs.swtch
  rw [hr]
  match r with
  | none => exact ⟨s, R, rfl, h⟩
  | some (p, q) =>
    obtain ⟨A, C, hR, hq⟩ := hrs p q rfl
    rw [List.nil_append] at hR
    subst hR
    have hrem := h.runq.remove
    rw [← hq] at hrem
    have hnd := h.runq.nodup
    have hpA : p ∉ A := fun hp => (List.nodup_append.mp hnd).2.2 p hp p (by simp) rfl
    have hpC : p ∉ C := (List.nodup_cons.mp (List.nodup_append.mp hnd).2.1).1
    have hstat := ((h.runs p).mp (by simp)).1
    have hdone : ∀ (f : P → Option P) (g : Option P), (∀ i, Chain f (s.slpque i) (B i)) →
        Chain f g (A ++ C) → Queues ch { s with link := f, runq := g, cur := some p } B (A ++ C) := by
      intro f g hf hg
      refine ⟨hf, hg, h.sleeps, fun y => ?_, h.wchan, fun y hy => ?_⟩
      · dsimp only
        have hy := h.runs y
        rw [hcur] at hy
        by_cases hyp : y = p
        · subst hyp
          simp [hpA, hpC]
        · have hne : p ≠ y := fun he => hyp he.symm
          simp only [List.mem_append, List.mem_cons, hyp, false_or] at hy
          simp only [List.mem_append, hy, ne_eq, Option.some.injEq, hne, not_false_eq_true, and_true,
            reduceCtorEq]
      · cases hy
        exact hstat
    cases q with
    | none => exact ⟨_, A ++ C, rfl, hdone s.link (s.link p) h.bucket hrem⟩
    | some q =>
      refine ⟨_, A ++ C, rfl, hdone _ s.runq (fun i => ?_) hrem⟩
      refine (h.bucket i).congr fun y hy => Function.update_of_ne ?_ _ _
      rintro rfl
      exact h.notMem_run hy (List.mem_append_left _ (List.mem_of_getLast? hq.symm))

/-- A process that is on no list is marked, while `c` runs. -/
theorem setStat_queues (h : Queues ch s B R) {p : P} {st : Stat} (hs : st ≠ .sleep) (hr : st ≠ .run)
    (hp : s.wchan p = none) (hpR : p ∉ R) {c : Option P} (hcp : c ≠ some p)
    (hc : ∀ y, y ≠ p → (c = some y ↔ s.cur = some y)) :
    Queues ch { s.setStat p st with cur := c } B R := by
  have hns : s.stat p ≠ .sleep := fun hs => by
    have := (h.wchan p).mpr hs
    rw [hp] at this
    cases this
  unfold Procs.setStat
  refine ⟨h.bucket, h.runq, fun i y => ?_, fun y => ?_, fun y => ?_, fun y hy => ?_⟩
  · rw [h.sleeps]
    dsimp only
    by_cases hy : y = p
    · subst hy
      simp [hp]
    · rw [Function.update_of_ne hy]
  · dsimp only
    by_cases hy : y = p
    · subst hy
      simp [hr, hpR]
    · have hcy := hc y hy
      rw [Function.update_of_ne hy, h.runs]
      simp only [ne_eq, hcy]
  · rw [h.wchan]
    dsimp only
    by_cases hy : y = p
    · subst hy
      simp [hns, hs]
    · rw [Function.update_of_ne hy]
  · dsimp only at hy ⊢
    have hyp : y ≠ p := by
      rintro rfl
      exact hcp hy
    rw [Function.update_of_ne hyp]
    exact h.cur y ((hc y hyp).mp hy)

theorem Queues.wchan_none (h : Queues ch s B R) {p : P} (hp : s.stat p ≠ .sleep) :
    s.wchan p = none := by
  cases hw : s.wchan p with
  | none => rfl
  | some c => exact absurd ((h.wchan p).mp (by simp [hw])) hp

/-- The process that runs ends or is stopped. -/
theorem leave_queues (h : Queues ch s B R) {p : P} (hc : s.cur = some p) {st : Stat}
    (hs : st ≠ .sleep) (hr : st ≠ .run) : Queues ch { s.setStat p st with cur := none } B R := by
  refine setStat_queues h hs hr (h.wchan_none (by rw [h.cur p hc]; simp))
    (fun hp => ((h.runs p).mp hp).2 hc) (by simp) fun y hy => ?_
  have hne : p ≠ y := fun he => hy he.symm
  simp [hc, hne]

end Lists

/-! ## Runs -/

/-- No `wakeup` is caught by that of the swapper, and `setrun` is not for the process that runs. -/
def Safe (ch : Chans Chan H) (s : Procs P Chan H) : Procs.Act P Chan → Prop
  | .wakeup chan => ¬s.clash ch chan
  | .setrun p => s.cur ≠ some p ∧ ∀ w, s.wchan p = some w → ¬s.clash ch w
  | .sleep chan pri => ∀ p, s.cur = some p → pri > Procs.pzero → s.runin →
      ¬(s.asleep ch p chan pri).clash ch ch.runin
  | _ => True

def Sound (ch : Chans Chan H) (s : Procs P Chan H) : Prop := ∃ B R, Queues ch s B R

theorem step_sound (ch : Chans Chan H) (d : Nat) {s : Procs P Chan H} (h : Sound ch s)
    {a : Procs.Act P Chan} (hsafe : Safe ch s a) :
    s.step ch (d + 2) a = .error .disabled ∨
      ∃ s', s.step ch (d + 2) a = .ok (s', ()) ∧ Sound ch s' := by
  obtain ⟨B, R, h⟩ := h
  cases a with
  | sleep chan pri =>
    unfold Procs.step
    dsimp only
    cases hc : s.cur with
    | none => exact .inl rfl
    | some p =>
      obtain ⟨s', B', R', he, hq⟩ := sleep_spec h hc (hsafe p hc) d
      dsimp only
      rw [he]
      exact .inr ⟨s', rfl, B', R', hq⟩
  | wakeup chan =>
    obtain ⟨s', B', R', he, hq, -⟩ := wakeup_spec h hsafe d
    unfold Procs.step
    dsimp only
    rw [he]
    exact .inr ⟨s', rfl, B', R', hq⟩
  | setrun p =>
    unfold Procs.step
    dsimp only
    by_cases hf : s.stat p = .free ∨ s.stat p = .zomb
    · rw [if_pos hf]
      exact .inl rfl
    · obtain ⟨s', B', R', he, hq⟩ := setrun_spec h hf hsafe.1 hsafe.2 d
      rw [if_neg hf, he]
      exact .inr ⟨s', rfl, B', R', hq⟩
  | swtch =>
    unfold Procs.step
    dsimp only
    by_cases hc : s.cur = none
    · obtain ⟨s', R', he, hq⟩ := swtch_spec h hc
      rw [if_pos hc, he]
      exact .inr ⟨s', rfl, B, R', hq⟩
    · rw [if_neg hc]
      exact .inl rfl
  | qswtch =>
    unfold Procs.step
    dsimp only
    cases hc : s.cur with
    | none => exact .inl rfl
    | some p =>
      have hrun := h.cur p hc
      have hw := h.wchan_none (p := p) (by rw [hrun]; simp)
      obtain ⟨s', R', he, hq, -⟩ := setrq_queues h hw (c := none) (by simp) fun y hy => by
        have hne : p ≠ y := fun he => hy he.symm
        simp [hc, hne]
      unfold Procs.setStat at he
      dsimp only at he
      rw [← hrun, Function.update_eq_self] at he
      dsimp only
      rw [he]
      exact .inr ⟨s', rfl, B, R', hq⟩
  | runout => exact .inr ⟨_, rfl, B, R, h.runout true⟩
  | runin => exact .inr ⟨_, rfl, B, R, h.runin true⟩
  | load p b => exact .inr ⟨_, rfl, B, R, h.bucket, h.runq, h.sleeps, h.runs, h.wchan, h.cur⟩
  | setpri p n => exact .inr ⟨_, rfl, B, R, h.bucket, h.runq, h.sleeps, h.runs, h.wchan, h.cur⟩
  | newproc p =>
    unfold Procs.step
    dsimp only
    by_cases hf : s.stat p = .free
    · have hcur : s.cur ≠ some p := fun hc => by
        have := h.cur p hc
        rw [hf] at this
        cases this
      obtain ⟨s', R', he, hq, -⟩ :=
        setrq_queues h (h.wchan_none (by rw [hf]; simp)) hcur fun _ _ => Iff.rfl
      have he' : (s.setStat p .run).setrq p = some s' := he
      rw [if_pos hf, he']
      exact .inr ⟨s', rfl, B, R', hq⟩
    · rw [if_neg hf]
      exact .inl rfl
  | wait p =>
    unfold Procs.step
    dsimp only
    by_cases hz : s.stat p = .zomb
    · rw [if_pos hz]
      refine .inr ⟨_, rfl, B, R, setStat_queues h (by simp) (by simp)
        (h.wchan_none (by rw [hz]; simp)) (fun hp => ?_) (fun hc => ?_) fun _ _ => Iff.rfl⟩
      · have := ((h.runs p).mp hp).1
        rw [hz] at this
        cases this
      · have := h.cur p hc
        rw [hz] at this
        cases this
    · rw [if_neg hz]
      exact .inl rfl
  | exit =>
    unfold Procs.step
    dsimp only
    cases hc : s.cur with
    | none => exact .inl rfl
    | some p => exact .inr ⟨_, rfl, B, R, leave_queues h hc (by simp) (by simp)⟩
  | stop =>
    unfold Procs.step
    dsimp only
    cases hc : s.cur with
    | none => exact .inl rfl
    | some p => exact .inr ⟨_, rfl, B, R, leave_queues h hc (by simp) (by simp)⟩

/-- At first nobody sleeps, the lists are empty and no process but one can run. -/
structure Start (s : Procs P Chan H) : Prop where
  slpque : ∀ i, s.slpque i = none
  runq : s.runq = none
  wchan : ∀ p, s.wchan p = none
  stat : ∀ p, s.stat p ≠ .sleep
  cur : ∀ p, s.stat p = .run ↔ s.cur = some p

theorem Start.sound {s : Procs P Chan H} (hs : Start s) (ch : Chans Chan H) : Sound ch s := by
  refine ⟨fun _ => [], [], hs.slpque, hs.runq, fun i p => ?_, fun p => ?_, fun p => ?_,
    fun p hp => (hs.cur p).mpr hp⟩
  · simp [hs.stat p]
  · simp [hs.cur p]
  · simp [hs.wchan p, hs.stat p]

/-- Over every run whose steps are safe: who sleeps is once on the list of the channel and on no
other list, who can run and does not is once on `runq`, the lists end, the next step does not
panic or loop, and `wakeup` leaves nobody asleep on its channel. -/
theorem queues_sound (ch : Chans Chan H) (d : Nat) (s₀ : Procs P Chan H) (hs : Start s₀)
    (acts : List (Procs.Act P Chan))
    (hsafe : Meets (fun s a => s.step ch (d + 2) a) (Safe ch) s₀ acts) (s : Procs P Chan H)
    (outs : List Unit) (hrun : runs (fun s a => s.step ch (d + 2) a) s₀ acts = .ok (s, outs)) :
    (∃ (B : H → List P) (R : List P),
      (∀ i, Chain s.link (s.slpque i) (B i) ∧ (B i).Nodup) ∧ Chain s.link s.runq R ∧ R.Nodup ∧
      (∀ p c, s.stat p = .sleep → s.wchan p = some c →
        p ∉ R ∧ ∀ i, p ∈ B i ↔ i = ch.hash c) ∧
      (∀ p, s.stat p = .sleep → (s.wchan p).isSome) ∧
      ∀ p, s.stat p = .run → s.cur ≠ some p → p ∈ R ∧ ∀ i, p ∉ B i) ∧
    (∀ a, Safe ch s a → s.step ch (d + 2) a ≠ .error .lost) ∧
    ∀ chan s', Safe ch s (.wakeup chan) → s.step ch (d + 2) (.wakeup chan) = .ok (s', ()) →
      ∀ p, s'.stat p = .sleep → s'.wchan p ≠ some chan := by
  have hsound : Sound ch s := by
    refine runs_inv_of_meets (fun s a s' o h hsafe hstep => ?_) (hs.sound ch) hsafe hrun
    rcases step_sound ch d h hsafe with he | ⟨s₁, he, h₁⟩
    · rw [he] at hstep
      cases hstep
    · rw [he] at hstep
      cases hstep
      exact h₁
  refine ⟨?_, fun a ha hlost => ?_, fun chan s' ha hstep p _ => ?_⟩
  · obtain ⟨B, R, h⟩ := hsound
    refine ⟨B, R, fun i => ⟨h.bucket i, (h.bucket i).nodup⟩, h.runq, h.runq.nodup,
      fun p c hp hc => ⟨h.notMem_run (h.mem_of_wchan hc), fun i => ⟨fun hi => ?_, ?_⟩⟩,
      fun p => (h.wchan p).mpr, fun p hp hc => ⟨(h.runs p).mpr ⟨hp, hc⟩, fun i hi => ?_⟩⟩
    · exact h.bucket_unique hi (h.mem_of_wchan hc)
    · rintro rfl
      exact h.mem_of_wchan hc
    · exact h.notMem_run hi ((h.runs p).mpr ⟨hp, hc⟩)
  · rcases step_sound ch d hsound ha with he | ⟨s₁, he, -⟩
    · rw [he] at hlost
      cases hlost
    · rw [he] at hlost
      cases hlost
  · obtain ⟨B, R, h⟩ := hsound
    obtain ⟨s₁, B', R', he, -, hw⟩ := wakeup_spec h ha d
    unfold Procs.step at hstep
    dsimp only at hstep
    rw [he] at hstep
    cases hstep
    exact hw p

/-! ## The swapper between two processes -/

local instance neZeroThree : NeZero 3 := ⟨by decide⟩

/-- Process 0 runs; the channels are on one list, and 100 and 101 are `runout` and `runin`. -/
def swapper : Procs (Fin 3) Nat Unit where
  link := fun _ => none
  slpque := fun _ => none
  runq := none
  stat := fun p => if p = 0 then .run else .free
  wchan := fun _ => none
  load := fun _ => true
  pri := fun p => if p = 2 then 1 else if p = 0 then 2 else 3
  runout := false
  runin := false
  cur := some 0

def oneList : Chans Nat Unit := ⟨fun _ => (), 100, 101⟩

/-- Process 2 sleeps on 7, then process 0 on `runout`, then process 1 on 7, and process 1 is
swapped out. -/
def sleepers : List (Procs.Act (Fin 3) Nat) :=
  [.newproc 1, .newproc 2, .qswtch, .swtch, .sleep 7 10, .swtch, .runout, .sleep 100 10, .swtch,
    .sleep 7 10, .load 1 false]

theorem swapper_start : Start swapper := by
  refine ⟨fun _ => rfl, rfl, fun _ => rfl, fun p => ?_, fun p => ?_⟩
  · fin_cases p <;> decide
  · fin_cases p <;> decide

theorem queues_sound_sleepers : ∃ s outs,
    runs (fun s a => s.step oneList 2 a) swapper sleepers = .ok (s, outs) ∧
      s.slpque () = some 1 ∧ ∀ s', s.step oneList 2 (.wakeup 100) = .ok (s', ()) →
        ∀ p, s'.stat p = .sleep → s'.wchan p ≠ some 100 := by
  obtain ⟨s, outs, hrun⟩ : ∃ s outs,
      runs (fun s a => s.step oneList 2 a) swapper sleepers = .ok (s, outs) := ⟨_, _, rfl⟩
  have hsafe : Meets (fun s a => s.step oneList 2 a) (Safe oneList) swapper sleepers := by
    refine ⟨trivial, trivial, trivial, trivial, ?_, trivial, trivial, ?_, trivial, ?_, trivial,
      trivial⟩
    · exact fun _ _ h => absurd h (by decide)
    · exact fun _ _ h => absurd h (by decide)
    · exact fun _ _ h => absurd h (by decide)
  obtain ⟨-, -, hwake⟩ := queues_sound oneList 0 swapper swapper_start sleepers hsafe s outs hrun
  refine ⟨s, outs, hrun, ?_, fun s' => hwake 100 s' fun hcl => hcl.2.1 rfl⟩
  cases hrun
  rfl

/-- `wakeup` of 7 wakes process 1, and so process 0; it goes on from there, and leaves process 2
asleep on 7. -/
theorem wakeup_misses : ∃ s outs,
    runs (fun s a => s.step oneList 2 a) swapper (sleepers ++ [.wakeup 7]) = .ok (s, outs) ∧
      s.stat 2 = .sleep ∧ s.wchan 2 = some 7 := by
  obtain ⟨s, outs, hrun⟩ : ∃ s outs,
      runs (fun s a => s.step oneList 2 a) swapper (sleepers ++ [.wakeup 7]) = .ok (s, outs) :=
    ⟨_, _, rfl⟩
  refine ⟨s, outs, hrun, ?_, ?_⟩
  · cases hrun
    rfl
  · cases hrun
    rfl

end Venix.Kernel
