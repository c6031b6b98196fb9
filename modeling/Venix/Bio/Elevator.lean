/-
  The order that `disksort` gives to requests of one direction.

  The list of a drive is the sweep that the heads are on, and the next one, which begins below it
  (`Sweeps`). A request goes into the first where its cylinder is still ahead, and else into the
  next one. `disksort` does not look for the end of the sweep, though: a request below all others
  goes to the end of the list, which is wrong when the next sweep has begun there.
-/
import Mathlib.Data.List.TakeWhile
import Venix.Bio.Disksort

namespace Venix.Bio

open Venix.Lib

namespace Disk

variable {B : Type}

/-- The cylinders do not go down along the list. -/
def Sweep (c : B → BitVec 16) (l : List B) : Prop := l.Pairwise fun x y => c x ≤ c y

def TwoSweeps (c : B → BitVec 16) (l : List B) : Prop :=
  ∃ a b, l = a ++ b ∧ Sweep c a ∧ Sweep c b

/-- The sweep `a`, and the next one, all of which is behind the heads. -/
structure Sweeps (c : B → BitVec 16) (a b : List B) : Prop where
  now : Sweep c a
  next : Sweep c b
  behind : ∀ x ∈ b, ∀ y ∈ a, c x < c y
  first : a = [] → b = []

/-- Put into a sweep, after the requests of the same cylinder. -/
def insertSweep (c : B → BitVec 16) (bp : B) (l : List B) : List B :=
  l.orderedInsert (fun x y => c x < c y) bp

/-- Where a request belongs. -/
def inOrder (c : B → BitVec 16) (bp : B) : List B → List B → List B
  | [], _ => [bp]
  | h :: a, b =>
    if c h ≤ c bp then insertSweep c bp (h :: a) ++ b else h :: a ++ insertSweep c bp b

/-- A request in the direction `rw`, which is not below all others if the next sweep has begun. -/
def InTurn (rw : Bool) (dp : Drive B) (read : Bool) (cylin : BitVec 16) : Prop :=
  read = rw ∧ ∀ l, Chain dp.avForw dp.actf l → (∃ x ∈ l, dp.cylin x ≤ cylin) ∨ Sweep dp.cylin l

/-! ## Sweeps -/

variable {c c' : B → BitVec 16} {a b l : List B} {bp : B}

theorem Sweep.congr (h : Sweep c l) (heq : ∀ x ∈ l, c' x = c x) : Sweep c' l := by
  unfold Sweep at *
  refine h.imp_of_mem fun {x y} hx hy hxy => ?_
  rw [heq x hx, heq y hy]
  exact hxy

theorem Sweeps.congr (h : Sweeps c a b) (heq : ∀ x ∈ a ++ b, c' x = c x) : Sweeps c' a b := by
  refine ⟨h.now.congr fun x hx => heq x (by simp [hx]), h.next.congr fun x hx => heq x (by simp [hx]),
    fun x hx y hy => ?_, h.first⟩
  rw [heq x (by simp [hx]), heq y (by simp [hy])]
  exact h.behind x hx y hy

/-- Three requests that go down are not in two sweeps. -/
theorem not_twoSweeps {x y z : B} (hsub : [x, y, z].Sublist l) (hxy : c y < c x) (hyz : c z < c y) :
    ¬TwoSweeps c l := by
  rintro ⟨u, v, rfl, hu, hv⟩
  obtain ⟨l₁, l₂, hl, h1, h2⟩ := List.sublist_append_iff.1 hsub
  have hp1 := hu.sublist h1
  have hp2 := hv.sublist h2
  match l₁, l₂, hl with
  | [], _, rfl =>
    simp only [List.pairwise_cons] at hp2
    exact absurd (hp2.1 y (by simp)) (by simpa using hxy)
  | [_], _, hl =>
    cases hl
    simp only [List.pairwise_cons] at hp2
    exact absurd (hp2.1 z (by simp)) (by simpa using hyz)
  | [_, _], _, hl =>
    cases hl
    simp only [List.pairwise_cons] at hp1
    exact absurd (hp1.1 y (by simp)) (by simpa using hxy)
  | [_, _, _], _, hl =>
    cases hl
    simp only [List.pairwise_cons] at hp1
    exact absurd (hp1.1 y (by simp)) (by simpa using hxy)

/-- A request that is put into a sweep comes after those that are not above it. -/
theorem insertSweep_eq (c : B → BitVec 16) (bp : B) (l : List B) :
    insertSweep c bp l =
      l.takeWhile (fun x => c x ≤ c bp) ++ bp :: l.dropWhile (fun x => c x ≤ c bp) := by
  unfold insertSweep
  rw [List.orderedInsert_eq_take_drop]
  simp only [BitVec.not_lt]

theorem mem_insertSweep {x : B} : x ∈ insertSweep c bp l ↔ x = bp ∨ x ∈ l := by
  unfold insertSweep
  exact List.mem_orderedInsert _

/-- Behind the first request of a sweep that is above `bp`, all are. -/
theorem Sweep.above (h : Sweep c l) : ∀ x ∈ l.dropWhile (fun x => c x ≤ c bp), c bp < c x := by
  induction l with
  | nil =>
    intro x hx
    cases hx
  | cons y l ih =>
    obtain ⟨hy, hrest⟩ := List.pairwise_cons.1 h
    by_cases hle : c y ≤ c bp
    · rw [List.dropWhile_cons_of_pos (by simpa using hle)]
      exact ih hrest
    · rw [List.dropWhile_cons_of_neg (by simpa using hle)]
      intro x hx
      have hlt : c bp < c y := BitVec.not_le.1 hle
      rcases List.mem_cons.1 hx with rfl | hx
      · exact hlt
      · exact Nat.lt_of_lt_of_le hlt (hy x hx)

theorem takeWhile_le {x : B} (hx : x ∈ l.takeWhile (fun x => c x ≤ c bp)) : c x ≤ c bp := by
  simpa using List.mem_takeWhile_imp hx

theorem Sweep.insert (h : Sweep c l) : Sweep c (insertSweep c bp l) := by
  rw [insertSweep_eq]
  refine List.pairwise_append.2 ⟨h.sublist (List.takeWhile_sublist _), ?_, fun x hx y hy => ?_⟩
  · exact List.pairwise_cons.2 ⟨fun y hy => BitVec.le_of_lt (h.above y hy),
      h.sublist (List.dropWhile_sublist _)⟩
  · rcases List.mem_cons.1 hy with rfl | hy
    · exact takeWhile_le hx
    · exact BitVec.le_trans (takeWhile_le hx) (BitVec.le_of_lt (h.above y hy))

/-! ## The place in a sweep -/

/-- The walk along requests of the direction of `bp`. -/
theorem placeIn_cons {dp : Drive B} {ap : B} (hdir : dp.read ap = dp.read bp) (tp : Option B) :
    placeIn dp bp (ap :: l) tp =
      if dp.cylin ap ≤ dp.cylin bp ∧ tp.all (dp.cylin · ≤ dp.cylin ap) then placeIn dp bp l (some ap)
      else placeIn dp bp l tp := by
  rw [placeIn, hdir]
  cases dp.read bp <;> rfl

theorem placeIn_append {dp : Drive B} (hdir : ∀ x ∈ a, dp.read x = dp.read bp) (tp : Option B) :
    placeIn dp bp (a ++ b) tp = placeIn dp bp b (placeIn dp bp a tp) := by
  induction a generalizing tp with
  | nil => rfl
  | cons x a ih =>
    have hrest := ih fun y hy => hdir y (List.mem_cons_of_mem x hy)
    rw [List.cons_append, placeIn_cons (hdir x List.mem_cons_self),
      placeIn_cons (hdir x List.mem_cons_self)]
    split <;> exact hrest _

/-- Requests that are above `bp`, or below the place found before, are passed over. -/
theorem placeIn_pass {dp : Drive B} (hdir : ∀ x ∈ l, dp.read x = dp.read bp) (tp : Option B)
    (hpass : ∀ x ∈ l, dp.cylin bp < dp.cylin x ∨ ∃ t, tp = some t ∧ dp.cylin x < dp.cylin t) :
    placeIn dp bp l tp = tp := by
  induction l with
  | nil => rfl
  | cons x l ih =>
    rw [placeIn_cons (hdir x List.mem_cons_self), if_neg, ih
      (fun y hy => hdir y (List.mem_cons_of_mem x hy)) fun y hy => hpass y (List.mem_cons_of_mem x hy)]
    rintro ⟨hle, hall⟩
    rcases hpass x List.mem_cons_self with hlt | ⟨t, rfl, hlt⟩
    · exact absurd hle (by simpa using hlt)
    · simp only [Option.all_some, decide_eq_true_eq] at hall
      exact absurd hall (by simpa using hlt)

/-- Along a sweep, the last request that is not above `bp`. -/
theorem placeIn_sweep {dp : Drive B} (hdir : ∀ x ∈ l, dp.read x = dp.read bp)
    (hsweep : Sweep dp.cylin l) (hle : ∀ x ∈ l, dp.cylin x ≤ dp.cylin bp) (tp : Option B)
    (htp : ∀ t ∈ tp, ∀ x ∈ l, dp.cylin t ≤ dp.cylin x) :
    placeIn dp bp l tp = l.getLast?.or tp := by
  induction l generalizing tp with
  | nil => rfl
  | cons x l ih =>
    obtain ⟨hx, hrest⟩ := List.pairwise_cons.1 hsweep
    have hall : tp.all (dp.cylin · ≤ dp.cylin x) = true := by
      cases tp with
      | none => rfl
      | some t => simpa using htp t rfl x List.mem_cons_self
    rw [placeIn_cons (hdir x List.mem_cons_self), if_pos ⟨hle x List.mem_cons_self, hall⟩,
      ih (fun y hy => hdir y (List.mem_cons_of_mem x hy)) hrest
        (fun y hy => hle y (List.mem_cons_of_mem x hy)) (some x) (by rintro t ⟨⟩; exact hx),
      List.getLast?_cons]
    cases l.getLast? <;> rfl

theorem Inserted.unique {dp : Drive B} {u v l' : List B} {t : B} (h : Inserted dp bp (u ++ t :: v) l')
    (hnd : (u ++ t :: v).Nodup) (ht : Disk.after dp bp (u ++ t :: v) = some t) :
    l' = u ++ t :: bp :: v := by
  generalize hl : u ++ t :: v = l at h hnd ht
  cases h with
  | alone => simp at hl
  | @after u' v' t' ht' =>
    rw [ht'] at ht
    cases ht
    rw [← hl] at hnd
    obtain ⟨-, hnd', hdisj⟩ := List.nodup_append.1 hnd
    have htu : t ∉ u := fun hx => hdisj t hx t List.mem_cons_self rfl
    obtain ⟨rfl, -, rfl⟩ :=
      (List.append_cons_inj_of_notMem htu (List.nodup_cons.1 hnd').1).1 hl
    rfl

/-- `bp` is put in behind `u`, when its place is the last request of `u`. -/
theorem Inserted.behind {dp : Drive B} {u v l' : List B} (h : Inserted dp bp l l') (hnd : l.Nodup)
    (hl : l = u ++ v) (hne : u ≠ []) (ht : Disk.after dp bp l = u.getLast?) :
    l' = u ++ bp :: v := by
  subst hl
  obtain ⟨w, t, rfl⟩ : ∃ w t, u = w ++ [t] :=
    ⟨_, _, (List.dropLast_append_getLast hne).symm⟩
  rw [List.append_assoc] at h hnd
  rw [List.append_assoc, List.getLast?_concat] at ht
  rw [h.unique hnd ht, List.append_assoc]
  rfl

section Order

variable {dp : Drive B}

/-- Over one sweep, the last request that is not above `bp`, if there is one. -/
theorem placeIn_ordered (hdir : ∀ x ∈ l, dp.read x = dp.read bp) (hs : Sweep dp.cylin l) :
    placeIn dp bp l none = (l.takeWhile fun x => dp.cylin x ≤ dp.cylin bp).getLast? := by
  have htake : placeIn dp bp (l.takeWhile fun x => dp.cylin x ≤ dp.cylin bp) none =
      (l.takeWhile fun x => dp.cylin x ≤ dp.cylin bp).getLast? := by
    rw [placeIn_sweep (fun x hx => hdir x ((List.takeWhile_sublist _).subset hx))
      (hs.sublist (List.takeWhile_sublist _)) (fun x hx => takeWhile_le hx) none (by simp),
      Option.or_none]
  conv_lhs =>
    rw [← List.takeWhile_append_dropWhile (p := fun x => decide (dp.cylin x ≤ dp.cylin bp)) (l := l)]
  rw [placeIn_append (fun x hx => hdir x ((List.takeWhile_sublist _).subset hx)), htake]
  exact placeIn_pass (fun x hx => hdir x ((List.dropWhile_sublist _).subset hx)) _
    fun x hx => .inl (hs.above x hx)

variable (hs : Sweeps dp.cylin a b) (hdir : ∀ x ∈ a ++ b, dp.read x = dp.read bp)

include hs hdir

/-- In the current sweep, when some of it is not above `bp`. -/
theorem after_now (hne : a.takeWhile (fun x => dp.cylin x ≤ dp.cylin bp) ≠ []) :
    after dp bp (a ++ b) = (a.takeWhile fun x => dp.cylin x ≤ dp.cylin bp).getLast? := by
  obtain ⟨t, ht⟩ : ∃ t, (a.takeWhile fun x => dp.cylin x ≤ dp.cylin bp).getLast? = some t :=
    ⟨_, List.getLast?_eq_some_getLast hne⟩
  have hta : t ∈ a := (List.takeWhile_sublist _).subset (List.mem_of_getLast? ht)
  have hall : placeIn dp bp (a ++ b) none = some t := by
    rw [placeIn_append fun x hx => hdir x (List.mem_append_left b hx),
      placeIn_ordered (fun x hx => hdir x (List.mem_append_left b hx)) hs.now, ht]
    exact placeIn_pass (fun x hx => hdir x (List.mem_append_right a hx)) _
      fun x hx => .inr ⟨t, rfl, hs.behind x hx t hta⟩
  unfold after
  rw [hall, ht]

/-- In the next sweep, or at the end, when all of the current one is above `bp`. -/
theorem after_next (hnone : a.takeWhile (fun x => dp.cylin x ≤ dp.cylin bp) = []) :
    after dp bp (a ++ b) =
      (b.takeWhile fun x => dp.cylin x ≤ dp.cylin bp).getLast?.or (a ++ b).getLast? := by
  have hall : placeIn dp bp (a ++ b) none =
      (b.takeWhile fun x => dp.cylin x ≤ dp.cylin bp).getLast? := by
    rw [placeIn_append fun x hx => hdir x (List.mem_append_left b hx),
      placeIn_ordered (fun x hx => hdir x (List.mem_append_left b hx)) hs.now, hnone]
    exact placeIn_ordered (fun x hx => hdir x (List.mem_append_right a hx)) hs.next
  unfold after
  rw [hall]
  cases (b.takeWhile fun x => dp.cylin x ≤ dp.cylin bp).getLast? <;> rfl

end Order

/-- The request comes below none, or the next sweep has not begun. -/
def Fits (c : B → BitVec 16) (bp : B) (l : List B) : Prop := (∃ x ∈ l, c x ≤ c bp) ∨ Sweep c l

theorem Sweep.takeWhile_ne (h : Sweep c l) :
    l.takeWhile (fun x => c x ≤ c bp) ≠ [] ↔ ∃ x ∈ l, c x ≤ c bp := by
  cases l with
  | nil => simp
  | cons y l =>
    have hy := (List.pairwise_cons.1 h).1
    by_cases hle : c y ≤ c bp
    · rw [List.takeWhile_cons_of_pos (by simpa using hle)]
      exact iff_of_true (by simp) ⟨y, List.mem_cons_self, hle⟩
    · rw [List.takeWhile_cons_of_neg (by simpa using hle)]
      refine iff_of_false (by simp) ?_
      rintro ⟨x, hx, hxle⟩
      rcases List.mem_cons.1 hx with rfl | hx
      · exact hle hxle
      · exact hle (BitVec.le_trans (hy x hx) hxle)

/-- A request that fits has a place in one of the sweeps. -/
theorem fits_iff (hs : Sweeps c a b) (hne : a ≠ []) : Fits c bp (a ++ b) ↔
    a.takeWhile (fun x => c x ≤ c bp) ≠ [] ∨ b.takeWhile (fun x => c x ≤ c bp) ≠ [] ∨ b = [] := by
  have hsweep : Sweep c (a ++ b) ↔ b = [] := by
    constructor
    · intro h
      by_contra hb
      obtain ⟨y, hy⟩ := List.exists_mem_of_ne_nil a hne
      obtain ⟨x, hx⟩ := List.exists_mem_of_ne_nil b hb
      exact absurd ((List.pairwise_append.1 h).2.2 y hy x hx) (BitVec.not_le.2 (hs.behind x hx y hy))
    · rintro rfl
      rw [List.append_nil]
      exact hs.now
  unfold Fits
  rw [hs.now.takeWhile_ne, hs.next.takeWhile_ne, hsweep, ← or_assoc]
  simp only [List.mem_append, or_and_right, exists_or]

section Insert

variable {dp : Drive B} {l' : List B} (hs : Sweeps dp.cylin a b)
  (hdir : ∀ x ∈ a ++ b, dp.read x = dp.read bp) (hnd : (a ++ b).Nodup)
  (h : Inserted dp bp (a ++ b) l')

include hs hdir hnd h

theorem inserted_now (hne : a.takeWhile (fun x => dp.cylin x ≤ dp.cylin bp) ≠ []) :
    l' = insertSweep dp.cylin bp a ++ b := by
  have hsplit : a ++ b = a.takeWhile (fun x => dp.cylin x ≤ dp.cylin bp) ++
      (a.dropWhile (fun x => dp.cylin x ≤ dp.cylin bp) ++ b) := by
    rw [← List.append_assoc, List.takeWhile_append_dropWhile]
  rw [h.behind hnd hsplit hne (after_now hs hdir hne), insertSweep_eq, List.append_assoc,
    List.cons_append]

theorem inserted_next (hnone : a.takeWhile (fun x => dp.cylin x ≤ dp.cylin bp) = [])
    (hne : b.takeWhile (fun x => dp.cylin x ≤ dp.cylin bp) ≠ []) :
    l' = a ++ insertSweep dp.cylin bp b := by
  have hsplit : a ++ b = a ++ b.takeWhile (fun x => dp.cylin x ≤ dp.cylin bp) ++
      b.dropWhile (fun x => dp.cylin x ≤ dp.cylin bp) := by
    rw [List.append_assoc, List.takeWhile_append_dropWhile]
  have hat : after dp bp (a ++ b) =
      (a ++ b.takeWhile fun x => dp.cylin x ≤ dp.cylin bp).getLast? := by
    rw [after_next hs hdir hnone]
    conv_rhs => rw [List.getLast?_append]
    rw [List.getLast?_eq_some_getLast hne]
    rfl
  rw [h.behind hnd hsplit (by simp [hne]) hat, insertSweep_eq, List.append_assoc]

theorem inserted_end (hne : a ≠ []) (hnonea : a.takeWhile (fun x => dp.cylin x ≤ dp.cylin bp) = [])
    (hnoneb : b.takeWhile (fun x => dp.cylin x ≤ dp.cylin bp) = []) : l' = a ++ b ++ [bp] := by
  refine h.behind hnd (List.append_nil _).symm (by simp [hne]) ?_
  rw [after_next hs hdir hnonea, hnoneb]
  rfl

theorem inserted_inOrder (hfits : Fits dp.cylin bp (a ++ b)) : l' = inOrder dp.cylin bp a b := by
  cases a with
  | nil =>
    obtain rfl := hs.first rfl
    generalize hl : ([] : List B) ++ [] = l at h
    cases h with
    | alone => rfl
    | after => simp at hl
  | cons x a =>
    rw [inOrder]
    by_cases hle : dp.cylin x ≤ dp.cylin bp
    · rw [if_pos hle]
      exact inserted_now hs hdir hnd h (hs.now.takeWhile_ne.2 ⟨x, List.mem_cons_self, hle⟩)
    · rw [if_neg hle]
      have hnone : (x :: a).takeWhile (fun x => dp.cylin x ≤ dp.cylin bp) = [] :=
        List.takeWhile_cons_of_neg (by simpa using hle)
      rcases (fits_iff hs (by simp)).1 hfits with hne | hne | rfl
      · exact absurd hnone hne
      · exact inserted_next hs hdir hnd h hnone hne
      · rw [inserted_end hs hdir hnd h (by simp) hnone rfl, List.append_nil]
        rfl

/-- Otherwise the request begins a sweep of its own, after the next one. -/
theorem inserted_below (hfits : ¬Fits dp.cylin bp (a ++ b)) :
    l' = a ++ b ++ [bp] ∧ ¬TwoSweeps dp.cylin l' := by
  have hne : a ≠ [] := by
    rintro rfl
    obtain rfl := hs.first rfl
    exact hfits (.inr List.Pairwise.nil)
  have hplaces := hfits
  rw [fits_iff hs hne] at hplaces
  obtain ⟨hnonea, hnoneb, hb⟩ := not_or.1 hplaces |>.imp_right not_or.1
  have hl' := inserted_end hs hdir hnd h hne (not_not.1 hnonea) (not_not.1 hnoneb)
  refine ⟨hl', ?_⟩
  -- one request of each sweep, and the new one
  obtain ⟨x, hx⟩ := List.exists_mem_of_ne_nil a hne
  obtain ⟨y, hy⟩ := List.exists_mem_of_ne_nil b hb
  have hyz : dp.cylin bp < dp.cylin y :=
    BitVec.not_le.1 fun hle => hfits (.inl ⟨y, List.mem_append_right a hy, hle⟩)
  refine not_twoSweeps ?_ (hs.behind y hy x hx) hyz
  rw [hl']
  exact ((List.singleton_sublist.2 hx).append (List.singleton_sublist.2 hy)).append
    (List.Sublist.refl [bp])

end Insert

/-- The sweeps with the request. -/
theorem inOrder_sweeps (hs : Sweeps c a b) (bp : B) :
    ∃ a' b', inOrder c bp a b = a' ++ b' ∧ Sweeps c a' b' := by
  cases a with
  | nil => exact ⟨[bp], [], rfl, List.pairwise_singleton _ _, List.Pairwise.nil, by simp, fun _ => rfl⟩
  | cons x a =>
    rw [inOrder]
    have hx : ∀ y ∈ x :: a, c x ≤ c y := by
      intro y hy
      rcases List.mem_cons.1 hy with rfl | hy
      · exact BitVec.le_refl _
      · exact (List.pairwise_cons.1 hs.now).1 y hy
    by_cases hle : c x ≤ c bp
    · rw [if_pos hle]
      refine ⟨_, _, rfl, hs.now.insert, hs.next, fun y hy z hz => ?_, fun hnil => ?_⟩
      · rcases mem_insertSweep.1 hz with rfl | hz
        · exact Nat.lt_of_lt_of_le (hs.behind y hy x List.mem_cons_self) hle
        · exact hs.behind y hy z hz
      · have hmem : bp ∈ insertSweep c bp (x :: a) := mem_insertSweep.2 (.inl rfl)
        rw [hnil] at hmem
        cases hmem
    · rw [if_neg hle]
      refine ⟨_, _, rfl, hs.now, hs.next.insert, fun y hy z hz => ?_, fun hnil => by cases hnil⟩
      rcases mem_insertSweep.1 hy with rfl | hy
      · exact Nat.lt_of_lt_of_le (BitVec.not_le.1 hle) (hx z hz)
      · exact hs.behind y hy z hz

theorem Sweeps.two (hs : Sweeps c a b) : TwoSweeps c (a ++ b) := ⟨a, b, rfl, hs.now, hs.next⟩

/-- The request at the head is taken off. -/
theorem Sweeps.tail {x : B} {l : List B} (hs : Sweeps c a b) (hl : a ++ b = x :: l) :
    ∃ a' b', l = a' ++ b' ∧ Sweeps c a' b' := by
  cases a with
  | nil =>
    obtain rfl := hs.first rfl
    cases hl
  | cons y a =>
    cases hl
    cases a with
    | nil => exact ⟨b, [], (List.append_nil b).symm, hs.next, List.Pairwise.nil, by simp, fun _ => rfl⟩
    | cons z a =>
      exact ⟨z :: a, b, rfl, (List.pairwise_cons.1 hs.now).2, hs.next,
        fun w hw v hv => hs.behind w hw v (List.mem_cons_of_mem _ hv), fun hnil => by cases hnil⟩

/-! ## Runs -/

section Runs

variable [DecidableEq B]

/-- The list, in one direction, as two sweeps. -/
structure Ordered (rw : Bool) (dp : Drive B) (a b : List B) : Prop where
  listed : Listed dp (a ++ b)
  sweeps : Sweeps dp.cylin a b
  dir : ∀ x ∈ a ++ b, dp.read x = rw

omit [DecidableEq B] in
theorem inTurn_iff {rw : Bool} {dp : Drive B} (h : Listed dp l) (cylin : BitVec 16) :
    InTurn rw dp rw cylin ↔ (∃ x ∈ l, dp.cylin x ≤ cylin) ∨ Sweep dp.cylin l := by
  unfold InTurn
  constructor
  · rintro ⟨-, hall⟩
    exact hall l h.chain
  · intro hl
    refine ⟨rfl, fun l' hl' => ?_⟩
    rw [hl'.unique h.chain]
    exact hl

/-- A request in the direction of the others. -/
theorem Ordered.request {rw : Bool} {dp : Drive B} (h : Ordered rw dp a b) (hbp : bp ∉ a ++ b)
    (cylin : BitVec 16) (n : Nat) :
    (∃ dp' l', strategy n dp bp rw cylin = .ok dp' ∧ Listed dp' l' ∧ l'.Perm (bp :: (a ++ b)) ∧
      (∀ x ∈ l', dp'.read x = rw) ∧
      (InTurn rw dp rw cylin → l' = inOrder dp'.cylin bp a b ∧ Sweeps dp'.cylin a b) ∧
      (TwoSweeps dp'.cylin l' ↔ InTurn rw dp rw cylin)) ∨
    n < (a ++ b).length ∧ strategy n dp bp rw cylin = .error .hang := by
  refine (strategy_spec h.listed hbp rw cylin n).imp_left ?_
  rintro ⟨dp', l', hcall, hins, hl', hread, hcyl⟩
  have hne : ∀ x ∈ a ++ b, x ≠ bp := by
    rintro x hx rfl
    exact hbp hx
  have hold : ∀ x ∈ a ++ b, dp'.cylin x = dp.cylin x := by
    intro x hx
    rw [hcyl]
    exact Function.update_of_ne (hne x hx) _ _
  have hnew : dp'.cylin bp = cylin := by
    rw [hcyl]
    exact Function.update_self _ _ _
  have hdir : ∀ x ∈ l', dp'.read x = rw := by
    intro x hx
    rw [hread]
    rcases List.mem_cons.1 (hins.perm.mem_iff.1 hx) with rfl | hx
    · exact Function.update_self _ _ _
    · exact (Function.update_of_ne (hne x hx) _ _).trans (h.dir x hx)
  have hdir' : ∀ x ∈ a ++ b, (asked dp bp rw cylin).read x = (asked dp bp rw cylin).read bp := by
    intro x hx
    rw [← hread, hdir x (hins.perm.mem_iff.2 (List.mem_cons_of_mem bp hx)),
      hdir bp (hins.perm.mem_iff.2 List.mem_cons_self)]
  have hs : Sweeps dp'.cylin a b := h.sweeps.congr hold
  have hfits : Fits dp'.cylin bp (a ++ b) ↔ InTurn rw dp rw cylin := by
    have hbelow : (∃ x ∈ a ++ b, dp'.cylin x ≤ cylin) ↔ ∃ x ∈ a ++ b, dp.cylin x ≤ cylin :=
      exists_congr fun x => and_congr_right fun hx => by rw [hold x hx]
    have hsweep : Sweep dp'.cylin (a ++ b) ↔ Sweep dp.cylin (a ++ b) :=
      ⟨fun hsw => hsw.congr fun x hx => (hold x hx).symm, fun hsw => hsw.congr hold⟩
    unfold Fits
    rw [inTurn_iff h.listed, hnew, hbelow, hsweep]
  have hnd := h.listed.chain.nodup
  rw [hcyl] at hs hfits
  refine ⟨dp', l', hcall, hl', hins.perm, hdir, ?_, ?_⟩
  · intro hturn
    rw [hcyl]
    exact ⟨inserted_inOrder hs hdir' hnd hins (hfits.2 hturn), hs⟩
  · rw [hcyl, ← hfits]
    constructor
    · intro htwo
      by_contra hnot
      exact (inserted_below hs hdir' hnd hins hnot).2 htwo
    · intro hfit
      rw [inserted_inOrder hs hdir' hnd hins hfit]
      obtain ⟨a', b', heq, hs'⟩ := inOrder_sweeps hs bp
      rw [heq]
      exact hs'.two

theorem Reached.ordered {rw : Bool} {dp : Drive B} {p : List B} (h : Reached (InTurn rw) dp p) :
    ∃ a b, Ordered rw dp a b ∧ (a ++ b).Perm p := by
  induction h with
  | start h =>
    exact ⟨[], [], ⟨⟨h, fun hne => absurd rfl hne⟩,
      ⟨List.Pairwise.nil, List.Pairwise.nil, by simp, fun _ => rfl⟩, by simp⟩, List.Perm.refl _⟩
  | @request dp dp' p bp read cylin n _ hbp hturn hcall ih =>
    obtain ⟨a, b, hord, hp⟩ := ih
    obtain rfl := hturn.1
    have hbl : bp ∉ a ++ b := fun hx => hbp (hp.mem_iff.1 hx)
    rcases hord.request hbl cylin n with ⟨dp₁, l', h1, hl', hperm, hdir, hin, -⟩ | ⟨-, h1⟩
    · rw [hcall] at h1
      cases h1
      obtain ⟨heq, hs⟩ := hin hturn
      obtain ⟨a', b', hsplit, hs'⟩ := inOrder_sweeps hs bp
      rw [hsplit] at heq
      subst heq
      exact ⟨a', b', ⟨hl', hs', hdir⟩, hperm.trans (hp.cons bp)⟩
    · rw [hcall] at h1
      cases h1
  | @done dp dp' p bp _ hcall ih =>
    obtain ⟨a, b, hord, hp⟩ := ih
    obtain ⟨l', hl, hl', hread, hcyl⟩ := done_spec hord.listed hcall
    obtain ⟨a', b', rfl, hs⟩ := hord.sweeps.tail hl
    rw [hl] at hp
    have herase := hp.erase bp
    rw [List.erase_cons_head] at herase
    refine ⟨a', b', ⟨hl', hcyl ▸ hs, fun x hx => ?_⟩, herase⟩
    rw [hread]
    exact hord.dir x (by rw [hl]; exact List.mem_cons_of_mem bp hx)

/-- While every request comes in turn, the list is the current sweep and the next one, and the next
    request goes to its place in them; the list stays in two sweeps exactly if it comes in turn
    too. -/
theorem disksort_elevator (rw : Bool) (dp : Drive B) (p : List B) (h : Reached (InTurn rw) dp p) :
    ∃ a b, Listed dp (a ++ b) ∧ (a ++ b).Perm p ∧ Sweeps dp.cylin a b ∧
      TwoSweeps dp.cylin (a ++ b) ∧
      ∀ bp ∉ p, ∀ cylin n, p.length ≤ n → ∃ dp' l', strategy n dp bp rw cylin = .ok dp' ∧
        Listed dp' l' ∧ (InTurn rw dp rw cylin → l' = inOrder dp'.cylin bp a b) ∧
        (TwoSweeps dp'.cylin l' ↔ InTurn rw dp rw cylin) := by
  obtain ⟨a, b, hord, hp⟩ := h.ordered
  refine ⟨a, b, hord.listed, hp, hord.sweeps, hord.sweeps.two, fun bp hbp cylin n hn => ?_⟩
  have hbl : bp ∉ a ++ b := fun hx => hbp (hp.mem_iff.1 hx)
  rcases hord.request hbl cylin n with ⟨dp', l', hcall, hl', -, -, hin, htwo⟩ | ⟨hlt, -⟩
  · exact ⟨dp', l', hcall, hl', fun hturn => (hin hturn).1, htwo⟩
  · rw [hp.length_eq] at hlt
    omega

end Runs

/-! ## Three sweeps -/

theorem disksort_elevator_two : ∃ (dp : Drive Nat) (a b : List Nat), Listed dp (a ++ b) ∧
    (a ++ b).Perm [2, 1] ∧ Sweeps dp.cylin a b ∧ TwoSweeps dp.cylin (a ++ b) ∧
    ∀ bp ∉ [2, 1], ∀ cylin n, 2 ≤ n → ∃ dp' l', strategy n dp bp true cylin = .ok dp' ∧
      Listed dp' l' ∧ (InTurn true dp true cylin → l' = inOrder dp'.cylin bp a b) ∧
      (TwoSweeps dp'.cylin l' ↔ InTurn true dp true cylin) := by
  have h0 : Reached (InTurn true) idleDrive [] := .start rfl
  have hidle : Listed idleDrive [] := ⟨rfl, fun hne => absurd rfl hne⟩
  have h1 := Reached.request h0 (by decide : 1 ∉ [])
    ((inTurn_iff hidle 50).2 (.inr List.Pairwise.nil))
    (show strategy 0 idleDrive 1 true 50 = .ok _ from rfl)
  -- the next sweep begins
  have hturn : ∀ dp : Drive Nat, Listed dp [1] → InTurn true dp true 10 :=
    fun dp hone => (inTurn_iff hone 10).2 (.inr (List.pairwise_singleton _ _))
  have h2 := Reached.request h1 (by decide : 2 ∉ [1])
    (hturn _ ⟨⟨rfl, rfl⟩, fun _ => rfl⟩)
    (show strategy 1 _ 2 true 10 = .ok _ from rfl)
  exact ⟨_, disksort_elevator true _ [2, 1] h2⟩

/-- Reads of the cylinders 50, 60, 10 and 5 are queued in this order. -/
theorem three_sweeps : ∃ (dp : Drive Nat) (p l : List Nat),
    Reached (fun _ read _ => read = true) dp p ∧ Listed dp l ∧ ¬TwoSweeps dp.cylin l := by
  have h0 : Reached (fun _ read _ => read = true) idleDrive [] := .start rfl
  have h1 := Reached.request h0 (by decide : 1 ∉ []) rfl
    (show strategy 0 idleDrive 1 true 50 = .ok _ from rfl)
  have h2 := Reached.request h1 (by decide : 2 ∉ [1]) rfl
    (show strategy 1 _ 2 true 60 = .ok _ from rfl)
  have h3 := Reached.request h2 (by decide : 3 ∉ [2, 1]) rfl
    (show strategy 2 _ 3 true 10 = .ok _ from rfl)
  have h4 := Reached.request h3 (by decide : 4 ∉ [3, 2, 1]) rfl
    (show strategy 3 _ 4 true 5 = .ok _ from rfl)
  refine ⟨_, _, [1, 2, 3, 4], h4, ⟨⟨rfl, rfl, rfl, rfl, rfl⟩, fun _ => rfl⟩, ?_⟩
  exact not_twoSweeps (by decide : [1, 3, 4].Sublist [1, 2, 3, 4]) (by decide) (by decide)

end Disk

end Venix.Bio
