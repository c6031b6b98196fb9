/-
  Doubly linked rings.

  `next` and `prev` are the links of all nodes. `Path next prev a l c` says that the links lead
  from `a` through `l` to `c` and back; a ring is such a path from its header to itself, with no
  node twice. A node is put in between two neighbours by `insertBetween` on both links, and
  taken out by `unlinkNext` and `unlinkPrev`.

  Proved:
  - A ring with a new node after its header, or before it, or with a node taken out, is a ring.
  - Links of nodes that are not on a ring do not matter to it.
-/
import Mathlib.Tactic

namespace Venix.Lib

variable {N : Type} [DecidableEq N]

def Path (next prev : N → N) : N → List N → N → Prop
  | a, [], c => next a = c ∧ prev c = a
  | a, b :: l, c => next a = b ∧ prev b = a ∧ Path next prev b l c

structure LinkRing (next prev : N → N) (h : N) (l : List N) : Prop where
  path : Path next prev h l h
  nodup : (h :: l).Nodup

/-- The links to the right with `x` put in after `a`, before `c`. -/
def linkNext (next : N → N) (a x c : N) : N → N := Function.update (Function.update next x c) a x

/-- The links to the left with `x` put in after `a`, before `c`. -/
def linkPrev (prev : N → N) (a x c : N) : N → N := Function.update (Function.update prev c x) x a

/-- The links to the right without `x`. -/
def unlinkNext (next prev : N → N) (x : N) : N → N := Function.update next (prev x) (next x)

/-- The links to the left without `x`. -/
def unlinkPrev (next prev : N → N) (x : N) : N → N := Function.update prev (next x) (prev x)

variable {next prev next' prev' : N → N} {a b c h x : N} {l l₁ l₂ : List N}

/-! ## Paths -/

omit [DecidableEq N] in
theorem path_append :
    Path next prev a (l₁ ++ b :: l₂) c ↔ Path next prev a l₁ b ∧ Path next prev b l₂ c := by
  induction l₁ generalizing a with
  | nil =>
    constructor
    · rintro ⟨h1, h2, h3⟩
      exact ⟨⟨h1, h2⟩, h3⟩
    · rintro ⟨⟨h1, h2⟩, h3⟩
      exact ⟨h1, h2, h3⟩
  | cons d l₁ ih =>
    constructor
    · rintro ⟨h1, h2, h3⟩
      obtain ⟨h4, h5⟩ := ih.mp h3
      exact ⟨⟨h1, h2, h4⟩, h5⟩
    · rintro ⟨⟨h1, h2, h4⟩, h5⟩
      exact ⟨h1, h2, ih.mpr ⟨h4, h5⟩⟩

omit [DecidableEq N] in
/-- Only the links to the right of what comes before the end count, and the links to the left
of what comes after the start. -/
theorem Path.congr (hp : Path next prev a l c) (hn : ∀ y ∈ a :: l, next' y = next y)
    (hb : ∀ y ∈ l ++ [c], prev' y = prev y) : Path next' prev' a l c := by
  induction l generalizing a with
  | nil =>
    obtain ⟨h1, h2⟩ := hp
    exact ⟨(hn a (by simp)).trans h1, (hb c (by simp)).trans h2⟩
  | cons d l ih =>
    obtain ⟨h1, h2, h3⟩ := hp
    refine ⟨(hn a (by simp)).trans h1, (hb d (by simp)).trans h2, ih h3 ?_ ?_⟩
    · exact fun y hy => hn y (List.mem_cons_of_mem _ hy)
    · exact fun y hy => hb y (List.mem_cons_of_mem _ hy)

omit [DecidableEq N] in
theorem Path.reverse (hp : Path next prev a l c) : Path prev next c l.reverse a := by
  induction l generalizing a with
  | nil => exact ⟨hp.2, hp.1⟩
  | cons d l ih =>
    obtain ⟨h1, h2, h3⟩ := hp
    rw [List.reverse_cons]
    exact path_append.mpr ⟨ih h3, h2, h1⟩

omit [DecidableEq N] in
/-- A ring is a ring the other way round. -/
theorem LinkRing.reverse (hr : LinkRing next prev h l) : LinkRing prev next h l.reverse :=
  ⟨hr.path.reverse, by simpa using hr.nodup⟩

/-! ## Putting a node in -/

/-- After the header. -/
theorem LinkRing.insertHead (hr : LinkRing next prev h l) (hx : x ∉ h :: l) :
    LinkRing (linkNext next h x (next h)) (linkPrev prev h x (next h)) h (x :: l) := by
  obtain ⟨hp, hnd⟩ := hr
  have hxh : x ≠ h := fun e => hx (by simp [e])
  have hxl : x ∉ l := fun e => hx (by simp [e])
  refine ⟨?_, ?_⟩
  · refine ⟨by simp [linkNext], by simp [linkPrev], ?_⟩
    cases l with
    | nil =>
      have h1 : next h = h := hp.1
      exact ⟨by simp [linkNext, hxh, h1], by simp [linkPrev, hxh.symm, h1]⟩
    | cons d l =>
      obtain ⟨h1, h2, h3⟩ := hp
      have hxd : d ≠ x := fun e => hxl (by simp [e])
      refine ⟨by simp [linkNext, hxh, h1], by simp [linkPrev, hxd, h1], h3.congr ?_ ?_⟩
      · intro y hy
        have hyh : y ≠ h := by
          rintro rfl
          simp only [List.nodup_cons] at hnd
          exact hnd.1 hy
        have hyx : y ≠ x := by
          rintro rfl
          exact hxl hy
        simp [linkNext, hyh, hyx]
      · intro y hy
        have hyx : y ≠ x := by
          rintro rfl
          rcases List.mem_append.mp hy with hy | hy
          · exact hxl (List.mem_cons_of_mem _ hy)
          · exact hxh (by simpa using hy)
        have hyd : y ≠ d := by
          rintro rfl
          simp only [List.nodup_cons, List.mem_cons, not_or] at hnd
          rcases List.mem_append.mp hy with hy | hy
          · exact hnd.2.1 hy
          · exact hnd.1.1 (List.mem_singleton.mp hy).symm
        simp [linkPrev, hyx, h1, hyd]
  · simp only [List.nodup_cons, List.mem_cons, not_or] at hnd hx ⊢
    exact ⟨⟨hxh.symm, hnd.1⟩, hxl, hnd.2⟩

omit [DecidableEq N] in
theorem Path.prev_mem (hp : Path next prev a l c) : prev c ∈ a :: l := by
  induction l generalizing a with
  | nil => simp [hp.2]
  | cons d l ih => exact List.mem_cons_of_mem _ (ih hp.2.2)

omit [DecidableEq N] in
theorem Path.next_mem (hp : Path next prev a l c) : next a ∈ l ++ [c] := by
  cases l with
  | nil => simp [hp.1]
  | cons d l => simp [hp.1]

/-- Before the header. -/
theorem LinkRing.insertTail (hr : LinkRing next prev h l) (hx : x ∉ h :: l) :
    LinkRing (linkNext next (prev h) x h) (linkPrev prev (prev h) x h) h (l ++ [x]) := by
  have hxh : x ≠ h := fun e => hx (by simp [e])
  have hxp : x ≠ prev h := fun e => hx (e ▸ hr.path.prev_mem)
  have hins := (hr.reverse.insertHead (x := x) (by simpa using hx)).reverse
  rw [List.reverse_cons, List.reverse_reverse] at hins
  have hn : linkPrev next h x (prev h) = linkNext next (prev h) x h :=
    Function.update_comm hxp.symm _ _ _
  have hb : linkNext prev h x (prev h) = linkPrev prev (prev h) x h :=
    Function.update_comm hxh _ _ _
  rw [hn, hb] at hins
  exact hins

/-! ## Taking a node out -/

theorem Path.unlink (hp : Path next prev a (l₁ ++ x :: l₂) c)
    (hsource : (a :: (l₁ ++ x :: l₂)).Nodup) (htarget : (l₁ ++ x :: l₂ ++ [c]).Nodup) :
    Path (unlinkNext next prev x) (unlinkPrev next prev x) a (l₁ ++ l₂) c := by
  induction l₁ generalizing a with
  | nil =>
    obtain ⟨h1, h2, h3⟩ := hp
    cases l₂ with
    | nil =>
      obtain ⟨h4, h5⟩ := h3
      exact ⟨by simp [unlinkNext, h2, h4], by simp [unlinkPrev, h2, h4]⟩
    | cons d l =>
      obtain ⟨h4, h5, h6⟩ := h3
      refine ⟨by simp [unlinkNext, h2, h4], by simp [unlinkPrev, h2, h4], h6.congr ?_ ?_⟩
      · intro y hy
        have hya : y ≠ a := by
          rintro rfl
          exact (List.nodup_cons.mp hsource).1 (List.mem_cons_of_mem _ hy)
        simp [unlinkNext, h2, hya]
      · intro y hy
        have hyd : y ≠ d := by
          rintro rfl
          exact (List.nodup_cons.mp (List.nodup_cons.mp htarget).2).1 hy
        simp [unlinkPrev, h4, hyd]
  | cons e l₁ ih =>
    obtain ⟨h1, h2, h3⟩ := hp
    obtain ⟨h4, h5⟩ := path_append.mp h3
    refine ⟨?_, ?_, ih h3 (List.nodup_cons.mp hsource).2 (List.nodup_cons.mp htarget).2⟩
    · have hne : a ≠ prev x := by
        intro e'
        have hmem : a ∈ e :: l₁ := e' ▸ h4.prev_mem
        exact (List.nodup_cons.mp hsource).1 (List.mem_append_left _ hmem)
      simp [unlinkNext, hne, h1]
    · have hne : e ≠ next x := by
        intro e'
        have hmem : e ∈ l₂ ++ [c] := e' ▸ h5.next_mem
        refine (List.nodup_cons.mp htarget).1 ?_
        show e ∈ (l₁ ++ x :: l₂) ++ [c]
        rw [List.append_assoc]
        exact List.mem_append_right _ (List.mem_cons_of_mem _ hmem)
      simp [unlinkPrev, hne, h2]

theorem LinkRing.remove (hr : LinkRing next prev h (l₁ ++ x :: l₂)) :
    LinkRing (unlinkNext next prev x) (unlinkPrev next prev x) h (l₁ ++ l₂) := by
  have hnd := hr.nodup
  refine ⟨hr.path.unlink hnd ?_, ?_⟩
  · rw [List.nodup_append_comm]
    exact hnd
  · refine hnd.sublist (List.Sublist.cons_cons _ ?_)
    exact List.Sublist.append_left (List.sublist_cons_self _ _) _

/-! ## Other nodes -/

omit [DecidableEq N] in
theorem LinkRing.congr (hr : LinkRing next prev h l) (hn : ∀ y ∈ h :: l, next' y = next y)
    (hb : ∀ y ∈ h :: l, prev' y = prev y) : LinkRing next' prev' h l := by
  refine ⟨hr.path.congr hn fun y hy => hb y ?_, hr.nodup⟩
  rcases List.mem_append.mp hy with hy | hy
  · exact List.mem_cons_of_mem _ hy
  · rw [List.mem_singleton.mp hy]
    exact List.mem_cons_self

end Venix.Lib
