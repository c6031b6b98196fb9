/-
  Lists that are linked one way, from a head to a null link.

  `Chain next h l`: from `h`, the links of `next` go through `l` and end. A chain ends, so it does
  not meet itself (`Chain.nodup`). An element is put in at the head (`Chain.push`) or after another
  one (`Chain.insert`), or taken out by a change of the link before it (`Chain.remove`).
-/
import Mathlib.Tactic

namespace Venix.Lib

variable {N : Type}

def Chain (next : N → Option N) : Option N → List N → Prop
  | h, [] => h = none
  | h, x :: l => h = some x ∧ Chain next (next x) l

namespace Chain

variable {next next' : N → Option N} {h : Option N} {l : List N}

theorem head_eq (hc : Chain next h l) : h = l.head? := by
  cases l with
  | nil => exact hc
  | cons x l => exact hc.1

theorem congr (hc : Chain next h l) (heq : ∀ x ∈ l, next' x = next x) : Chain next' h l := by
  induction l generalizing h with
  | nil => exact hc
  | cons x l ih =>
    refine ⟨hc.1, ?_⟩
    rw [heq x (by simp)]
    exact ih hc.2 fun y hy => heq y (by simp [hy])

theorem unique {l' : List N} (hc : Chain next h l) (hc' : Chain next h l') : l = l' := by
  induction l generalizing h l' with
  | nil =>
    cases l' with
    | nil => rfl
    | cons y l' =>
      have h1 : h = none := hc
      rw [h1] at hc'
      cases hc'.1
  | cons x l ih =>
    obtain ⟨h1, h2⟩ := hc
    cases l' with
    | nil =>
      have h3 : h = none := hc'
      rw [h1] at h3
      cases h3
    | cons y l' =>
      obtain ⟨h3, h4⟩ := hc'
      rw [h1] at h3
      cases h3
      rw [ih h2 h4]

/-- What comes after the first part of a chain is a chain. -/
theorem right {a b : List N} (hc : Chain next h (a ++ b)) : Chain next b.head? b := by
  induction a generalizing h with
  | nil =>
    rw [List.nil_append] at hc
    rw [← hc.head_eq]
    exact hc
  | cons x a ih => exact ih hc.2

theorem of_mem {x : N} (hc : Chain next h l) (hx : x ∈ l) :
    ∃ a b, l = a ++ x :: b ∧ Chain next (some x) (x :: b) := by
  obtain ⟨a, b, rfl⟩ := List.append_of_mem hx
  exact ⟨a, b, rfl, hc.right⟩

theorem nodup (hc : Chain next h l) : l.Nodup := by
  induction l generalizing h with
  | nil => exact List.nodup_nil
  | cons x l ih =>
    refine List.nodup_cons.mpr ⟨fun hx => ?_, ih hc.2⟩
    -- the chain from `x` would be as long as a part of itself
    obtain ⟨a, b, hab, hb⟩ := of_mem hc.2 hx
    have hcx : Chain next (some x) (x :: l) := ⟨rfl, hc.2⟩
    have hlen := congrArg List.length (hcx.unique hb)
    rw [hab] at hlen
    simp at hlen
    omega

variable [DecidableEq N]

theorem push {x : N} (hc : Chain next h l) (hx : x ∉ l) :
    Chain (Function.update next x h) (some x) (x :: l) := by
  refine ⟨rfl, ?_⟩
  rw [Function.update_self]
  refine hc.congr fun y hy => Function.update_of_ne ?_ _ _
  rintro rfl
  exact hx hy

theorem insert {a b : List N} {t x : N} (hc : Chain next h (a ++ t :: b)) (hx : x ∉ a ++ t :: b) :
    Chain (Function.update (Function.update next x (next t)) t (some x)) h (a ++ t :: x :: b) := by
  induction a generalizing h with
  | nil =>
    obtain ⟨h1, h2⟩ := hc
    have hnd := Chain.nodup (l := t :: b) ⟨h1, h2⟩
    have hxt : x ≠ t := fun he => hx (by simp [he])
    refine ⟨h1, Function.update_self _ _ _, ?_⟩
    rw [Function.update_of_ne hxt, Function.update_self]
    refine h2.congr fun y hy => ?_
    rw [Function.update_of_ne, Function.update_of_ne]
    · rintro rfl
      exact hx (by simp [hy])
    · rintro rfl
      exact (List.nodup_cons.mp hnd).1 hy
  | cons z a ih =>
    obtain ⟨h1, h2⟩ := hc
    have hnd := Chain.nodup (l := z :: a ++ t :: b) ⟨h1, h2⟩
    have hzt : z ≠ t := by
      rintro rfl
      exact (List.nodup_cons.mp hnd).1 (by simp)
    have hzx : z ≠ x := fun he => hx (by simp [he])
    refine ⟨h1, ?_⟩
    rw [Function.update_of_ne hzt, Function.update_of_ne hzx]
    exact ih h2 fun hxa => hx (List.mem_cons_of_mem z hxa)

/-- The links with the one after `q` set to `x`, where there is a `q`. -/
def relink (next : N → Option N) (q x : Option N) : N → Option N :=
  match q with
  | none => next
  | some q => Function.update next q x

/-- The head with the change made to it where there is nothing before. -/
def rehead (h q x : Option N) : Option N :=
  match q with
  | none => x
  | some _ => h

theorem remove {a b : List N} {x : N} (hc : Chain next h (a ++ x :: b)) :
    Chain (relink next a.getLast? (next x)) (rehead h a.getLast? (next x)) (a ++ b) := by
  induction a generalizing h with
  | nil => exact hc.2
  | cons y a ih =>
    obtain ⟨h1, h2⟩ := hc
    have hcons : Chain next h (y :: a ++ x :: b) := ⟨h1, h2⟩
    have hnd := hcons.nodup
    cases a with
    | nil =>
      refine ⟨h1, ?_⟩
      simp only [List.getLast?_singleton, relink, Function.update_self]
      refine h2.2.congr fun z hz => Function.update_of_ne ?_ _ _
      rintro rfl
      simp only [List.cons_append, List.nodup_cons] at hnd
      exact hnd.1 (by simp [hz])
    | cons z a =>
      have hih := ih h2
      have hlast : (y :: z :: a).getLast? = (z :: a).getLast? := by simp [List.getLast?_cons]
      rw [hlast]
      obtain ⟨w, hw⟩ : ∃ w, (z :: a).getLast? = some w :=
        ⟨(z :: a).getLast (by simp), List.getLast?_eq_some_getLast _⟩
      rw [hw] at hih ⊢
      have hwa : w ∈ z :: a := List.mem_of_getLast? hw
      have hne : y ≠ w := by
        rintro rfl
        simp only [List.cons_append, List.nodup_cons] at hnd
        exact hnd.1 (List.mem_append_left _ hwa)
      refine ⟨h1, ?_⟩
      simp only [relink]
      rw [Function.update_of_ne hne]
      exact hih

end Chain

end Venix.Lib
