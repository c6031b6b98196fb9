/-
  `ialloc` when there are no I/O errors and a slot of the table is not in use.

  A number in the cache may be stale; one that is not free is dropped, and one of an inode without
  links is freed, which puts it back, and is then taken. With the cache empty, the list of inodes is
  searched, and up to `nicinod` numbers come into the cache in order. The last one is taken first.
  The search starts at inode 1, but `ialloc` does not take 1: when it is the only one that is found,
  it goes into the cache, is dropped and found again.
-/
import Venix.Inode.IgetRun

namespace Venix.Iget

open Venix.Lib Venix.Fs

variable {n : Nat} {env : Env} {s : Sys n} {ip : Fin n}

/-! ## The search of the list of inodes -/

/-- An inode that the search takes. -/
def Free (s : Sys n) (dev : Nat) (f : Fsys) (ino : Nat) : Prop :=
  (f.dinode ino).mode = 0 ∧ ¬s.InCore dev ino

instance (s : Sys n) (dev : Nat) (f : Fsys) (ino : Nat) : Decidable (Free s dev f ino) :=
  inferInstanceAs (Decidable (_ ∧ _))

/-- The cache has the numbers `l` in it. -/
structure Holds (c : Cache) (l : List Nat) : Prop where
  count : c.2 = l.length
  get : ∀ i (h : i < l.length), c.1.get i = l[i]

theorem Holds.push {c : Cache} {l : List Nat} (h : Holds c l) (hroom : l.length < nicinod)
    (ino : Nat) : Holds (c.push ino) (l ++ [ino]) := by
  have hnat : c.2.toNat = l.length := by rw [h.count]; exact Int.toNat_natCast _
  constructor
  · rw [List.length_append, List.length_singleton]
    unfold Cache.push
    rw [h.count]
    push_cast
    rfl
  · intro i hi
    unfold Cache.push
    rw [List.length_append, List.length_singleton] at hi
    dsimp only
    rw [hnat]
    by_cases heq : i = l.length
    · subst heq
      rw [Arr.get_put_self _ _ _ hroom, List.getElem_append_right (le_refl _)]
      simp
    · rw [Arr.get_put_ne _ _ heq, h.get i (by omega), List.getElem_append_left (by omega)]

/-- An inode is in core. -/
def In (inode : Fin n → Inode) (dev ino : Nat) : Prop :=
  ∃ ip, (inode ip).dev = dev ∧ (inode ip).number = ino

/-- A table with a slot that is not in use. Mounts make a tree: a device that is mounted on an inode
is below the device of the inode. -/
structure Sound (rank : Nat → Nat) (mnt : Fin n → Option Nat) (fs : Nat → Option Fsys)
    (inode : Fin n → Inode) : Prop where
  unused : ∀ ip, (inode ip).count = 0 → (inode ip).number = 0
  room : ∃ ip, (inode ip).count = 0
  mounts : ∀ ip, (inode ip).flag &&& imount ≠ 0 →
    ∃ d, mnt ip = some d ∧ (fs d).isSome ∧ rank d < rank (inode ip).dev

section
variable {rank : Nat → Nat} {mnt : Fin n → Option Nat} {fs : Nat → Option Fsys}
  {inode inode' : Fin n → Inode}

theorem SameButLocks.sound (h : SameButLocks inode inode') (hsound : Sound rank mnt fs inode) :
    Sound rank mnt fs inode' := by
  constructor
  · intro ip hcount
    obtain ⟨flag, -, hflag⟩ := h ip
    rw [hflag] at hcount ⊢
    exact hsound.unused ip hcount
  · obtain ⟨ip, hcount⟩ := hsound.room
    obtain ⟨flag, -, hflag⟩ := h ip
    exact ⟨ip, by rw [hflag]; exact hcount⟩
  · intro ip hmount
    obtain ⟨flag, hsame, hflag⟩ := h ip
    rw [hflag] at hmount ⊢
    exact hsound.mounts ip (by rw [← hsame]; exact hmount)

end

end Venix.Iget
