/-
  `ialloc`: when it ends, and what it returns.

  A turn of the loop takes a number off the cache. It may put one back, through `iput`, and only the
  number that it took: then the next turn takes that inode. With the cache empty, the search of the
  list is followed by a turn that takes a free inode, or by one that drops inode 1, or by none.
-/
import Venix.Inode.Ialloc

namespace Venix.Iget

open Venix.Lib Venix.Fs

variable {n : Nat} {env : Env} {s s' s'' : Sys n} {ip : Fin n}

/-! ## What `iput` leaves alone -/

/-- `s'` differs from `s` in slot `ip` and in device `dev` only. -/
structure Touches (ip : Fin n) (dev : Nat) (s s' : Sys n) : Prop where
  mnt : s'.mnt = s.mnt
  fs : ∀ d, d ≠ dev → s'.fs d = s.fs d
  mounted : (s.fs dev).isSome → (s'.fs dev).isSome
  other : ∀ j, j ≠ ip → s'.inode j = s.inode j
  dev : (s'.inode ip).dev = (s.inode ip).dev
  count : (s'.inode ip).count = (s.inode ip).count

theorem Touches.refl (ip : Fin n) (dev : Nat) (s : Sys n) : Touches ip dev s s :=
  ⟨rfl, fun _ _ => rfl, id, fun _ _ => rfl, rfl, rfl⟩

theorem Touches.trans {dev : Nat} (h : Touches ip dev s s') (h' : Touches ip dev s' s'') :
    Touches ip dev s s'' :=
  ⟨h'.mnt.trans h.mnt, fun d hd => (h'.fs d hd).trans (h.fs d hd), fun hd => h'.mounted (h.mounted hd),
    fun j hj => (h'.other j hj).trans (h.other j hj), h'.dev.trans h.dev, h'.count.trans h.count⟩

/-- What `iput` does before `iputFree`, and after `iupdat`, for the last reference. -/
def marked (s : Sys n) (ip : Fin n) : Sys n :=
  s.setInode ip { s.inode ip with flag := (s.inode ip).flag ||| ilock }

/-- What the last `iput` of slot `ip` does: the slot is not in use any more. -/
structure Put (ip : Fin n) (s s' : Sys n) : Prop where
  mnt : s'.mnt = s.mnt
  fs : ∀ d, d ≠ (s.inode ip).dev → s'.fs d = s.fs d
  mounted : ∀ d, (s.fs d).isSome → (s'.fs d).isSome
  slot : ∃ x, s'.inode = Function.update s.inode ip x ∧ x.count = 0 ∧ x.number = 0 ∧ x.flag = 0

section
variable {rank : Nat → Nat} {mnt : Fin n → Option Nat} {fs fs' : Nat → Option Fsys}
  {inode : Fin n → Inode}

theorem Sound.mono (h : Sound rank mnt fs inode) (hfs : ∀ d, (fs d).isSome → (fs' d).isSome) :
    Sound rank mnt fs' inode := by
  refine ⟨h.unused, h.room, fun ip hmount => ?_⟩
  obtain ⟨d, hd, hm, hr⟩ := h.mounts ip hmount
  exact ⟨d, hd, hfs d hm, hr⟩

/-- The slot of inode `i` of device `d`, read from `dp`. -/
def slotOf (x : Inode) (d i : Nat) (dp : Dinode) : Inode :=
  iexpand { x with
    dev := d
    number := i
    flag := ilock
    count := x.count + 1
    lastr := 0 } dp

/-- What is left after the turn for number `ino` of device `dev`, where its inode was allocated
after all: the cache as it was, or with the number back in it, and then its inode is free. -/
structure Left (rank : Nat → Nat) (dev ino : Nat) (f : Fsys) (s s' : Sys n) : Prop where
  sound : Sound rank s'.mnt s'.fs s'.inode
  core : ∀ d i, i ≠ 0 → (In s'.inode d i ↔ In s.inode d i)
  fs : s'.fs dev = some f ∨ ∃ f', s'.fs dev = some f' ∧ f'.vol.sb.sNinode = f.vol.sb.sNinode + 1 ∧
    f'.sInode.get f.vol.sb.sNinode.toNat = ino ∧ (f'.dinode ino).mode = 0 ∧ ¬In s.inode dev ino

end

/-! ## The loop -/

/-- The number of inodes on the list of a device. -/
def listed (f : Fsys) : Nat := inopb * (f.vol.sb.sIsize.toNat - (superb + 1))

/-- An inode on the list of the device that is free. -/
def FreeOn (s : Sys n) (dev ino : Nat) : Prop :=
  ∃ f, s.fs dev = some f ∧ 1 ≤ ino ∧ ino ≤ listed f ∧ Free s dev f ino

/-- The answer of `ialloc`: a locked inode from `rootino` on with mode 0, or no space, and then no
such inode is free. -/
def Answers (dev : Nat) (r : Option (Fin n) × Sys n) : Prop :=
  match r.1 with
  | some ip => (r.2.inode ip).flag &&& ilock ≠ 0 ∧ rootino ≤ (r.2.inode ip).number ∧
      (r.2.inode ip).mode = 0
  | none => r.2.uError = some .ENOSPC ∧ ∀ ino, rootino ≤ ino → ¬FreeOn r.2 dev ino

/-- The loop ends, with an answer. -/
def Ends (env : Env) (s : Sys n) (dev : Nat) : Prop :=
  ∃ k, ∀ j, k < j → ∃ r, s.iallocLoop env j dev = .ok r ∧ Answers dev r

/-- The last number in the cache. -/
def top (f : Fsys) : Nat := f.sInode.get (f.vol.sb.sNinode - 1).toNat

section
variable {dev : Nat} {f : Fsys}

theorem Ends.step {s' : Sys n} {k : Nat}
    (hstep : ∀ j, k < j → s.iallocLoop env (j + 1) dev = s'.iallocLoop env j dev)
    (h : Ends env s' dev) : Ends env s dev := by
  obtain ⟨m, hm⟩ := h
  refine ⟨max k m + 1, fun j hj => ?_⟩
  obtain ⟨j, rfl⟩ := Nat.exists_eq_add_one_of_ne_zero (by omega : j ≠ 0)
  rw [hstep j (by omega)]
  exact hm j (by omega)

/-- The result of the search. -/
def found (env : Env) (s : Sys n) (dev : Nat) (f : Fsys) : Cache × Nat :=
  s.scanDev env dev f (f.vol.sb.sIsize.toNat - (superb + 1)) 1 s.tick (f.sInode, f.vol.sb.sNinode)

/-- The device after `getfs` and the sleep. -/
def started (f : Fsys) : Fsys :=
  { f with
    vol := Fs.getfs f.vol
    sIlock := false }

end

/-- All transfers are done. -/
def quiet : Env where
  ioErr := fun _ => false
  stale := fun _ _ => Bytes.zero

end Venix.Iget
