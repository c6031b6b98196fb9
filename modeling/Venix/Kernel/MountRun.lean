/-
  Runs of `smount` and `sumount`.

  Devices, superblock buffers and covered inodes are resources that the slots of the table have, and
  the calls under way that will have them; no two have the same (`Owners`). `Buffers` and `Inodes` say
  that what they have is busy, locked and counted. Every step keeps this but for two, which act on
  what a search found before a sleep: the store into the slot when `bread` is done, and the release
  of the inode when the device is closed. `Fine` is the condition under which these are right, and
  `mounts_apart` says that every run of such steps is.
-/
import Venix.Lib.Excl
import Venix.Lib.Run
import Venix.Kernel.Mount

namespace Venix.Sys3

open Venix.Lib

set_option linter.unusedSectionVars false

/-! ## Who has what -/

namespace Pc

variable {Dev : Type} {c : Pc Dev}

theorem lock_of_ref {ip : Fin ninode} (h : c.ref = some ip) : c.lock = some ip := by
  cases c <;> first | exact h | cases h

theorem lock_of_last {ip : Fin ninode} (h : c.last = some ip) : c.lock = some ip := by
  cases c <;> first | exact h | cases h

theorem slot_of_leave {i : Fin nmount} (h : c.leave = some i) : c.slot = some i := by
  cases c <;> first | exact h | cases h

/-- A call that has stored into a slot is in `geteblk`. -/
theorem claim_eq {i : Fin nmount} (h : c.claim = some i) :
    ∃ bp dev ip r, c = .geteblk bp dev i ip r := by
  cases c with
  | geteblk bp dev mp ip r =>
    cases h
    exact ⟨bp, dev, ip, r, rfl⟩
  | _ => cases h

theorem leave_eq {i : Fin nmount} (h : c.leave = some i) : ∃ ip, c = .plock i ip ∨ c = .uput i ip := by
  cases c with
  | plock mp ip =>
    cases h
    exact ⟨ip, .inl rfl⟩
  | uput mp ip =>
    cases h
    exact ⟨ip, .inr rfl⟩
  | _ => cases h

end Pc

namespace Mount

variable {Dev : Type} {m : Mount Dev}

theorem mounted_eq_some {d : Dev} : m.mounted = some d ↔ m.bufp ≠ none ∧ m.dev = d := by
  unfold mounted
  cases m.bufp <;> simp

theorem cover_eq_some {ip : Fin ninode} :
    m.cover = some ip ↔ m.bufp ≠ none ∧ m.inodp = some ip := by
  unfold cover
  cases m.bufp <;> simp

end Mount

namespace Sys

variable {P Dev D : Type} [Fintype P] [DecidableEq P] [DecidableEq Dev]
variable {s : Sys P Dev D}

def devOf (s : Sys P Dev D) : P ⊕ Fin nmount → Option Dev := both (Pc.dev ∘ s.pc) (Mount.mounted ∘ s.mount)

def bufOf (s : Sys P Dev D) : P ⊕ Fin nmount → Option (Fin nbuf) :=
  both (Pc.buf ∘ s.pc) (Mount.bufp ∘ s.mount)

def refOf (s : Sys P Dev D) : P ⊕ Fin nmount → Option (Fin ninode) :=
  both (Pc.ref ∘ s.pc) (Mount.cover ∘ s.mount)

def lockOf (s : Sys P Dev D) : P → Option (Fin ninode) := Pc.lock ∘ s.pc

def leaveOf (s : Sys P Dev D) : P → Option (Fin nmount) := Pc.leave ∘ s.pc

section Setters

variable (s) (p : P) (c : Pc Dev) (i : Fin nmount) (m : Mount Dev) (ip : Fin ninode) (x : Inode Dev)
  (b : Fin nbuf) (v : Bool) (y : Filsys D)

@[simp] theorem pc_setPc : (s.setPc p c).pc = Function.update s.pc p c := rfl
@[simp] theorem mount_setPc : (s.setPc p c).mount = s.mount := rfl
@[simp] theorem inode_setPc : (s.setPc p c).inode = s.inode := rfl
@[simp] theorem rootdir_setPc : (s.setPc p c).rootdir = s.rootdir := rfl
@[simp] theorem busy_setPc : (s.setPc p c).busy = s.busy := rfl
@[simp] theorem pc_setMount : (s.setMount i m).pc = s.pc := rfl
@[simp] theorem mount_setMount : (s.setMount i m).mount = Function.update s.mount i m := rfl
@[simp] theorem inode_setMount : (s.setMount i m).inode = s.inode := rfl
@[simp] theorem rootdir_setMount : (s.setMount i m).rootdir = s.rootdir := rfl
@[simp] theorem busy_setMount : (s.setMount i m).busy = s.busy := rfl
@[simp] theorem pc_setInode : (s.setInode ip x).pc = s.pc := rfl
@[simp] theorem mount_setInode : (s.setInode ip x).mount = s.mount := rfl
@[simp] theorem inode_setInode : (s.setInode ip x).inode = Function.update s.inode ip x := rfl
@[simp] theorem rootdir_setInode : (s.setInode ip x).rootdir = s.rootdir := rfl
@[simp] theorem busy_setInode : (s.setInode ip x).busy = s.busy := rfl
@[simp] theorem pc_setBusy : (s.setBusy b v).pc = s.pc := rfl
@[simp] theorem mount_setBusy : (s.setBusy b v).mount = s.mount := rfl
@[simp] theorem inode_setBusy : (s.setBusy b v).inode = s.inode := rfl
@[simp] theorem rootdir_setBusy : (s.setBusy b v).rootdir = s.rootdir := rfl
@[simp] theorem busy_setBusy : (s.setBusy b v).busy = Function.update s.busy b v := rfl
@[simp] theorem pc_setFs : (s.setFs b y).pc = s.pc := rfl
@[simp] theorem mount_setFs : (s.setFs b y).mount = s.mount := rfl
@[simp] theorem inode_setFs : (s.setFs b y).inode = s.inode := rfl
@[simp] theorem rootdir_setFs : (s.setFs b y).rootdir = s.rootdir := rfl
@[simp] theorem busy_setFs : (s.setFs b y).busy = s.busy := rfl

theorem devOf_setPc : (s.setPc p c).devOf = Function.update s.devOf (.inl p) c.dev := by
  unfold devOf
  rw [pc_setPc, Function.comp_update, both_update_left]
  rfl

theorem bufOf_setPc : (s.setPc p c).bufOf = Function.update s.bufOf (.inl p) c.buf := by
  unfold bufOf
  rw [pc_setPc, Function.comp_update, both_update_left]
  rfl

theorem refOf_setPc : (s.setPc p c).refOf = Function.update s.refOf (.inl p) c.ref := by
  unfold refOf
  rw [pc_setPc, Function.comp_update, both_update_left]
  rfl

theorem lockOf_setPc : (s.setPc p c).lockOf = Function.update s.lockOf p c.lock :=
  Function.comp_update _ _ _ _

theorem leaveOf_setPc : (s.setPc p c).leaveOf = Function.update s.leaveOf p c.leave :=
  Function.comp_update _ _ _ _

theorem devOf_setMount : (s.setMount i m).devOf = Function.update s.devOf (.inr i) m.mounted := by
  unfold devOf
  rw [mount_setMount, Function.comp_update, both_update_right]
  rfl

theorem bufOf_setMount : (s.setMount i m).bufOf = Function.update s.bufOf (.inr i) m.bufp := by
  unfold bufOf
  rw [mount_setMount, Function.comp_update, both_update_right]
  rfl

theorem refOf_setMount : (s.setMount i m).refOf = Function.update s.refOf (.inr i) m.cover := by
  unfold refOf
  rw [mount_setMount, Function.comp_update, both_update_right]
  rfl

end Setters

/-! ## The owners -/

/-- No two have the same, and a call finds the slot as it has left it. -/
structure Owners (s : Sys P Dev D) : Prop where
  devs : Excl s.devOf
  bufs : Excl s.bufOf
  refs : Excl s.refOf
  locks : Excl s.lockOf
  leaves : Excl s.leaveOf
  claimed : ∀ p bp dev mp ip r, s.pc p = .geteblk bp dev mp ip r → s.mount mp = ⟨dev, none, some ip⟩
  leaving : ∀ p mp ip, s.pc p = .plock mp ip ∨ s.pc p = .uput mp ip →
    (s.mount mp).cover = some ip
  slots : ∀ p, (s.pc p).slot ≠ some 0
  covers : ∀ i, i ≠ 0 → (s.mount i).bufp ≠ none → (s.mount i).inodp ≠ none
  root : (s.mount 0).bufp ≠ none ∧ (s.mount 0).inodp = none

/-- Two calls that have stored into the table have not stored into one slot. -/
theorem Owners.claims (h : Owners s) : Excl (Pc.claim ∘ s.pc) := by
  intro p q i hp hq
  obtain ⟨bp, dev, ip, r, hp⟩ := Pc.claim_eq hp
  obtain ⟨bq, dev', iq, r', hq⟩ := Pc.claim_eq hq
  have hm := (h.claimed p _ _ _ _ _ hp).symm.trans (h.claimed q _ _ _ _ _ hq)
  have hd : dev = dev' := congrArg Mount.dev hm
  refine Sum.inl.inj (h.devs (k := dev) (i := .inl p) (j := .inl q) ?_ ?_)
  · exact congrArg Pc.dev hp
  · rw [hd]
    exact congrArg Pc.dev hq

theorem Owners.claim_free (h : Owners s) {p : P} {i : Fin nmount} (hp : (s.pc p).claim = some i) :
    (s.mount i).bufp = none := by
  obtain ⟨bp, dev, ip, r, hp⟩ := Pc.claim_eq hp
  rw [h.claimed p _ _ _ _ _ hp]

theorem Owners.leave_mounted (h : Owners s) {p : P} {i : Fin nmount}
    (hp : s.leaveOf p = some i) : (s.mount i).bufp ≠ none := by
  obtain ⟨ip, hp⟩ := Pc.leave_eq hp
  exact (Mount.cover_eq_some.mp (h.leaving p i ip hp)).1

theorem Owners.setPc (h : Owners s) {p : P} {c : Pc Dev}
    (hdev : ∀ d x, c.dev = some d → s.devOf x = some d → x = .inl p)
    (hbuf : ∀ b x, c.buf = some b → s.bufOf x = some b → x = .inl p)
    (href : ∀ ip x, c.ref = some ip → s.refOf x = some ip → x = .inl p)
    (hlock : ∀ ip q, c.lock = some ip → s.lockOf q = some ip → q = p)
    (hleave : ∀ i q, c.leave = some i → s.leaveOf q = some i → q = p)
    (hclaimed : ∀ bp dev mp ip r, c = .geteblk bp dev mp ip r → s.mount mp = ⟨dev, none, some ip⟩)
    (hleaving : ∀ mp ip, c = .plock mp ip ∨ c = .uput mp ip → (s.mount mp).cover = some ip)
    (hslot : c.slot ≠ some 0) : Owners (s.setPc p c) where
  devs := by
    rw [devOf_setPc]
    exact h.devs.update hdev
  bufs := by
    rw [bufOf_setPc]
    exact h.bufs.update hbuf
  refs := by
    rw [refOf_setPc]
    exact h.refs.update href
  locks := by
    rw [lockOf_setPc]
    exact h.locks.update hlock
  leaves := by
    rw [leaveOf_setPc]
    exact h.leaves.update hleave
  claimed q := by
    rw [pc_setPc, Function.update_apply]
    split
    · exact hclaimed
    · exact h.claimed q
  leaving q := by
    rw [pc_setPc, Function.update_apply]
    split
    · exact hleaving
    · exact h.leaving q
  slots q := by
    rw [pc_setPc, Function.update_apply]
    split
    · exact hslot
    · exact h.slots q
  covers := h.covers
  root := h.root

theorem Owners.setMount (h : Owners s) {i : Fin nmount} {m : Mount Dev} (hi : i ≠ 0)
    (hdev : ∀ d x, m.mounted = some d → s.devOf x = some d → x = .inr i)
    (hbuf : ∀ b x, m.bufp = some b → s.bufOf x = some b → x = .inr i)
    (href : ∀ ip x, m.cover = some ip → s.refOf x = some ip → x = .inr i)
    (hclaim : ∀ q, (s.pc q).claim ≠ some i) (hleave : ∀ q, s.leaveOf q ≠ some i)
    (hcover : m.bufp ≠ none → m.inodp ≠ none) : Owners (s.setMount i m) where
  devs := by
    rw [devOf_setMount]
    exact h.devs.update hdev
  bufs := by
    rw [bufOf_setMount]
    exact h.bufs.update hbuf
  refs := by
    rw [refOf_setMount]
    exact h.refs.update href
  locks := h.locks
  leaves := h.leaves
  claimed q bp dev mp ip r hq := by
    have hne : mp ≠ i := by
      rintro rfl
      exact hclaim q (congrArg Pc.claim hq)
    rw [mount_setMount, Function.update_of_ne hne]
    exact h.claimed q bp dev mp ip r hq
  leaving q mp ip hq := by
    have hne : mp ≠ i := by
      rintro rfl
      rcases hq with hq | hq <;> exact hleave q (congrArg Pc.leave hq)
    rw [mount_setMount, Function.update_of_ne hne]
    exact h.leaving q mp ip hq
  slots := h.slots
  covers j hj := by
    rw [mount_setMount, Function.update_apply]
    split
    · exact hcover
    · exact h.covers j hj
  root := by
    rw [mount_setMount, Function.update_of_ne (Ne.symm hi)]
    exact h.root

theorem Owners.congr {s' : Sys P Dev D} (h : Owners s) (hpc : s'.pc = s.pc)
    (hm : s'.mount = s.mount) : Owners s' := by
  cases s
  cases s'
  cases hpc
  cases hm
  exact ⟨h.devs, h.bufs, h.refs, h.locks, h.leaves, h.claimed, h.leaving, h.slots, h.covers, h.root⟩

/-! ## The buffers and the inodes -/

def Buffers (s : Sys P Dev D) : Prop := ∀ x b, s.bufOf x = some b → s.busy b = true

/-- The inodes that calls and slots have. -/
structure Inodes (s : Sys P Dev D) : Prop where
  locked : ∀ p ip, s.lockOf p = some ip → (s.inode ip).lock = true
  held : ∀ x ip, s.refOf x = some ip → (s.inode ip).refs = (s.inode ip).others + 1
  free : ∀ ip, (∀ x, s.refOf x ≠ some ip) → (s.inode ip).refs = (s.inode ip).others
  small : ∀ ip, (s.inode ip).refs ≤ 127
  marked : ∀ i ip, (s.mount i).cover = some ip → (∀ p, s.leaveOf p ≠ some i) →
    (s.inode ip).mount = true
  notRoot : ∀ p, (s.pc p).last ≠ some s.rootdir
  root : (s.inode s.rootdir).dev = some (s.mount 0).dev ∧ 1 ≤ (s.inode s.rootdir).others

theorem Inodes.nonneg (h : Inodes s) (ip : Fin ninode) : 0 ≤ (s.inode ip).refs := by
  by_cases hx : ∃ x, s.refOf x = some ip
  · obtain ⟨x, hx⟩ := hx
    have := h.held x ip hx
    omega
  · have := h.free ip (not_exists.mp hx)
    omega

/-- The low byte of `refs` is `refs`. -/
theorem Inodes.count (h : Inodes s) (ip : Fin ninode) :
    (s.inode ip).count.toInt = (s.inode ip).refs := by
  have h0 := h.nonneg ip
  have h1 := h.small ip
  exact Int8.toInt_ofInt_of_le (by omega) (by omega)

theorem Inodes.refs_of_count (h : Inodes s) {ip : Fin ninode} {k : Int8}
    (hk : (s.inode ip).count = k) : (s.inode ip).refs = k.toInt := by
  rw [← h.count, hk]

/-- From `s` to `s'` the inode `ip` becomes `x`, and the calls and slots that change have no other. -/
structure OnlyAt (s s' : Sys P Dev D) (ip : Fin ninode) (x : Inode Dev) : Prop where
  inode : s'.inode = Function.update s.inode ip x
  rootdir : s'.rootdir = s.rootdir
  root : (s'.mount 0).dev = (s.mount 0).dev
  ref : ∀ y j, j ≠ ip → (s'.refOf y = some j ↔ s.refOf y = some j)
  lock : ∀ q j, j ≠ ip → s'.lockOf q = some j → s.lockOf q = some j
  last : ∀ q j, j ≠ ip → (s'.pc q).last = some j → (s.pc q).last = some j
  leave : ∀ i j, j ≠ ip → (s'.mount i).cover = some j → (∀ q, s'.leaveOf q ≠ some i) →
    ∀ q, s.leaveOf q ≠ some i

namespace OnlyAt

variable {s' : Sys P Dev D} {ip : Fin ninode} {x : Inode Dev}

theorem refl (s : Sys P Dev D) (ip : Fin ninode) : OnlyAt s s ip (s.inode ip) :=
  ⟨(Function.update_eq_self ip s.inode).symm, rfl, rfl, fun _ _ _ => Iff.rfl, fun _ _ _ h => h,
    fun _ _ _ h => h, fun _ _ _ _ h => h⟩

theorem setInode (s : Sys P Dev D) (ip : Fin ninode) (x : Inode Dev) :
    OnlyAt s (s.setInode ip x) ip x :=
  ⟨rfl, rfl, rfl, fun _ _ _ => Iff.rfl, fun _ _ _ h => h, fun _ _ _ h => h, fun _ _ _ _ h => h⟩

theorem congr {s'' : Sys P Dev D} (h : OnlyAt s s' ip x) (hpc : s''.pc = s'.pc)
    (hm : s''.mount = s'.mount) (hi : s''.inode = s'.inode) (hr : s''.rootdir = s'.rootdir) :
    OnlyAt s s'' ip x := by
  cases s'
  cases s''
  cases hpc
  cases hm
  cases hi
  cases hr
  exact ⟨h.inode, h.rootdir, h.root, h.ref, h.lock, h.last, h.leave⟩

theorem setPc (h : OnlyAt s s' ip x) {p : P} {c : Pc Dev}
    (hold : ∀ j, (s'.pc p).lock = some j → j = ip) (hnew : ∀ j, c.lock = some j → j = ip)
    (hleave : ∀ i j, (s'.pc p).leave = some i → (s'.mount i).cover = some j → j ≠ ip →
      c.leave = some i) : OnlyAt s (s'.setPc p c) ip x where
  inode := h.inode
  rootdir := h.rootdir
  root := h.root
  ref y j hj := by
    rw [refOf_setPc, Function.update_apply, ← h.ref y j hj]
    split
    · next hy =>
      subst hy
      refine iff_of_false (fun hc => hj (hnew j (Pc.lock_of_ref hc))) fun hc => ?_
      exact hj (hold j (Pc.lock_of_ref hc))
    · rfl
  lock q j hj hq := by
    rw [lockOf_setPc, Function.update_apply] at hq
    split at hq
    · exact absurd (hnew j hq) hj
    · exact h.lock q j hj hq
  last q j hj hq := by
    rw [pc_setPc, Function.update_apply] at hq
    split at hq
    · exact absurd (hnew j (Pc.lock_of_last hq)) hj
    · exact h.last q j hj hq
  leave i j hj hi hq := by
    refine h.leave i j hj hi fun q hl => ?_
    have hq' := hq q
    rw [leaveOf_setPc, Function.update_apply] at hq'
    split at hq'
    · next hqp =>
      subst hqp
      exact hq' (hleave i j hl hi hj)
    · exact hq' hl

theorem setMount (h : OnlyAt s s' ip x) {i : Fin nmount} {m : Mount Dev} (hi : i ≠ 0)
    (hold : ∀ j, (s'.mount i).cover = some j → j = ip) (hnew : ∀ j, m.cover = some j → j = ip) :
    OnlyAt s (s'.setMount i m) ip x where
  inode := h.inode
  rootdir := h.rootdir
  root := by
    rw [mount_setMount, Function.update_of_ne (Ne.symm hi)]
    exact h.root
  ref y j hj := by
    rw [refOf_setMount, Function.update_apply, ← h.ref y j hj]
    split
    · next hy =>
      subst hy
      exact iff_of_false (fun hc => hj (hnew j hc)) fun hc => hj (hold j hc)
    · rfl
  lock := h.lock
  last := h.last
  leave i' j hj hc hq := by
    rw [mount_setMount, Function.update_apply] at hc
    split at hc
    · exact absurd (hnew j hc) hj
    · exact h.leave i' j hj hc hq

end OnlyAt

/-- A step at one inode. -/
theorem Inodes.change {s' : Sys P Dev D} {ip : Fin ninode} {x : Inode Dev} (h : Inodes s)
    (ho : OnlyAt s s' ip x) (hlock : ∀ q, s'.lockOf q = some ip → x.lock = true)
    (hheld : ∀ y, s'.refOf y = some ip → x.refs = x.others + 1)
    (hfree : (∀ y, s'.refOf y ≠ some ip) → x.refs = x.others) (hsmall : x.refs ≤ 127)
    (hmark : ∀ i, (s'.mount i).cover = some ip → (∀ q, s'.leaveOf q ≠ some i) → x.mount = true)
    (hroot : ip = s.rootdir → x.dev = (s.inode ip).dev ∧ 1 ≤ x.others ∧
      ∀ q, (s'.pc q).last ≠ some ip) : Inodes s' := by
  have hself : s'.inode ip = x := by rw [ho.inode, Function.update_self]
  have hother : ∀ j, j ≠ ip → s'.inode j = s.inode j := by
    intro j hj
    rw [ho.inode, Function.update_of_ne hj]
  refine ⟨?_, ?_, ?_, ?_, ?_, ?_, ?_⟩
  · intro q j hq
    by_cases hj : j = ip
    · subst hj
      rw [hself]
      exact hlock q hq
    · rw [hother j hj]
      exact h.locked q j (ho.lock q j hj hq)
  · intro y j hy
    by_cases hj : j = ip
    · subst hj
      rw [hself]
      exact hheld y hy
    · rw [hother j hj]
      exact h.held y j ((ho.ref y j hj).mp hy)
  · intro j hy
    by_cases hj : j = ip
    · subst hj
      rw [hself]
      exact hfree hy
    · rw [hother j hj]
      exact h.free j fun y hc => hy y ((ho.ref y j hj).mpr hc)
  · intro j
    by_cases hj : j = ip
    · subst hj
      rw [hself]
      exact hsmall
    · rw [hother j hj]
      exact h.small j
  · intro i j hi hq
    by_cases hj : j = ip
    · subst hj
      rw [hself]
      exact hmark i hi hq
    · rw [hother j hj]
      have hcover : s.refOf (.inr i) = some j := (ho.ref (.inr i) j hj).mp hi
      exact h.marked i j hcover (ho.leave i j hj hi hq)
  · intro q hq
    rw [ho.rootdir] at hq
    by_cases hj : s.rootdir = ip
    · exact (hroot hj.symm).2.2 q (hj ▸ hq)
    · exact h.notRoot q (ho.last q _ hj hq)
  · rw [ho.rootdir, ho.root]
    by_cases hj : s.rootdir = ip
    · rw [hj, hself]
      obtain ⟨h1, h2, -⟩ := hroot hj.symm
      rw [h1, ← hj]
      exact ⟨h.root.1, h2⟩
    · rw [hother _ hj]
      exact h.root

/-- A process that goes on with the same inode. -/
theorem Inodes.setPc_same (h : Inodes s) {p : P} {c : Pc Dev} (href : c.ref = (s.pc p).ref)
    (hlock : c.lock = (s.pc p).lock) (hleave : c.leave = (s.pc p).leave) (hlast : c.last = none) :
    Inodes (s.setPc p c) := by
  have hr : (s.setPc p c).refOf = s.refOf := by
    rw [refOf_setPc, href]
    exact Function.update_eq_self _ _
  have hl : (s.setPc p c).lockOf = s.lockOf := by
    rw [lockOf_setPc, hlock]
    exact Function.update_eq_self _ _
  have hv : (s.setPc p c).leaveOf = s.leaveOf := by
    rw [leaveOf_setPc, hleave]
    exact Function.update_eq_self _ _
  refine ⟨?_, ?_, ?_, h.small, ?_, ?_, h.root⟩
  · rw [hl]
    exact h.locked
  · rw [hr]
    exact h.held
  · rw [hr]
    exact h.free
  · rw [hv]
    exact h.marked
  · intro q
    rw [pc_setPc, Function.update_apply]
    split
    · rw [hlast]
      exact nofun
    · exact h.notRoot q

structure Inv (s : Sys P Dev D) : Prop where
  owners : Owners s
  buffers : Buffers s
  inodes : Inodes s

/-! ## The steps of the calls -/

theorem Inv.setPc (hi : Inv s) {p : P} {c : Pc Dev} (ho : Owners (s.setPc p c))
    (hb : c.buf = none) (hn : Inodes (s.setPc p c)) : Inv (s.setPc p c) := by
  refine ⟨ho, fun x b hx => ?_, hn⟩
  rw [bufOf_setPc, hb, Function.update_apply] at hx
  split at hx
  · cases hx
  · exact hi.buffers x b hx

/-- The only holder of an inode. -/
theorem Inv.ref_unique (hi : Inv s) {p : P} {ip : Fin ninode} (hp : (s.pc p).ref = some ip)
    {x : P ⊕ Fin nmount} (hx : s.refOf x = some ip) : x = .inl p :=
  hi.owners.refs hx (j := .inl p) hp

theorem Inv.lock_unique (hi : Inv s) {p : P} {ip : Fin ninode} (hp : (s.pc p).lock = some ip)
    {q : P} (hq : s.lockOf q = some ip) : q = p :=
  hi.owners.locks hq hp

theorem leave_of_ref {c : Pc Dev} {ip : Fin ninode} (h : c.ref = some ip) : c.leave = none := by
  cases c <;> first | rfl | cases h

/-- A call that puts back the inode that it has. -/
theorem Inv.put (hi : Inv s) {p : P} {ip : Fin ninode} (hp : (s.pc p).ref = some ip)
    {x : Inode Dev} (hrefs : x.refs = (s.inode ip).refs - 1)
    (hothers : x.others = (s.inode ip).others)
    (hroot : ip = s.rootdir → x.dev = (s.inode ip).dev) :
    Inv ((s.setInode ip x).setPc p .idle) := by
  have hheld := hi.inodes.held (.inl p) ip hp
  have hsmall := hi.inodes.small ip
  have hlp := Pc.lock_of_ref hp
  have hset : Owners (s.setInode ip x) := hi.owners.congr rfl rfl
  have howners : Owners ((s.setInode ip x).setPc p .idle) :=
    hset.setPc nofun nofun nofun nofun nofun nofun (fun _ _ h => by rcases h with h | h <;> cases h)
      nofun
  have honly : OnlyAt s ((s.setInode ip x).setPc p .idle) ip x := by
    refine (OnlyAt.setInode s ip x).setPc (fun j hj => ?_) nofun fun i j hl _ _ => ?_
    · exact Option.some.inj (hj.symm.trans hlp)
    · rw [pc_setInode, leave_of_ref hp] at hl
      cases hl
  -- nobody has the inode any more
  have hnone : ∀ y, ((s.setInode ip x).setPc p .idle).refOf y ≠ some ip := by
    intro y hy
    rw [refOf_setPc, Function.update_apply] at hy
    split at hy
    · cases hy
    · next hne => exact hne (hi.ref_unique hp hy)
  refine ⟨howners, fun y b hy => ?_, hi.inodes.change honly ?_ ?_ ?_ (by omega) ?_ ?_⟩
  · rw [bufOf_setPc, Function.update_apply] at hy
    split at hy
    · cases hy
    · exact hi.buffers y b hy
  · intro q hq
    rw [lockOf_setPc, Function.update_apply] at hq
    split at hq
    · cases hq
    · next hne => exact absurd (hi.lock_unique hlp hq) hne
  · exact fun y hy => absurd hy (hnone y)
  · intro _
    omega
  · exact fun i hc _ => absurd hc (hnone (.inr i))
  · intro hr
    refine ⟨hroot hr, ?_, fun q hq => ?_⟩
    · rw [hothers, hr]
      exact hi.inodes.root.2
    · rw [pc_setPc, Function.update_apply] at hq
      split at hq
      · cases hq
      · exact hi.inodes.notRoot q (hr ▸ hq)

theorem Inv.out (hi : Inv s) {p : P} {ip : Fin ninode} (hp : (s.pc p).ref = some ip) (e : Errno) :
    Inv (s.out p ip e).1 := by
  unfold Sys.out
  split
  · next hc =>
    have hrefs : (s.inode ip).refs = 1 := hi.inodes.refs_of_count hc
    have hheld := hi.inodes.held (.inl p) ip hp
    have hlp := Pc.lock_of_ref hp
    have howners : Owners (s.setPc p (.iput ip e)) := by
      refine hi.owners.setPc nofun nofun (fun j y hj hy => ?_) (fun j q hj hq => ?_) nofun nofun
        (fun _ _ h => by rcases h with h | h <;> cases h) nofun
      · cases hj
        exact hi.ref_unique hp hy
      · cases hj
        exact hi.lock_unique hlp hq
    have honly : OnlyAt s (s.setPc p (.iput ip e)) ip (s.inode ip) := by
      refine (OnlyAt.refl s ip).setPc (fun j hj => ?_) (fun j hj => ?_) fun i j hl _ _ => ?_
      · exact Option.some.inj (hj.symm.trans hlp)
      · exact (Option.some.inj hj).symm
      · rw [leave_of_ref hp] at hl
        cases hl
    refine hi.setPc howners rfl ?_
    refine hi.inodes.change honly (fun _ _ => hi.inodes.locked p ip hlp) (fun _ _ => hheld)
      (fun hn => ?_) (hi.inodes.small ip) (fun i hc' hq => ?_) fun hr => ?_
    · refine absurd ?_ (hn (.inl p))
      rw [refOf_setPc, Function.update_self]
      rfl
    · cases hi.ref_unique hp (x := .inr i) hc'
    · have hroot := hi.inodes.root.2
      rw [← hr] at hroot
      omega
  · exact hi.put hp rfl rfl fun _ => rfl

/-- The slot that the loop finds is free, and the device is not mounted. -/
theorem search_some {dev : Dev} {mp : Fin nmount} (l : List (Fin nmount)) :
    ∀ {smp : Option (Fin nmount)}, s.search dev l smp = some mp →
      (∀ i, smp = some i → (s.mount i).bufp = none) →
      (s.mount mp).bufp = none ∧ ∀ i ∈ l, (s.mount i).mounted ≠ some dev := by
  induction l with
  | nil => exact fun h hs => ⟨hs mp h, fun i hi => nomatch hi⟩
  | cons i l ih =>
    intro smp h hs
    rw [search] at h
    split at h
    · next hb =>
      split at h
      · cases h
      · next hne =>
        obtain ⟨hfree, hall⟩ := ih h hs
        refine ⟨hfree, List.forall_mem_cons.mpr ⟨fun hm => ?_, hall⟩⟩
        exact hne (Mount.mounted_eq_some.mp hm).2.symm
    · next hb =>
      have hb := not_not.mp hb
      obtain ⟨hfree, hall⟩ := ih h (by
        intro j hj
        split at hj
        · cases hj
          exact hb
        · exact hs j hj)
      refine ⟨hfree, List.forall_mem_cons.mpr ⟨fun hm => ?_, hall⟩⟩
      exact (Mount.mounted_eq_some.mp hm).1 hb

/-- A call that takes over the only reference to an inode. -/
theorem Inv.take (hi : Inv s) {p : P} {ip : Fin ninode} {c : Pc Dev} (hp : s.pc p = .idle)
    (hs : s.Spares ip) (hone : (s.inode ip).count = 1) (href : c.ref = some ip)
    (hslot : c.slot ≠ some 0) (hdev : c.dev = none) (hbuf : c.buf = none) :
    Inv ((s.setInode ip { s.inode ip with others := (s.inode ip).others - 1 }).setPc p c) := by
  obtain ⟨⟨hlocked, hnot⟩, hspare⟩ := hs
  have hrefs : (s.inode ip).refs = 1 := hi.inodes.refs_of_count hone
  have hlock := Pc.lock_of_ref href
  have hleave : c.leave = none := leave_of_ref href
  have hpos : 1 ≤ (s.inode ip).others := by split at hspare <;> omega
  -- the rest of the kernel has the only one
  have hfree : ∀ y, s.refOf y ≠ some ip := by
    intro y hy
    have := hi.inodes.held y ip hy
    omega
  have hothers := hi.inodes.free ip hfree
  have hne : ip ≠ s.rootdir := by
    rintro rfl
    rw [if_pos rfl] at hspare
    omega
  have hset : Owners (s.setInode ip { s.inode ip with others := (s.inode ip).others - 1 }) :=
    hi.owners.congr rfl rfl
  refine ⟨?_, ?_, hi.inodes.change ((OnlyAt.setInode s ip _).setPc ?_ ?_ ?_) ?_ ?_ ?_ ?_ ?_ ?_⟩
  · refine hset.setPc ?_ ?_ ?_ ?_ ?_ ?_ ?_ hslot
    · rw [hdev]
      exact nofun
    · rw [hbuf]
      exact nofun
    · intro j y hj hy
      rw [href] at hj
      cases hj
      exact absurd hy (hfree y)
    · intro j q hj hq
      rw [hlock] at hj
      cases hj
      exact absurd ⟨q, hq⟩ hnot
    · rw [hleave]
      exact nofun
    · rintro _ _ _ _ _ rfl
      cases hdev
    · rintro mp j (rfl | rfl) <;> cases hleave
  · intro y b hy
    rw [bufOf_setPc, hbuf, Function.update_apply] at hy
    split at hy
    · cases hy
    · exact hi.buffers y b hy
  · intro j hj
    rw [pc_setInode, hp] at hj
    cases hj
  · intro j hj
    exact Option.some.inj (hj.symm.trans hlock)
  · intro i j hl _ _
    rw [pc_setInode, hp] at hl
    cases hl
  · exact fun _ _ => hlocked
  · intro _ _
    dsimp only
    omega
  · intro hn
    refine absurd ?_ (hn (.inl p))
    rw [refOf_setPc, Function.update_self, href]
  · exact hi.inodes.small ip
  · intro i hc _
    exact absurd hc (hfree (.inr i))
  · exact fun h => absurd h hne

/-- A step of the rest of the kernel at an inode. -/
theorem Inv.setInode (hi : Inv s) {ip : Fin ninode} {x : Inode Dev}
    (hlock : s.Held ip → x.lock = true)
    (hrefs : x.refs - x.others = (s.inode ip).refs - (s.inode ip).others) (hsmall : x.refs ≤ 127)
    (hmark : (∃ y, s.refOf y = some ip) → x.mount = (s.inode ip).mount)
    (hroot : ip = s.rootdir → x.dev = (s.inode ip).dev ∧ 1 ≤ x.others) : Inv (s.setInode ip x) := by
  refine ⟨hi.owners.congr rfl rfl, hi.buffers, ?_⟩
  refine hi.inodes.change (OnlyAt.setInode s ip x) (fun q hq => hlock ⟨q, hq⟩) (fun y hy => ?_)
    (fun hn => ?_) hsmall (fun i hc hq => ?_) fun hr => ?_
  · have := hi.inodes.held y ip hy
    omega
  · have := hi.inodes.free ip hn
    omega
  · rw [hmark ⟨.inr i, hc⟩]
    exact hi.inodes.marked i ip hc hq
  · obtain ⟨h1, h2⟩ := hroot hr
    exact ⟨h1, h2, fun q => hr ▸ hi.inodes.notRoot q⟩

/-- An inode has no fewer references than the rest of the kernel has to it. -/
theorem Inodes.others_le (h : Inodes s) (ip : Fin ninode) :
    ((s.inode ip).others : Int) ≤ (s.inode ip).refs ∧
      ((s.inode ip).refs = (s.inode ip).others ∨ ∃ y, s.refOf y = some ip) := by
  by_cases hx : ∃ y, s.refOf y = some ip
  · obtain ⟨y, hy⟩ := hx
    have := h.held y ip hy
    exact ⟨by omega, .inr ⟨y, hy⟩⟩
  · have := h.free ip (not_exists.mp hx)
    exact ⟨by omega, .inl this⟩

/-- The rest of the kernel puts back an inode that it has locked. -/
theorem Inv.spare (hi : Inv s) {ip : Fin ninode} (hs : s.Spares ip) {x : Inode Dev}
    (hrefs : x.refs = (s.inode ip).refs - 1) (hothers : x.others = (s.inode ip).others - 1)
    (hkept : (s.inode ip).count ≠ 1 → x.mount = (s.inode ip).mount ∧ x.dev = (s.inode ip).dev) :
    Inv (s.setInode ip x) := by
  obtain ⟨⟨-, hnot⟩, hspare⟩ := hs
  have hsmall := hi.inodes.small ip
  have hpos : 1 ≤ (s.inode ip).others := by split at hspare <;> omega
  refine hi.setInode (fun h => absurd h hnot) (by omega) (by omega) ?_ ?_
  · rintro ⟨y, hy⟩
    refine (hkept fun hone => ?_).1
    have hone' : (s.inode ip).refs = 1 := hi.inodes.refs_of_count hone
    have := hi.inodes.held y ip hy
    omega
  · intro hr
    rw [if_pos hr] at hspare
    refine ⟨(hkept fun hone => ?_).2, by omega⟩
    have hone' : (s.inode ip).refs = 1 := hi.inodes.refs_of_count hone
    have := (hi.inodes.others_le ip).1
    omega

/-- Nothing changes for a process that is idle. -/
theorem setPc_idle {p : P} (hp : s.pc p = .idle) : s.setPc p .idle = s := by
  unfold Sys.setPc
  rw [← hp, Function.update_eq_self]

theorem Inv.smount (hi : Inv s) {p : P} {dev : Dev} {ip : Fin ninode} {ronly : BitVec 16}
    (hp : s.pc p = .idle) (hs : s.Spares ip) :
    Inv ((s.setInode ip { s.inode ip with others := (s.inode ip).others - 1 }).smount
      p dev ip ronly).1 := by
  have hcount : ((s.setInode ip { s.inode ip with others := (s.inode ip).others - 1 }).inode
      ip).count = (s.inode ip).count := by
    rw [inode_setInode, Function.update_self]
    rfl
  -- the error path
  have hout : Inv ((s.setInode ip { s.inode ip with others := (s.inode ip).others - 1 }).out
      p ip .ebusy).1 := by
    unfold Sys.out
    rw [hcount]
    split
    · next hone => exact hi.take hp hs hone rfl nofun rfl rfl
    · next hone =>
      rw [setPc_idle (by exact hp)]
      unfold Sys.iput Sys.setInode
      dsimp only
      rw [Function.update_self, Function.update_idem]
      exact hi.spare hs rfl rfl fun _ => ⟨rfl, rfl⟩
  unfold Sys.smount
  split
  · exact hout
  · next hone =>
    rw [not_or, not_not, hcount] at hone
    split
    · exact hout
    · next mp hsearch =>
      have hfree := (search_some _ hsearch nofun).1
      refine hi.take hp hs hone.1 rfl (fun h0 => ?_) rfl rfl
      cases h0
      exact hi.owners.root.1 hfree

theorem Inv.opened (hi : Inv s) {p : P} {err : Bool} {r : Sys P Dev D × Option Ret}
    (h : s.opened p err = some r) : Inv r.1 := by
  unfold Sys.opened at h
  split at h
  · next dev mp ip ronly hp =>
    have href : (s.pc p).ref = some ip := congrArg Pc.ref hp
    have hlock : (s.pc p).lock = some ip := congrArg Pc.lock hp
    split at h
    · cases h
      exact hi.out href .ebusy
    · cases h
      refine hi.setPc ?_ rfl (hi.inodes.setPc_same ?_ ?_ ?_ rfl)
      · refine hi.owners.setPc nofun nofun (fun j y hj hy => ?_) (fun j q hj hq => ?_) nofun nofun
          (fun _ _ h => by rcases h with h | h <;> cases h) ?_
        · cases hj
          exact hi.ref_unique href hy
        · cases hj
          exact hi.lock_unique hlock hq
        · have := hi.owners.slots p
          rw [hp] at this
          exact this
      · exact href.symm
      · exact hlock.symm
      · rw [hp]
        rfl
  · cases h

/-- The slot that a call has found is still free, and the device is still not in the table. -/
def Vacant (s : Sys P Dev D) (dev : Dev) (mp : Fin nmount) : Prop :=
  (s.mount mp).bufp = none ∧ (∀ q, (s.pc q).claim ≠ some mp) ∧ ∀ i, (s.mount i).mounted ≠ some dev

theorem Inv.setFs (hi : Inv s) (b : Fin nbuf) (x : Filsys D) : Inv (s.setFs b x) :=
  ⟨hi.owners.congr rfl rfl, hi.buffers,
    ⟨hi.inodes.locked, hi.inodes.held, hi.inodes.free, hi.inodes.small, hi.inodes.marked,
      hi.inodes.notRoot, hi.inodes.root⟩⟩

theorem Inv.setBusy (hi : Inv s) {b : Fin nbuf} {v : Bool}
    (hv : v = true ∨ ∀ y, s.bufOf y ≠ some b) : Inv (s.setBusy b v) := by
  refine ⟨hi.owners.congr rfl rfl, fun y b' hy => ?_,
    ⟨hi.inodes.locked, hi.inodes.held, hi.inodes.free, hi.inodes.small, hi.inodes.marked,
      hi.inodes.notRoot, hi.inodes.root⟩⟩
  rw [busy_setBusy, Function.update_apply]
  split
  · next hb =>
    subst hb
    exact hv.resolve_right fun hn => hn y hy
  · exact hi.buffers y b' hy

/-- A slot that is not mounted is nobody's, whatever is stored into it. -/
theorem Inv.store (hi : Inv s) {mp : Fin nmount} {m : Mount Dev} (hne : mp ≠ 0)
    (hfree : (s.mount mp).bufp = none) (hm : m.bufp = none)
    (hclaim : ∀ q, (s.pc q).claim ≠ some mp) : Inv (s.setMount mp m) ∧
      (s.setMount mp m).devOf = s.devOf ∧ (s.setMount mp m).bufOf = s.bufOf ∧
      (s.setMount mp m).refOf = s.refOf := by
  have hd : m.mounted = (s.mount mp).mounted := by
    unfold Mount.mounted
    rw [hfree, hm]
    rfl
  have hc : m.cover = (s.mount mp).cover := by
    unfold Mount.cover
    rw [hfree, hm]
    rfl
  have hdev : (s.setMount mp m).devOf = s.devOf := by
    rw [devOf_setMount, hd]
    exact Function.update_eq_self _ _
  have hbuf : (s.setMount mp m).bufOf = s.bufOf := by
    rw [bufOf_setMount, hm, ← hfree]
    exact Function.update_eq_self _ _
  have href : (s.setMount mp m).refOf = s.refOf := by
    rw [refOf_setMount, hc]
    exact Function.update_eq_self _ _
  refine ⟨⟨?_, ?_, ?_⟩, hdev, hbuf, href⟩
  · refine hi.owners.setMount hne ?_ ?_ ?_ hclaim ?_ (fun hb => absurd hm hb)
    · intro d y h1 h2
      rw [hd] at h1
      exact hi.owners.devs h2 (j := .inr mp) h1
    · intro b y h1 _
      rw [hm] at h1
      cases h1
    · intro ip y h1 h2
      rw [hc] at h1
      exact hi.owners.refs h2 (j := .inr mp) h1
    · exact fun q hq => hi.owners.leave_mounted hq hfree
  · intro y b hy
    rw [hbuf] at hy
    exact hi.buffers y b hy
  · refine ⟨hi.inodes.locked, ?_, ?_, hi.inodes.small, ?_, hi.inodes.notRoot, ?_⟩
    · rw [href]
      exact hi.inodes.held
    · rw [href]
      exact hi.inodes.free
    · intro i ip hcover
      rw [mount_setMount, Function.update_apply] at hcover
      split at hcover
      · next h =>
        rw [hc, ← h] at hcover
        exact hi.inodes.marked i ip hcover
      · exact hi.inodes.marked i ip hcover
    · rw [mount_setMount, Function.update_of_ne (Ne.symm hne)]
      exact hi.inodes.root

/-- The call now has the slot. -/
theorem Inv.claim (hi : Inv s) {p : P} {bp : Fin nbuf} {dev : Dev} {mp : Fin nmount}
    {ip : Fin ninode} {ronly : BitVec 16} (hp : s.pc p = .bread dev mp ip ronly)
    (hm : s.mount mp = ⟨dev, none, some ip⟩) (hdev : ∀ y, s.devOf y ≠ some dev)
    (hbuf : ∀ y, s.bufOf y ≠ some bp) (hbusy : s.busy bp = true) :
    Inv (s.setPc p (.geteblk bp dev mp ip ronly)) := by
  have href : (s.pc p).ref = some ip := congrArg Pc.ref hp
  have hlock : (s.pc p).lock = some ip := congrArg Pc.lock hp
  have hslot := hi.owners.slots p
  rw [hp] at hslot
  refine ⟨hi.owners.setPc ?_ ?_ ?_ ?_ nofun ?_ ?_ hslot, ?_, hi.inodes.setPc_same ?_ ?_ ?_ rfl⟩
  · intro d y hd hy
    cases hd
    exact absurd hy (hdev y)
  · intro b y hb hy
    cases hb
    exact absurd hy (hbuf y)
  · intro j y hj hy
    cases hj
    exact hi.ref_unique href hy
  · intro j q hj hq
    cases hj
    exact hi.lock_unique hlock hq
  · intro _ _ _ _ _ h
    cases h
    exact hm
  · exact fun _ _ h => by rcases h with h | h <;> cases h
  · intro y b hy
    rw [bufOf_setPc, Function.update_apply] at hy
    split at hy
    · cases hy
      exact hbusy
    · exact hi.buffers y b hy
  · exact href.symm
  · exact hlock.symm
  · exact (congrArg Pc.leave hp).symm

theorem Inv.read (hi : Inv s) {p : P} {bp : Fin nbuf} {x : Filsys D} {err : Bool}
    {r : Sys P Dev D × Option Ret} (h : s.read p bp x err = some r)
    (hv : ∀ dev mp ip ronly, s.pc p = .bread dev mp ip ronly → err = false → s.Vacant dev mp) :
    Inv r.1 := by
  unfold Sys.read at h
  split at h
  · next dev mp ip ronly hp =>
    have hslot := hi.owners.slots p
    rw [hp] at hslot
    have hne : mp ≠ 0 := by
      rintro rfl
      exact hslot rfl
    split at h
    · cases h
    · next hbusy =>
      obtain ⟨hbusy, hdev⟩ := not_or.mp hbusy
      split at h
      · cases h
        exact hi.out (congrArg Pc.ref hp) .eio
      · next herr =>
        cases h
        obtain ⟨hfree, hclaim, hmounted⟩ := hv dev mp ip ronly hp (by simpa using herr)
        have hb : Inv ((s.setBusy bp true).setFs bp x) := (hi.setBusy (.inl rfl)).setFs bp x
        obtain ⟨hs, hd, hbo, -⟩ := hb.store (m := { s.mount mp with inodp := some ip, dev := dev })
          hne hfree hfree hclaim
        refine hs.claim hp ?_ ?_ ?_ ?_
        · rw [mount_setMount, Function.update_self, Mount.mk.injEq]
          exact ⟨rfl, hfree, rfl⟩
        · intro y hy
          rw [hd] at hy
          cases y with
          | inl q => exact hdev ⟨q, hy⟩
          | inr i => exact hmounted i hy
        · intro y hy
          rw [hbo] at hy
          exact hbusy (hi.buffers y bp hy)
        · exact Function.update_self _ _ _
  · cases h

/-- `geteblk` has given the slot a buffer, and the slot takes over what the call had. -/
theorem Inv.gotblk (hi : Inv s) {p : P} {b : Fin nbuf} {r : Sys P Dev D × Option Ret}
    (h : s.gotblk p b = some r) : Inv r.1 := by
  unfold Sys.gotblk at h
  split at h
  · next bp dev mp ip ronly hp =>
    have href : s.refOf (.inl p) = some ip := congrArg Pc.ref hp
    have hlock : (s.pc p).lock = some ip := congrArg Pc.lock hp
    have hdev : s.devOf (.inl p) = some dev := congrArg Pc.dev hp
    have hbuf : s.bufOf (.inl p) = some bp := congrArg Pc.buf hp
    have hclaim : (Pc.claim ∘ s.pc) p = some mp := congrArg Pc.claim hp
    have hm := hi.owners.claimed p _ _ _ _ _ hp
    have hslot := hi.owners.slots p
    rw [hp] at hslot
    have hne : mp ≠ 0 := by
      rintro rfl
      exact hslot rfl
    split at h
    · cases h
    · next hbusy =>
      cases h
      dsimp only
      rw [hm]
      let x : Inode Dev := { s.inode ip with mount := true, lock := false }
      let t : Sys P Dev D := (s.setPc p .idle).setMount mp ⟨dev, some b, some ip⟩
      have hidle : Owners (s.setPc p .idle) :=
        hi.owners.setPc nofun nofun nofun nofun nofun nofun
          (fun _ _ h => by rcases h with h | h <;> cases h) nofun
      -- nobody but the call had what the slot gets
      have hgone : ∀ {κ : Type} {f : P ⊕ Fin nmount → Option κ} {k : κ} {y : P ⊕ Fin nmount},
          Excl f → f (.inl p) = some k → Function.update f (.inl p) none y = some k → False := by
        intro κ f k y hf hk hy
        rw [Function.update_apply] at hy
        split at hy
        · cases hy
        · next hne => exact hne (hf hy hk)
      have howners : Owners t := by
        refine hidle.setMount hne ?_ ?_ ?_ ?_ ?_ (fun _ => Option.some_ne_none ip)
        · intro d y hd hy
          cases hd
          rw [devOf_setPc] at hy
          exact (hgone hi.owners.devs hdev hy).elim
        · intro b' y hb hy
          cases hb
          rw [bufOf_setPc, Function.update_apply] at hy
          split at hy
          · cases hy
          · exact absurd (hi.buffers y b hy) hbusy
        · intro j y hj hy
          cases hj
          rw [refOf_setPc] at hy
          exact (hgone hi.owners.refs href hy).elim
        · intro q hq
          rw [pc_setPc, Function.update_apply] at hq
          split at hq
          · cases hq
          · next hqp => exact hqp (hi.owners.claims hq hclaim)
        · intro q hq
          refine hidle.leave_mounted hq ?_
          rw [mount_setPc, hm]
      have honly : OnlyAt s (((s.setInode ip x).setPc p .idle).setMount mp ⟨dev, some b, some ip⟩)
          ip x := by
        refine OnlyAt.setMount ((OnlyAt.setInode s ip x).setPc ?_ ?_ ?_) hne ?_ ?_
        · intro j hj
          exact Option.some.inj (hj.symm.trans hlock)
        · exact nofun
        · intro i j hl
          rw [pc_setInode, hp] at hl
          cases hl
        · intro j hj
          rw [mount_setPc, mount_setInode, hm] at hj
          cases hj
        · intro j hj
          exact (Option.some.inj hj).symm
      refine ⟨howners.congr rfl rfl, fun y b' hy => ?_,
        hi.inodes.change (honly.congr rfl rfl rfl rfl) (fun q hq => ?_) (fun _ _ => ?_) (fun hn => ?_)
          (hi.inodes.small ip) (fun _ _ _ => rfl) fun hr => ?_⟩
      · have hty : t.bufOf y = some b' := hy
        rw [bufOf_setMount, Function.update_apply] at hty
        rw [busy_setPc, busy_setInode, busy_setBusy, busy_setFs, busy_setMount, busy_setBusy]
        split at hty
        · cases hty
          have hb : b ≠ bp := by
            rintro rfl
            exact hbusy (hi.buffers (.inl p) b hbuf)
          rw [Function.update_of_ne hb, Function.update_self]
        · rw [bufOf_setPc] at hty
          have hb : b' ≠ bp := fun h => hgone hi.owners.bufs hbuf (h ▸ hty)
          rw [Function.update_apply] at hty
          split at hty
          · cases hty
          · rw [Function.update_of_ne hb, Function.update_apply, hi.buffers y b' hty, ite_self]
      · have htq : t.lockOf q = some ip := hq
        rw [show t.lockOf = (s.setPc p .idle).lockOf from rfl, lockOf_setPc,
          Function.update_apply] at htq
        split at htq
        · cases htq
        · next hne => exact absurd (hi.lock_unique hlock htq) hne
      · exact hi.inodes.held (.inl p) ip href
      · refine absurd ?_ (hn (.inr mp))
        show t.refOf (.inr mp) = some ip
        rw [refOf_setMount, Function.update_self]
        rfl
      · have hroot := hi.inodes.root.2
        rw [← hr] at hroot
        refine ⟨rfl, hroot, fun q hq => ?_⟩
        have htq : (t.pc q).last = some ip := hq
        rw [pc_setMount, pc_setPc, Function.update_apply] at htq
        split at htq
        · cases htq
        · exact hi.inodes.notRoot q (hr ▸ htq)
  · cases h

theorem Inv.sumount (hi : Inv s) {p : P} {dev : Dev} (hp : s.pc p = .idle) :
    Inv (s.sumount p dev).1 := by
  unfold Sys.sumount
  split
  · exact hi
  · next mp hfind =>
    have hm : (s.mount mp).mounted = some dev := by simpa using List.find?_some hfind
    split
    · exact hi
    · next hbusy =>
      have hne : mp ≠ 0 := by
        rintro rfl
        refine hbusy ⟨s.rootdir, ?_⟩
        rw [hi.inodes.root.1, (Mount.mounted_eq_some.mp hm).2]
      refine hi.setPc (hi.owners.setPc nofun nofun nofun nofun nofun nofun
        (fun _ _ h => by rcases h with h | h <;> cases h) ?_) rfl (hi.inodes.setPc_same ?_ ?_ ?_ rfl)
      · exact fun h => hne (Option.some.inj h)
      · exact (congrArg Pc.ref hp).symm
      · exact (congrArg Pc.lock hp).symm
      · exact (congrArg Pc.leave hp).symm

/-- The slot is still mounted, and no other call gives it up. -/
def Intact (s : Sys P Dev D) (mp : Fin nmount) : Prop :=
  (s.mount mp).bufp ≠ none ∧ ∀ q, (s.pc q).leave ≠ some mp

theorem Inv.closed (hi : Inv s) {p : P} {mp : Fin nmount} (hp : s.pc p = .dClose mp)
    (hst : s.Intact mp) : ∃ s', s.closed p = .ok (s', none) ∧ Inv s' := by
  obtain ⟨hb, hleave⟩ := hst
  have hslot := hi.owners.slots p
  rw [hp] at hslot
  have hne : mp ≠ 0 := by
    rintro rfl
    exact hslot rfl
  obtain ⟨ip, hip⟩ := Option.ne_none_iff_exists'.mp (hi.owners.covers mp hne hb)
  have hcover : (s.mount mp).cover = some ip := Mount.cover_eq_some.mpr ⟨hb, hip⟩
  have href : s.refOf (.inr mp) = some ip := hcover
  unfold Sys.closed
  rw [hp]
  dsimp only
  rw [hip]
  refine ⟨_, rfl, ?_⟩
  have hset : Owners (s.setInode ip { s.inode ip with mount := false }) := hi.owners.congr rfl rfl
  refine ⟨?_, ?_, hi.inodes.change ((OnlyAt.setInode s ip _).setPc ?_ ?_ ?_) ?_ ?_ ?_ ?_ ?_ ?_⟩
  · refine hset.setPc nofun nofun nofun nofun ?_ nofun ?_ hslot
    · intro i q h hq
      cases h
      exact absurd hq (hleave q)
    · rintro i j (h | h)
      · cases h
        exact hcover
      · cases h
  · intro y b hy
    rw [bufOf_setPc, Function.update_apply] at hy
    split at hy
    · cases hy
    · exact hi.buffers y b hy
  · intro j hj
    rw [pc_setInode, hp] at hj
    cases hj
  · exact nofun
  · intro i j hl
    rw [pc_setInode, hp] at hl
    cases hl
  · intro q hq
    rw [lockOf_setPc, Function.update_apply] at hq
    split at hq
    · cases hq
    · exact hi.inodes.locked q ip hq
  · exact fun _ _ => hi.inodes.held (.inr mp) ip href
  · intro hn
    refine absurd ?_ (hn (.inr mp))
    rw [refOf_setPc, Function.update_of_ne Sum.inr_ne_inl]
    exact href
  · exact hi.inodes.small ip
  · -- the only slot that covers the inode is being given up
    intro i hc hq
    have himp : i = mp := Sum.inr.inj (hi.owners.refs (i := .inr i) hc href)
    refine absurd ?_ (hq p)
    rw [leaveOf_setPc, Function.update_self, himp]
    rfl
  · intro hr
    have hroot := hi.inodes.root.2
    rw [← hr] at hroot
    refine ⟨rfl, hroot, fun q hq => ?_⟩
    rw [pc_setPc, Function.update_apply] at hq
    split at hq
    · cases hq
    · exact hi.inodes.notRoot q (hr ▸ hq)

/-- The last steps of `sumount`: the slot gives up its inode, then its buffer. -/
theorem Inv.freed (hi : Inv s) {p : P} {mp : Fin nmount} {ip : Fin ninode}
    (hp : s.pc p = .plock mp ip ∨ s.pc p = .uput mp ip)
    (hlock : ∀ q, s.lockOf q = some ip → q = p) {x : Inode Dev}
    (hrefs : x.refs = (s.inode ip).refs - 1) (hothers : x.others = (s.inode ip).others)
    (hroot : ip = s.rootdir → x.dev = (s.inode ip).dev) :
    ∃ s', (s.setInode ip x).freed p mp = .ok (s', some .ok) ∧ Inv s' := by
  have hcover := hi.owners.leaving p mp ip hp
  have href : s.refOf (.inr mp) = some ip := hcover
  have hheld := hi.inodes.held (.inr mp) ip href
  have hsmall := hi.inodes.small ip
  have hleave : s.leaveOf p = some mp := by
    rcases hp with hp | hp <;> exact congrArg Pc.leave hp
  have hpref : (s.pc p).ref = none := by
    rcases hp with hp | hp <;> exact congrArg Pc.ref hp
  have hplock : ∀ j, (s.pc p).lock = some j → j = ip := by
    intro j hj
    rcases hp with hp | hp
    · rw [hp] at hj
      cases hj
    · exact Option.some.inj (hj.symm.trans (congrArg Pc.lock hp))
  have hne : mp ≠ 0 := by
    rintro rfl
    exact hi.owners.slots p (Pc.slot_of_leave hleave)
  obtain ⟨bp, hbp⟩ := Option.ne_none_iff_exists'.mp (Mount.cover_eq_some.mp hcover).1
  unfold Sys.freed
  dsimp only
  rw [mount_setInode, hbp]
  refine ⟨_, rfl, ?_⟩
  let m : Mount Dev := { s.mount mp with bufp := none }
  let t : Sys P Dev D := (s.setPc p .idle).setMount mp m
  have hidle : Owners (s.setPc p .idle) :=
    hi.owners.setPc nofun nofun nofun nofun nofun nofun
      (fun _ _ h => by rcases h with h | h <;> cases h) nofun
  have howners : Owners t := by
    refine hidle.setMount hne nofun nofun nofun ?_ ?_ fun h => absurd rfl h
    · intro q hq
      have := hidle.claim_free hq
      rw [mount_setPc, hbp] at this
      cases this
    · intro q hq
      rw [leaveOf_setPc, Function.update_apply] at hq
      split at hq
      · cases hq
      · next hqp => exact hqp (hi.owners.leaves hq hleave)
  have honly : OnlyAt s (((s.setInode ip x).setPc p .idle).setMount mp m) ip x := by
    refine OnlyAt.setMount ((OnlyAt.setInode s ip x).setPc hplock ?_ ?_) hne ?_ ?_
    · exact nofun
    · intro i j hl hc hj
      have himp : i = mp := Option.some.inj (hl.symm.trans hleave)
      subst himp
      exact absurd (Option.some.inj (hc.symm.trans hcover)) hj
    · intro j hj
      exact Option.some.inj (hj.symm.trans hcover)
    · exact nofun
  have hgone : ∀ y, t.refOf y ≠ some ip := by
    intro y hy
    rw [refOf_setMount, Function.update_apply] at hy
    split at hy
    · cases hy
    · next hym =>
      rw [refOf_setPc, Function.update_apply] at hy
      split at hy
      · cases hy
      · exact hym (hi.owners.refs hy href)
  refine ⟨howners.congr rfl rfl, fun y b hy => ?_,
    hi.inodes.change (honly.congr rfl rfl rfl rfl) (fun q hq => ?_) (fun y hy => absurd hy (hgone y))
      (fun _ => by omega) (by omega) (fun i hc _ => absurd hc (hgone (.inr i))) fun hr => ?_⟩
  · have hty : t.bufOf y = some b := hy
    rw [bufOf_setMount, Function.update_apply] at hty
    rw [busy_setPc, busy_setBusy]
    split at hty
    · cases hty
    · next hym =>
      rw [bufOf_setPc, Function.update_apply] at hty
      split at hty
      · cases hty
      · have hb : b ≠ bp := by
          rintro rfl
          exact hym (hi.owners.bufs hty (j := .inr mp) hbp)
        rw [Function.update_of_ne hb]
        exact hi.buffers y b hty
  · have htq : t.lockOf q = some ip := hq
    rw [show t.lockOf = (s.setPc p .idle).lockOf from rfl, lockOf_setPc,
      Function.update_apply] at htq
    split at htq
    · cases htq
    · next hqp => exact absurd (hlock q htq) hqp
  · have hr2 := hi.inodes.root.2
    rw [← hr, ← hothers] at hr2
    refine ⟨hroot hr, hr2, fun q hq => ?_⟩
    have htq : (t.pc q).last = some ip := hq
    rw [pc_setMount, pc_setPc, Function.update_apply] at htq
    split at htq
    · cases htq
    · exact hi.inodes.notRoot q (hr ▸ htq)

/-- Nobody has locked an inode that is free. -/
theorem Inodes.unlocked (h : Inodes s) {ip : Fin ninode} (hl : (s.inode ip).lock ≠ true) (q : P) :
    s.lockOf q ≠ some ip :=
  fun hq => hl (h.locked q ip hq)

theorem Inv.plock (hi : Inv s) {p : P} {mp : Fin nmount} {ip : Fin ninode}
    (hp : s.pc p = .plock mp ip) (hl : (s.inode ip).lock ≠ true) :
    ∃ r, s.plock p = .ok r ∧ Inv r.1 := by
  have hnone := hi.inodes.unlocked hl
  unfold Sys.plock
  rw [hp]
  dsimp only
  rw [if_neg hl]
  split
  · next hone =>
    refine ⟨_, rfl, ?_⟩
    have hrefs : (s.inode ip).refs = 1 := hi.inodes.refs_of_count hone
    have hcover := hi.owners.leaving p mp ip (.inl hp)
    have href : s.refOf (.inr mp) = some ip := hcover
    have hheld := hi.inodes.held (.inr mp) ip href
    have hleave : s.leaveOf p = some mp := congrArg Pc.leave hp
    have hslot := hi.owners.slots p
    rw [hp] at hslot
    have hset : Owners (s.setInode ip { s.inode ip with lock := true }) := hi.owners.congr rfl rfl
    refine ⟨?_, ?_, hi.inodes.change ((OnlyAt.setInode s ip _).setPc ?_ ?_ ?_) (fun _ _ => rfl)
      (fun _ _ => hheld) (fun hn => ?_) (hi.inodes.small ip) (fun i hc hq => ?_) fun hr => ?_⟩
    · refine hset.setPc nofun nofun nofun ?_ ?_ nofun ?_ hslot
      · intro j q hj hq
        cases hj
        exact absurd hq (hnone q)
      · intro i q h hq
        cases h
        exact hi.owners.leaves hq hleave
      · rintro i j (h | h)
        · cases h
        · cases h
          exact hcover
    · intro y b hy
      rw [bufOf_setPc, Function.update_apply] at hy
      split at hy
      · cases hy
      · exact hi.buffers y b hy
    · intro j hj
      rw [pc_setInode, hp] at hj
      cases hj
    · exact fun j hj => (Option.some.inj hj).symm
    · intro i j h _ _
      rw [pc_setInode, hp] at h
      exact h
    · refine absurd ?_ (hn (.inr mp))
      rw [refOf_setPc, Function.update_of_ne Sum.inr_ne_inl]
      exact href
    · have himp : i = mp := Sum.inr.inj (hi.owners.refs (i := .inr i) hc href)
      refine absurd ?_ (hq p)
      rw [leaveOf_setPc, Function.update_self, himp]
      rfl
    · have hroot := hi.inodes.root.2
      rw [← hr] at hroot
      omega
  · obtain ⟨s', hrun, hi'⟩ := hi.freed
      (x := { s.inode ip with lock := false, refs := (s.inode ip).refs - 1 }) (.inl hp)
      (fun q hq => absurd hq (hnone q)) rfl rfl fun _ => rfl
    exact ⟨_, hrun, hi'⟩

theorem Inv.written (hi : Inv s) {p : P} {ip : Fin ninode} (hp : (s.pc p).last = some ip) :
    ∃ r, s.written p = .ok r ∧ Inv r.1 := by
  have hne : ip ≠ s.rootdir := by
    rintro rfl
    exact hi.inodes.notRoot p hp
  unfold Sys.written
  split
  · next ip' err hpc =>
    rw [hpc] at hp
    cases hp
    exact ⟨_, rfl, hi.put (congrArg Pc.ref hpc) rfl rfl fun h => absurd h hne⟩
  · next mp ip' hpc =>
    rw [hpc] at hp
    cases hp
    have hlock : (s.pc p).lock = some ip := congrArg Pc.lock hpc
    let x : Inode Dev :=
      { s.inode ip with lock := false, mount := false, dev := none, refs := (s.inode ip).refs - 1 }
    obtain ⟨s', hrun, hi'⟩ := hi.freed (x := x) (.inr hpc) (fun q hq => hi.lock_unique hlock hq)
      rfl rfl fun h => absurd h hne
    exact ⟨_, hrun, hi'⟩
  · next hno1 hno2 =>
    cases hpc : s.pc p with
    | iput ip e => exact absurd hpc (hno1 ip e)
    | uput mp ip => exact absurd hpc (hno2 mp ip)
    | _ =>
      rw [hpc] at hp
      cases hp

/-! ## The steps of the rest of the kernel -/

theorem Inv.other (hi : Inv s) {o : Other Dev D} {s' : Sys P Dev D} (h : s.other o = some s')
    (hsmall : ∀ ip, (∃ dev mode, o = .iload ip dev mode) ∨ o = .iget ip ∨ o = .iref ip →
      (s.inode ip).refs < 127) : Inv s' := by
  have hroot := hi.inodes.root.2
  cases o with
  | iload ip dev mode =>
    simp only [Sys.other] at h
    split at h
    · next hc =>
      cases h
      have hlt := hsmall ip (.inl ⟨dev, mode, rfl⟩)
      have hrefs : (s.inode ip).refs = 0 := hi.inodes.refs_of_count hc
      obtain ⟨hle, hor⟩ := hi.inodes.others_le ip
      refine hi.setInode (fun _ => rfl) (by dsimp only; omega) (by dsimp only; omega) ?_ ?_
      · rintro ⟨y, hy⟩
        have := hi.inodes.held y ip hy
        omega
      · rintro rfl
        omega
    · cases h
  | iget ip =>
    simp only [Sys.other] at h
    split at h
    · cases h
      have hlt := hsmall ip (.inr (.inl rfl))
      exact hi.setInode (fun _ => rfl) (by dsimp only; omega) (by dsimp only; omega) (fun _ => rfl)
        fun _ => ⟨rfl, by dsimp only; omega⟩
    · cases h
  | iref ip =>
    cases h
    have hlt := hsmall ip (.inr (.inr rfl))
    exact hi.setInode (fun ⟨q, hq⟩ => hi.inodes.locked q ip hq) (by dsimp only; omega)
      (by dsimp only; omega) (fun _ => rfl) fun _ => ⟨rfl, by dsimp only; omega⟩
  | plock ip =>
    simp only [Sys.other] at h
    split at h
    · cases h
    · cases h
      exact hi.setInode (fun _ => rfl) rfl (hi.inodes.small ip) (fun _ => rfl)
        fun hr => ⟨rfl, hr ▸ hroot⟩
  | prele ip =>
    simp only [Sys.other] at h
    split at h
    · next hl =>
      cases h
      exact hi.setInode (fun hh => absurd hh hl.2) rfl (hi.inodes.small ip) (fun _ => rfl)
        fun hr => ⟨rfl, hr ▸ hroot⟩
    · cases h
  | iput ip =>
    simp only [Sys.other] at h
    split at h
    · next hs =>
      split at h
      · next hone =>
        cases h
        unfold Sys.iputLast Sys.setInode
        dsimp only
        rw [Function.update_self, Function.update_idem]
        exact hi.spare hs rfl rfl fun hne => absurd hone hne
      · cases h
        unfold Sys.iput Sys.setInode
        dsimp only
        rw [Function.update_self, Function.update_idem]
        exact hi.spare hs rfl rfl fun _ => ⟨rfl, rfl⟩
    · cases h
  | getblk b =>
    simp only [Sys.other] at h
    split at h
    · cases h
    · cases h
      exact hi.setBusy (.inl rfl)
  | write b x =>
    simp only [Sys.other] at h
    split at h
    · cases h
      exact hi.setFs b x
    · cases h
  | brelse b =>
    simp only [Sys.other] at h
    split at h
    · next hb =>
      cases h
      refine hi.setBusy (.inr fun y hy => hb.2 ?_)
      cases y with
      | inl q => exact .inl ⟨q, hy⟩
      | inr i => exact .inr ⟨i, hy⟩
    · cases h

/-! ## Runs -/

/-- The steps that do what the searches before them have found: the slot is stored into while it is
    vacant, and given up while it is mounted. And `i_count` stays a `char`. -/
def Fine (s : Sys P Dev D) : Act P Dev D → Prop
  | .read p _ _ err =>
    match s.pc p with
    | .bread dev mp _ _ => err = false → s.Vacant dev mp
    | _ => True
  | .closed p =>
    match s.pc p with
    | .dClose mp => s.Intact mp
    | _ => True
  | .other (.iload ip _ _) | .other (.iget ip) | .other (.iref ip) => (s.inode ip).refs < 127
  | _ => True

theorem step_inv (hi : Inv s) {a : Act P Dev D} (hf : s.Fine a) :
    s.step a ≠ .error .wild ∧ ∀ r, s.step a = .ok r → Inv r.1 := by
  have hok : ∀ {e : Except Fault (Sys P Dev D × Option Ret)},
      e = .error .disabled ∨ (∃ r, e = .ok r ∧ Inv r.1) →
      e ≠ .error .wild ∧ ∀ r, e = .ok r → Inv r.1 := by
    rintro e (rfl | ⟨r, rfl, hr⟩)
    · exact ⟨nofun, nofun⟩
    · refine ⟨nofun, fun r' h => ?_⟩
      cases h
      exact hr
  have helim : ∀ (o : Option (Sys P Dev D × Option Ret)), (∀ r, o = some r → Inv r.1) →
      let e : Except Fault (Sys P Dev D × Option Ret) := o.elim (.error .disabled) .ok
      e ≠ .error .wild ∧ ∀ r, e = .ok r → Inv r.1 := by
    intro o ho
    refine hok ?_
    cases o with
    | none => exact .inl rfl
    | some r => exact .inr ⟨r, rfl, ho r rfl⟩
  cases a with
  | smount p dev ip ronly =>
    refine hok ?_
    simp only [Sys.step]
    split
    · next hp =>
      split
      · next hs => exact .inr ⟨_, rfl, hi.smount hp hs⟩
      · exact .inl rfl
    · exact .inl rfl
  | opened p err => exact helim _ fun r h => hi.opened h
  | read p bp x err =>
    refine helim _ fun r h => hi.read h fun dev mp ip ronly hp => ?_
    simp only [Fine, hp] at hf
    exact hf
  | gotblk p b => exact helim _ fun r h => hi.gotblk h
  | sumount p dev =>
    refine hok ?_
    simp only [Sys.step]
    split
    · next hp => exact .inr ⟨_, rfl, hi.sumount hp⟩
    · exact .inl rfl
  | closed p =>
    refine hok ?_
    by_cases hp : ∃ mp, s.pc p = .dClose mp
    · obtain ⟨mp, hp⟩ := hp
      simp only [Fine, hp] at hf
      obtain ⟨s', hrun, hi'⟩ := hi.closed hp hf
      exact .inr ⟨_, hrun, hi'⟩
    · left
      simp only [Sys.step, Sys.closed]
      split
      · next mp hpc => exact absurd ⟨mp, hpc⟩ hp
      · rfl
  | plock p =>
    refine hok ?_
    by_cases hp : ∃ mp ip, s.pc p = .plock mp ip ∧ (s.inode ip).lock ≠ true
    · obtain ⟨mp, ip, hp, hl⟩ := hp
      exact .inr (hi.plock hp hl)
    · left
      simp only [Sys.step, Sys.plock]
      split
      · next mp ip hpc =>
        rw [if_pos (by_contra fun hl => hp ⟨mp, ip, hpc, hl⟩)]
      · rfl
  | written p =>
    refine hok ?_
    cases hl : (s.pc p).last with
    | some ip => exact .inr (hi.written hl)
    | none =>
      left
      simp only [Sys.step, Sys.written]
      split
      · next hpc =>
        rw [hpc] at hl
        cases hl
      · next hpc =>
        rw [hpc] at hl
        cases hl
      · rfl
  | other o =>
    cases ho : s.other o with
    | none =>
      simp only [Sys.step, ho]
      exact ⟨nofun, nofun⟩
    | some s' =>
      simp only [Sys.step, ho]
      refine ⟨nofun, fun r hr => ?_⟩
      cases hr
      refine hi.other ho fun ip h => ?_
      rcases h with ⟨dev, mode, rfl⟩ | rfl | rfl <;> exact hf

/-- The table after `iinit`: the root is mounted, and no call is under way. -/
structure Start (s : Sys P Dev D) : Prop where
  idle : ∀ p, s.pc p = .idle
  root : (s.mount 0).inodp = none ∧ ∃ b, (s.mount 0).bufp = some b ∧ s.busy b = true
  empty : ∀ i, i ≠ 0 → (s.mount i).bufp = none
  refs : ∀ ip, (s.inode ip).refs = (s.inode ip).others ∧ (s.inode ip).refs ≤ 127
  rootdir : (s.inode s.rootdir).dev = some (s.mount 0).dev ∧ 1 ≤ (s.inode s.rootdir).others

/-- No slot is claimed by two mounts, no device is mounted twice, and every mount has a buffer and,
    but for the root, a covered inode of its own, with a reference to it. -/
structure Apart (s : Sys P Dev D) : Prop where
  slot : Excl (Pc.claim ∘ s.pc) ∧ ∀ p i, (s.pc p).claim = some i → (s.mount i).bufp = none
  device : Excl s.devOf
  buffer : Excl s.bufOf ∧ ∀ i b, (s.mount i).bufp = some b → s.busy b = true
  inode : Excl s.refOf ∧ ∀ i, i ≠ 0 → (s.mount i).bufp ≠ none → ∃ ip, (s.mount i).inodp = some ip ∧
    (s.inode ip).others < (s.inode ip).refs ∧
    ((∀ p, s.leaveOf p ≠ some i) → (s.inode ip).mount = true)

theorem Inv.apart (hi : Inv s) : Apart s := by
  refine ⟨⟨hi.owners.claims, fun p i h => hi.owners.claim_free h⟩, hi.owners.devs,
    ⟨hi.owners.bufs, fun i b h => hi.buffers (.inr i) b h⟩, hi.owners.refs, fun i h0 hb => ?_⟩
  obtain ⟨ip, hip⟩ := Option.ne_none_iff_exists'.mp (hi.owners.covers i h0 hb)
  have hcover : (s.mount i).cover = some ip := Mount.cover_eq_some.mpr ⟨hb, hip⟩
  have hheld := hi.inodes.held (.inr i) ip hcover
  exact ⟨ip, hip, by omega, hi.inodes.marked i ip hcover⟩

theorem Start.inv (h : Start s) : Inv s := by
  obtain ⟨hinodp, b, hb, hbusy⟩ := h.root
  have hpc : s.pc = fun _ => .idle := funext h.idle
  have hone : ∀ {κ : Type} {f : Pc Dev → Option κ} {g : Mount Dev → Option κ} {x k},
      f .idle = none → (∀ m : Mount Dev, m.bufp = none → g m = none) →
      both (f ∘ s.pc) (g ∘ s.mount) x = some k → x = .inr 0 := by
    intro κ f g x k hf hg hx
    cases x with
    | inl p =>
      rw [both_inl, Function.comp_apply, h.idle, hf] at hx
      cases hx
    | inr i =>
      by_cases hi : i = 0
      · rw [hi]
      · rw [both_inr, Function.comp_apply, hg _ (h.empty i hi)] at hx
        cases hx
  have hcover : ∀ i, (s.mount i).cover = none := by
    intro i
    unfold Mount.cover
    by_cases hi : i = 0
    · rw [hi, hinodp, hb]
      rfl
    · rw [h.empty i hi]
      rfl
  have hmount : ∀ m : Mount Dev, m.bufp = none → m.mounted = none := by
    intro m hm
    unfold Mount.mounted
    rw [hm]
    rfl
  have href : ∀ x ip, s.refOf x ≠ some ip := by
    rintro (p | i) ip hx
    · have hx : (s.pc p).ref = some ip := hx
      rw [h.idle] at hx
      cases hx
    · have hx : (s.mount i).cover = some ip := hx
      rw [hcover] at hx
      cases hx
  have hnone : ∀ {κ : Type} {f : Pc Dev → Option κ} (p : P) (k : κ), f .idle = none →
      (f ∘ s.pc) p ≠ some k := by
    intro κ f p k hf hx
    rw [Function.comp_apply, h.idle, hf] at hx
    cases hx
  refine ⟨⟨?_, ?_, ?_, ?_, ?_, ?_, ?_, ?_, ?_, ?_⟩, ?_, ⟨?_, ?_, ?_, ?_, ?_, ?_, h.rootdir⟩⟩
  · exact fun x y k hx hy => (hone rfl hmount hx).trans (hone rfl hmount hy).symm
  · exact fun x y k hx hy => (hone rfl (fun _ h => h) hx).trans (hone rfl (fun _ h => h) hy).symm
  · exact fun x _ k hx => absurd hx (href x k)
  · exact fun p _ k hp => absurd hp (hnone p k rfl)
  · exact fun p _ k hp => absurd hp (hnone p k rfl)
  · intro p _ _ _ _ _ hp
    rw [h.idle] at hp
    cases hp
  · rintro p _ _ (hp | hp) <;> rw [h.idle] at hp <;> cases hp
  · intro p hp
    rw [h.idle] at hp
    cases hp
  · exact fun i hi hne => absurd (h.empty i hi) hne
  · refine ⟨?_, hinodp⟩
    rw [hb]
    exact nofun
  · intro x b' hx
    have hx0 := hone rfl (fun _ h => h) hx
    subst hx0
    have hx : (s.mount 0).bufp = some b' := hx
    rw [hb] at hx
    cases hx
    exact hbusy
  · exact fun p ip hp => absurd hp (hnone p ip rfl)
  · exact fun x ip hx => absurd hx (href x ip)
  · exact fun ip _ => (h.refs ip).1
  · exact fun ip => (h.refs ip).2
  · intro i ip hc
    rw [hcover] at hc
    cases hc
  · intro p hp
    rw [h.idle] at hp
    cases hp

/-- **Mounts are kept apart.** A run of fine steps uses no null pointer, and every state that it
    reaches keeps the mounts apart. -/
theorem mounts_apart (s₀ : Sys P Dev D) (hs : s₀.Start) (acts : List (Act P Dev D))
    (hf : Meets step Fine s₀ acts) :
    runs step s₀ acts ≠ .error .wild ∧
      ∀ s outs, runs step s₀ acts = .ok (s, outs) → s.Apart := by
  have hstep : ∀ (s : Sys P Dev D) a s' o, Inv s → s.Fine a → s.step a = .ok (s', o) → Inv s' :=
    fun s a s' o hi hok h => (step_inv hi hok).2 (s', o) h
  refine ⟨runs_ne_error hstep (fun s a hi hok => (step_inv hi hok).1) hs.inv hf, fun s outs h => ?_⟩
  exact (runs_inv_of_meets hstep hs.inv hf h).apart

instance (s : Sys P Dev D) (dev : Dev) (mp : Fin nmount) : Decidable (s.Vacant dev mp) :=
  inferInstanceAs (Decidable (_ ∧ _ ∧ _))

instance (s : Sys P Dev D) (mp : Fin nmount) : Decidable (s.Intact mp) :=
  inferInstanceAs (Decidable (_ ∧ _))

instance (s : Sys P Dev D) (a : Act P Dev D) : Decidable (s.Fine a) := by
  unfold Fine
  split
  · split <;> infer_instance
  · split <;> infer_instance
  all_goals infer_instance

/-- The root is device 0, and inodes 1 and 2 are locked directories. -/
def boot : Sys (Fin 2) (Fin 3) Unit where
  mount i := if i = 0 then ⟨0, some 0, none⟩ else ⟨0, none, none⟩
  inode ip :=
    if ip.val ≤ 2 then ⟨some 0, 0o040755, ip.val ≠ 0, false, 1, 1⟩ else ⟨none, 0, false, false, 0, 0⟩
  rootdir := 0
  busy b := b.val = 0
  fs _ := ⟨false, false, false, ()⟩
  pc _ := .idle

theorem boot_start : boot.Start where
  idle := fun _ => rfl
  root := ⟨rfl, 0, rfl, rfl⟩
  empty i hi := by
    unfold boot
    dsimp only
    rw [if_neg hi]
  refs ip := by
    unfold boot
    dsimp only
    split <;> simp
  rootdir := ⟨rfl, by decide⟩

def superblock : Filsys Unit := ⟨true, false, false, ()⟩

/-- Device 1 is mounted, and unmounted. -/
def mountAndUnmount : List (Act (Fin 2) (Fin 3) Unit) :=
  [.smount 0 1 1 0, .opened 0 false, .read 0 1 superblock false,
    .gotblk 0 2, .sumount 1 1, .closed 1, .plock 1, .written 1]

theorem mounts_apart_one : runs step boot mountAndUnmount ≠ .error .wild ∧
    ∀ s outs, runs step boot mountAndUnmount = .ok (s, outs) → s.Apart :=
  mounts_apart boot boot_start mountAndUnmount (by decide +kernel)

/-- Devices 1 and 2 are mounted, and each call waits for its superblock after its search. -/
def overlapping : List (Act (Fin 2) (Fin 3) Unit) :=
  [.smount 0 1 1 0, .opened 0 false, .smount 1 2 2 0, .opened 1 false,
    .read 0 1 superblock false, .read 1 2 superblock false]

theorem overlapping_claim_one_slot :
    ∃ s outs, runs step boot overlapping = .ok (s, outs) ∧ ¬s.Apart := by
  have h : (match runs step boot overlapping with
      | .ok (s, _) => decide ((s.pc 0).claim = some 1 ∧ (s.pc 1).claim = some 1)
      | .error _ => false) = true := by decide
  cases hrun : runs step boot overlapping with
  | error e =>
    rw [hrun] at h
    cases h
  | ok r =>
    obtain ⟨s, outs⟩ := r
    rw [hrun] at h
    obtain ⟨h0, h1⟩ := of_decide_eq_true h
    exact ⟨s, outs, rfl, fun hs => absurd (hs.slot.1 h0 h1) (by decide)⟩

end Sys

end Venix.Sys3
