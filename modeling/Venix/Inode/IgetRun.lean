/-
  `iget` where the block of the inode cannot be read.

  The slot is given back through `iput`, and only `i_dev`, `i_number`, `i_flag`, `i_count` and
  `i_lastr` have been set by then: `i_nlink` is that of the inode that was in the slot before. With
  links, nothing is done. Without, `iput` takes the inode for one that was removed, and frees it.
-/
import Venix.Inode.Iget

namespace Venix.Iget

open Venix.Lib Venix.Fs

variable {n : Nat} {env : Env} {s : Sys n} {ip : Fin n}

/-! ## The search -/

theorem search_fresh {inode : Fin n → Inode} {dev ino : Nat} {l : List (Fin n)}
    {oip : Option (Fin n)} (hoip : ∀ j, oip = some j → (inode j).count = 0)
    (h : search inode dev ino l oip = .fresh ip) : (inode ip).count = 0 := by
  induction l generalizing oip with
  | nil =>
    cases oip with
    | none => cases h
    | some j =>
      cases h
      exact hoip ip rfl
  | cons j rest ih =>
    unfold search at h
    split at h
    · cases h
    · refine ih (fun i hi => ?_) h
      split at hi
      · next hfree =>
        cases hi
        exact hfree.2
      · exact hoip i hi

/-- Tables that are the same up to locks. -/
def SameButLocks (inode inode' : Fin n → Inode) : Prop :=
  ∀ j, ∃ flag, flag &&& imount = (inode j).flag &&& imount ∧ inode' j = { inode j with flag := flag }

theorem SameButLocks.refl (inode : Fin n → Inode) : SameButLocks inode inode :=
  fun j => ⟨(inode j).flag, rfl, rfl⟩

theorem SameButLocks.trans {a b c : Fin n → Inode} (h : SameButLocks a b)
    (h' : SameButLocks b c) : SameButLocks a c := by
  intro j
  obtain ⟨f, hmount, hf⟩ := h j
  obtain ⟨f', hmount', hf'⟩ := h' j
  refine ⟨f', ?_, by rw [hf', hf]⟩
  rw [hmount', hf]
  exact hmount

theorem unlock_imount (flag : BitVec 8) :
    flag &&& ~~~(ilock ||| iwant) &&& imount = flag &&& imount := by
  rw [BitVec.and_assoc]
  rfl

theorem unlocked_same (inode : Fin n → Inode) (ip : Fin n) :
    SameButLocks inode (unlocked inode ip) := by
  intro j
  unfold unlocked
  by_cases h : j = ip
  · subst h
    exact ⟨_, unlock_imount _, Function.update_self _ _ _⟩
  · exact ⟨_, rfl, Function.update_of_ne h _ _⟩

/-- `iget` changes only locks before it has a slot, and the slot is not in use. -/
theorem igetFind_fresh {mnt : Fin n → Option Nat} {k : Nat} {inode inode' : Fin n → Inode}
    {dev ino dev' ino' : Nat} (h : igetFind mnt k inode dev ino = .ok (.fresh ip, dev', ino', inode')) :
    SameButLocks inode inode' ∧ (inode' ip).count = 0 := by
  induction k generalizing inode dev ino with
  | zero => cases h
  | succ k ih =>
    unfold igetFind at h
    split at h
    · split at h
      · obtain ⟨hsame, hcount⟩ := ih h
        exact ⟨(unlocked_same inode _).trans hsame, hcount⟩
      · split at h
        · split at h
          · cases h
          · exact ih h
        · cases h
    · simp only [Except.ok.injEq, Prod.mk.injEq] at h
      obtain ⟨hsearch, -, -, rfl⟩ := h
      refine ⟨SameButLocks.refl inode, search_fresh (fun j (hj : none = some j) => ?_) hsearch⟩
      cases hj

/-! ## `iput` of a slot whose inode was not read -/

@[simp] theorem setInode_self (s : Sys n) (ip : Fin n) (x : Inode) :
    (s.setInode ip x).inode ip = x := Function.update_self _ _ _

theorem setInode_ne (s : Sys n) {ip j : Fin n} (h : j ≠ ip) (x : Inode) :
    (s.setInode ip x).inode j = s.inode j := Function.update_of_ne h _ _

@[simp] theorem setInode_uError (s : Sys n) (ip : Fin n) (x : Inode) :
    (s.setInode ip x).uError = s.uError := rfl

/-- `s'` differs from `s` in slot `ip` only. -/
structure OnlySlot (ip : Fin n) (s s' : Sys n) : Prop where
  inode : ∀ j, j ≠ ip → s'.inode j = s.inode j
  fs : s'.fs = s.fs
  uError : s'.uError = s.uError

theorem OnlySlot.refl (ip : Fin n) (s : Sys n) : OnlySlot ip s s := ⟨fun _ _ => rfl, rfl, rfl⟩

theorem OnlySlot.set {s s' : Sys n} (h : OnlySlot ip s s') (x : Inode) :
    OnlySlot ip s (s'.setInode ip x) :=
  ⟨fun j hj => (setInode_ne s' hj x).trans (h.inode j hj), h.fs, h.uError⟩

/-- The last reference to an inode with links that has no marks. -/
theorem iput_linked (env : Env) (hcount : (s.inode ip).count = 1) (hflag : (s.inode ip).flag = ilock)
    (hlink : 0 < (s.inode ip).nlink.toInt) :
    ∃ s', s.iput env ip = .ok s' ∧ OnlySlot ip s s' := by
  have hnot : ¬(s.inode ip).nlink.toInt ≤ 0 := not_le.2 hlink
  unfold Sys.iput Sys.iputLast Sys.iputFree Sys.iupdat
  rw [if_pos hcount]
  simp only [setInode_self, hflag, if_neg hnot, bind, Except.bind]
  rw [if_neg (by decide)]
  dsimp only
  exact ⟨_, rfl, ((((((OnlySlot.refl ip s).set _).set _).set _).set _).set _)⟩

/-! ## A slot without links -/

section
variable {P : Vol → Prop} {stale : Daddr → Block}

theorem tloopTurns_keeps {deeper : Daddr → Freeing → Freeing} {f1 : Bool} {bn : Daddr}
    (hfree : ∀ v bno b, P v → P (Fs.free v bno b)) (hdeeper : ∀ nb s, P s.v → P (deeper nb s).v)
    {i : Nat} {bp : Option Block} {s : Freeing} (h : P s.v) :
    P (tloopTurns stale deeper f1 bn i bp s).v := by
  induction i generalizing bp s with
  | zero => exact h
  | succ i ih =>
    unfold tloopTurns
    dsimp only
    split
    · exact ih h
    · split
      · exact ih (hdeeper _ s h)
      · exact ih (hfree s.v _ _ h)

theorem tloop_keeps (hfree : ∀ v bno b, P v → P (Fs.free v bno b)) {k : Nat} {bn : Daddr}
    {f1 f2 : Bool} {s : Freeing} (h : P s.v) : P (tloop stale k bn f1 f2 s).v := by
  induction k generalizing bn f1 f2 s with
  | zero => exact h
  | succ k ih => exact hfree _ _ _ (tloopTurns_keeps hfree (fun _ _ h => ih h) h)

theorem itruncSlot_keeps (hfree : ∀ v bno b, P v → P (Fs.free v bno b)) {i : Nat} {bn : Daddr}
    {s : Freeing} (h : P s.v) : P (itruncSlot stale i bn s).v := by
  unfold itruncSlot
  split
  · exact tloop_keeps hfree h
  · split
    · exact tloop_keeps hfree h
    · split
      · exact tloop_keeps hfree h
      · exact hfree s.v _ _ h

/-- What each `free` keeps, `itrunc` keeps. -/
theorem itruncLoop_keeps (hfree : ∀ v bno b, P v → P (Fs.free v bno b)) {i : Nat}
    {r : Freeing × Fs.Inode} (h : P r.1.v) : P (itruncLoop stale i r).1.v := by
  induction i generalizing r with
  | zero => exact h
  | succ i ih =>
    unfold itruncLoop
    dsimp only
    split
    · exact ih h
    · exact ih (itruncSlot_keeps hfree h)

end

/-- `free` leaves an empty cache of inodes empty. -/
theorem free_sNinode (v : Vol) (bno : Daddr) (b : Block) (h : v.sb.sNinode = 0) :
    (Fs.free v bno b).sb.sNinode = 0 := by
  have hgetfs : (Fs.getfs v).sb.sNinode = 0 := by
    unfold Fs.getfs
    split
    · rfl
    · exact h
  unfold Fs.free badblock
  dsimp only
  split
  · next heq =>
    split at heq
    · cases heq
      exact hgetfs
    · cases heq
  · next heq =>
    split at heq
    · cases heq
    · cases heq
      split
      · split
        · exact hgetfs
        · exact hgetfs
      · split
        · exact hgetfs
        · exact hgetfs

/-- A device whose cache of inodes is empty, and can be used. -/
def Empty (f : Fsys) : Prop := f.vol.sb.sNinode = 0 ∧ f.sIlock = false

/-- A device with one inode in the cache. -/
def HasOne (f : Fsys) : Prop := f.vol.sb.sNinode = 1 ∧ f.vol.sb.sNfree ≤ nicfree

theorem itrunc_empty {s s' : Sys n} (hfs : ∀ d, ∃ f, s.fs d = some f ∧ Empty f)
    (h : s.itrunc env ip = .ok s') : ∀ d, ∃ f, s'.fs d = some f ∧ Empty f := by
  unfold Sys.itrunc at h
  dsimp only at h
  split at h
  · cases h
    exact hfs
  · split at h
    · cases h
    · next f hf =>
      cases h
      intro d
      by_cases hd : d = (s.inode ip).dev
      · subst hd
        obtain ⟨f', hf', hnum, hlock⟩ := hfs (s.inode ip).dev
        rw [hf] at hf'
        cases hf'
        exact ⟨_, Function.update_self _ _ _,
          itruncLoop_keeps (P := fun v => v.sb.sNinode = 0) free_sNinode hnum, hlock⟩
      · obtain ⟨f', hf', hemp⟩ := hfs d
        exact ⟨f', (Function.update_of_ne hd _ _).trans hf', hemp⟩

theorem setFs_self (s : Sys n) (dev : Nat) (f : Fsys) : (s.setFs dev f).fs dev = some f :=
  Function.update_self _ _ _

/-- A number goes into an empty cache. -/
theorem ifree_one {s s' : Sys n} {dev ino : Nat} (hfs : ∃ f, s.fs dev = some f ∧ Empty f)
    (h : s.ifree dev ino = .ok s') : ∃ f, s'.fs dev = some f ∧ HasOne f := by
  obtain ⟨f, hf, hnum, hlock⟩ := hfs
  have hnum' : (Fs.getfs f.vol).sb.sNinode = 0 := by
    unfold Fs.getfs
    split
    · rfl
    · exact hnum
  have hfree : (Fs.getfs f.vol).sb.sNfree ≤ nicfree := by
    unfold Fs.getfs
    split
    · exact Int.natCast_nonneg nicfree
    · next hle => omega
  unfold Sys.ifree Sys.getfs at h
  rw [hf] at h
  dsimp only at h
  rw [if_neg (by rw [hlock]; exact Bool.false_ne_true),
    if_neg (by rw [hnum']; decide)] at h
  cases h
  refine ⟨_, setFs_self _ _ _, ?_, hfree⟩
  dsimp only
  rw [hnum']
  rfl

theorem iupdat_one {s s' : Sys n} (hfs : ∃ f, s.fs (s.inode ip).dev = some f ∧ HasOne f)
    (h : s.iupdat env ip = .ok s') : ∃ f, s'.fs (s.inode ip).dev = some f ∧ HasOne f := by
  obtain ⟨f, hf, hone, hfree⟩ := hfs
  have hgetfs : Fs.getfs f.vol = f.vol := by
    unfold Fs.getfs
    refine if_neg (fun hbad => ?_)
    have hnic : (nicinod : Int) = 100 := rfl
    omega
  unfold Sys.iupdat Sys.getfs at h
  dsimp only at h
  rw [hf] at h
  dsimp only at h
  rw [hgetfs] at h
  split at h
  · split at h
    · cases h
      exact ⟨f, setFs_self _ _ _, hone, hfree⟩
    · split at h
      · cases h
        exact ⟨f, setFs_self _ _ _, hone, hfree⟩
      · cases h
        exact ⟨_, setFs_self _ _ _, hone, hfree⟩
  · cases h
    exact ⟨f, hf, hone, hfree⟩

theorem itrunc_dev {s s' : Sys n} (h : s.itrunc env ip = .ok s') :
    (s'.inode ip).dev = (s.inode ip).dev := by
  unfold Sys.itrunc at h
  dsimp only at h
  split at h
  · cases h
    rfl
  · split at h
    · cases h
    · cases h
      rw [setInode_self]

theorem ifree_inode {s s' : Sys n} {dev ino : Nat} (h : s.ifree dev ino = .ok s') :
    s'.inode = s.inode := by
  unfold Sys.ifree at h
  split at h
  · cases h
  · split at h
    · cases h
      rfl
    · split at h
      · cases h
        rfl
      · cases h
        rfl

theorem bind_ok {α β : Type} {x : Except Stop α} {f : α → Except Stop β} {b : β}
    (h : x >>= f = .ok b) : ∃ a, x = .ok a ∧ f a = .ok b := by
  cases x with
  | error e => cases h
  | ok a => exact ⟨a, rfl, h⟩

/-- The last reference to an inode without links: its number goes into the cache. -/
theorem iput_unlinked {s s' : Sys n} (hcount : (s.inode ip).count = 1)
    (hlink : (s.inode ip).nlink.toInt ≤ 0) (hfs : ∀ d, ∃ f, s.fs d = some f ∧ Empty f)
    (h : s.iput env ip = .ok s') : ∃ f, s'.fs (s.inode ip).dev = some f ∧ HasOne f := by
  unfold Sys.iput at h
  rw [if_pos hcount] at h
  obtain ⟨s5, h5, h⟩ := bind_ok h
  cases h
  unfold Sys.iputLast at h5
  obtain ⟨s3, h3, h5⟩ := bind_ok h5
  obtain ⟨s4, h4, h5⟩ := bind_ok h5
  cases h5
  unfold Sys.iputFree at h3
  rw [setInode_self, if_pos hlink] at h3
  obtain ⟨s1, h1, h3⟩ := bind_ok h3
  have hdev : (s1.inode ip).dev = (s.inode ip).dev := by
    rw [itrunc_dev h1, setInode_self]
  have hemp := itrunc_empty (s := s.setInode ip _) hfs h1
  dsimp only at h3
  have hone := ifree_one (s := s1.setInode ip _) (hemp (s1.inode ip).dev) h3
  have hdev3 : (s3.inode ip).dev = (s.inode ip).dev := by
    rw [ifree_inode h3, setInode_self, ← hdev]
  rw [hdev, ← hdev3] at hone
  obtain ⟨f, hf, hf1⟩ := iupdat_one hone h4
  rw [hdev3] at hf
  exact ⟨f, hf, hf1⟩

/-! ## A read that fails -/

/-- `iget` fails for slot `ip` with `EIO`, and that is all: `inode` is the table up to that point. -/
def FailsCleanly (s : Sys n) (inode : Fin n → Inode) (ip : Fin n)
    (r : Except Stop (Option (Fin n) × Sys n)) : Prop :=
  ∃ s', r = .ok (none, s') ∧ s'.uError = some Errno.EIO ∧ s'.fs = s.fs ∧
    ∀ j, j ≠ ip → s'.inode j = inode j

/-- The slot after a read that failed, when `iput` is called. -/
def half (s : Sys n) (ip : Fin n) (dev ino : Nat) : Sys n :=
  { (s.setInode ip { s.inode ip with
      dev := dev
      number := ino
      flag := ilock
      count := (s.inode ip).count + 1
      lastr := 0 }).ticked with uError := some Errno.EIO }

theorem igetRead_fails {dev ino : Nat} (hio : env.ioErr s.tick = true) :
    s.igetRead env ip dev ino = (do
      let s ← (half s ip dev ino).iput env ip
      return (none, s)) := by
  unfold Sys.igetRead
  exact if_pos hio

theorem half_inode (s : Sys n) (ip : Fin n) (dev ino : Nat) :
    (half s ip dev ino).inode ip = { s.inode ip with
      dev := dev
      number := ino
      flag := ilock
      count := (s.inode ip).count + 1
      lastr := 0 } := Function.update_self _ _ _

theorem half_count (dev ino : Nat) (h : (s.inode ip).count = 0) :
    ((half s ip dev ino).inode ip).count = 1 := by
  rw [half_inode, h]
  rfl

/-- A device that has nothing on it. -/
def blank : Fsys where
  vol :=
    { sb :=
        { sIsize := 0
          sFsize := 0
          sNfree := 0
          sFree := fun _ => 0
          sNinode := 0
          sFmod := false }
      disk := fun _ => Bytes.zero
      uError := none
      console := []
      rablock := 0 }
  sInode := fun _ => 0
  sIlock := false
  sRonly := false
  dinode := fun _ =>
    { mode := 0
      nlink := 0
      uid := 0
      gid := 0
      size := 0
      addr := fun _ => 0
      atime := 0
      mtime := 0
      ctime := 0 }

/-- The first transfer fails. -/
def firstFails : Env where
  ioErr := fun i => i == 0
  stale := fun _ _ => Bytes.zero

/-- `iget` with a read that fails changes nothing, whatever the rest of the system is, where the
inode that was in the slot before had links, and only there. -/
theorem iget_ioErr_iff {mnt : Fin n → Option Nat} {k : Nat} {inode inode' : Fin n → Inode}
    {dev ino dev' ino' : Nat}
    (hfind : igetFind mnt k inode dev ino = .ok (.fresh ip, dev', ino', inode')) :
    (∀ (env : Env) (s : Sys n), s.inode = inode → s.mnt = mnt → env.ioErr s.tick = true →
        FailsCleanly s inode' ip (s.iget env k dev ino)) ↔
      0 < (inode ip).nlink.toInt := by
  obtain ⟨hsame, hcount⟩ := igetFind_fresh hfind
  have hnlink : (inode' ip).nlink = (inode ip).nlink := by
    obtain ⟨flag, -, hflag⟩ := hsame ip
    rw [hflag]
  have higet : ∀ (env : Env) (s : Sys n), s.inode = inode → s.mnt = mnt →
      env.ioErr s.tick = true →
      s.iget env k dev ino = (do
        let s ← (half { s with inode := inode' } ip dev' ino').iput env ip
        return (none, s)) := by
    rintro env s rfl rfl hio
    unfold Sys.iget
    rw [hfind]
    exact igetRead_fails hio
  constructor
  · intro h
    by_contra hnot
    let s : Sys n :=
      { inode := inode
        mnt := mnt
        fs := fun _ => some blank
        uError := none
        time := 0
        tick := 0 }
    obtain ⟨s', hrun, -, hfs, -⟩ := h firstFails s rfl rfl rfl
    rw [higet _ s rfl rfl rfl] at hrun
    obtain ⟨s1, h1, h2⟩ := bind_ok hrun
    cases h2
    obtain ⟨f, hf, hone, -⟩ := iput_unlinked (half_count (s := { s with inode := inode' }) dev' ino' hcount)
      (by
        rw [half_inode]
        dsimp only
        rw [hnlink]
        omega)
      (fun _ => ⟨blank, rfl, rfl, rfl⟩) h1
    rw [hfs] at hf
    cases hf
    exact absurd hone (by decide)
  · intro hlink env s hinode hmnt hio
    rw [higet env s hinode hmnt hio]
    obtain ⟨s', hput, honly⟩ := iput_linked env
      (half_count (s := { s with inode := inode' }) dev' ino' hcount)
      (by rw [half_inode])
      (by
        rw [half_inode]
        dsimp only
        rw [hnlink]
        exact hlink)
    rw [hput]
    refine ⟨s', rfl, honly.uError, honly.fs, fun j hj => ?_⟩
    rw [honly.inode j hj]
    exact Function.update_of_ne hj _ _

/-- A slot that was never used: the table after a boot. -/
def unused : Inode where
  flag := 0
  count := 0
  dev := 0
  number := 0
  mode := 0
  nlink := 0
  uid := 0
  gid := 0
  size := 0
  addr := fun _ => 0
  lastr := 0

/-- One inode in core, and a device with nothing on it. -/
def oneSlot (x : Inode) : Sys 1 where
  inode := fun _ => x
  mnt := fun _ => none
  fs := fun _ => some blank
  uError := none
  time := 0
  tick := 0

/-- The slot held an inode with one link. -/
theorem iget_ioErr_linked :
    FailsCleanly (oneSlot { unused with nlink := 1 }) (fun _ => { unused with nlink := 1 }) 0
      ((oneSlot { unused with nlink := 1 }).iget firstFails 1 0 7) := by
  have hfind : igetFind (fun _ : Fin 1 => none) 1 (fun _ => { unused with nlink := 1 }) 0 7 =
      .ok (.fresh 0, 0, 7, fun _ => { unused with nlink := 1 }) := rfl
  exact (iget_ioErr_iff hfind).2 (by decide) firstFails _ rfl rfl rfl

/-- After a boot, inode 7 goes on the list of free inodes when it cannot be read. -/
theorem iget_ioErr_unused :
    ¬FailsCleanly (oneSlot unused) (fun _ => unused) 0 ((oneSlot unused).iget firstFails 1 0 7) := by
  rintro ⟨s', hrun, -, hfs, -⟩
  have hnum : ((oneSlot unused).iget firstFails 1 0 7).toOption.map
      (fun r => (r.2.fs 0).map fun f => f.vol.sb.sNinode) = some (some 1) := by
    decide
  rw [hrun] at hnum
  change some ((s'.fs 0).map fun f => f.vol.sb.sNinode) = some (some 1) at hnum
  rw [hfs] at hnum
  exact absurd hnum (by decide)

end Venix.Iget
