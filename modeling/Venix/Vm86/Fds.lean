/-
  The descriptor table of vm86venix (`venix_open`, `venix_close`, `venix_dup` and `venix_seek` of
  `venix.c`).

  What the host returns comes with each call: an `int`, -1 for an error. The host is a map from its
  descriptors to files. An index past the end of `open_fd` makes the call `none`. `fd` of
  `venix_open` has no value at first; `junk` is what it holds then.

  Proved: a call that meets `Ok` does what it should, in every run of such calls (`fds_sound`).
  Failing calls are `open` of a relative path, `dup` when the host's descriptor is not the index,
  `dup2` to the same index or to index 20, and `seek` of an index past the table.
-/
import Venix.Lib.Run

namespace Venix.Vm86

open Venix.Lib

abbrev Word := BitVec 16

/-- `VENIX_NOFILE`. -/
abbrev venixNofile : Nat := 20

structure Fds where
  openFd : Fin venixNofile → Int
  /-- The file of a descriptor of the host. -/
  file : Int → Option Nat

/-- What the guest gets: -1 with an `errno`, or a value. -/
inductive Ret where
  | error
  | ok (v : Word)
  deriving DecidableEq

inductive FdAct where
  | open (fault slash : Bool) (junk r1 r2 : Int) (f : Nat)
  | close (fd : Word)
  | dup (fildes fildes2 : Word) (r : Int)
  | seek (fd : Word)

namespace Fds

/-! ## The host -/

def hostClose (s : Fds) (d : Int) : Fds := { s with file := Function.update s.file d none }

/-- The host returned `r` for a new file. -/
def hostOpen (s : Fds) (r : Int) (f : Nat) : Fds :=
  if r = -1 then s else { s with file := Function.update s.file r (some f) }

/-- The host returned `r` for `dup(d)`. -/
def hostDup (s : Fds) (d r : Int) : Fds :=
  if r < 0 then s else { s with file := Function.update s.file r (s.file d) }

/-! ## The table -/

def slot (s : Fds) (i : Nat) : Option Int :=
  if h : i < venixNofile then some (s.openFd ⟨i, h⟩) else none

def setSlot (s : Fds) (i : Nat) (d : Int) : Option Fds :=
  if h : i < venixNofile then some { s with openFd := Function.update s.openFd ⟨i, h⟩ d }
  else none

/-- `bad_fd`, which looks at the table only for an index in it. -/
def badFd (s : Fds) (fd : Nat) : Bool :=
  match s.slot fd with
  | none => true
  | some d => d = -1

/-- The loop that looks for the lowest free index. -/
def lowest (s : Fds) : Option (Fin venixNofile) :=
  (List.finRange venixNofile).find? fun i => s.openFd i = -1

/-- `sys_retval_int`. -/
def retvalInt (r : Int) : Ret :=
  let v := BitVec.ofInt 16 r
  if v = 0xffff then .error else .ok v

/-! ## The calls -/

/-- The descriptor that `venix_open` goes on with, and the host after its calls of `open`. -/
def hostFd (s : Fds) (slash : Bool) (junk r1 r2 : Int) (f : Nat) : Int × Fds :=
  let (fd, s) := if slash then (r1, s.hostOpen r1 f) else (junk, s)
  if fd = -1 then (r2, s.hostOpen r2 f) else (fd, s)

def venixOpen (s : Fds) (fault slash : Bool) (junk r1 r2 : Int) (f : Nat) : Option (Ret × Fds) :=
  if fault then some (.error, s)
  else
    match s.lowest with
    | none => some (.error, s)
    | some i =>
      let (fd, s) := s.hostFd slash junk r1 r2 f
      if fd = -1 then some (.error, s)
      else do
        let s ← s.setSlot i fd
        return (retvalInt i, s)

def venixClose (s : Fds) (fd : Word) : Option (Ret × Fds) :=
  if s.badFd fd.toNat then some (.error, s)
  else do
    let d ← s.slot fd.toNat
    let s := if d > 2 then s.hostClose d else s
    let s ← s.setSlot fd.toNat (-1)
    return (retvalInt 0, s)

/-- The end of `venix_dup`. -/
def dupTo (s : Fds) (fildes fildes2 : Nat) (r : Int) : Option (Ret × Fds) := do
  let d ← s.slot fildes
  if r < 0 then return (.error, s)
  else
    let s ← (s.hostDup d r).setSlot fildes2 r
    return (retvalInt r, s)

def venixDup (s : Fds) (fildes fildes2 : Word) (r : Int) : Option (Ret × Fds) :=
  if fildes &&& 0x40 ≠ 0 then
    let fildes := fildes &&& ~~~0x40
    if s.badFd fildes.toNat ∨ fildes2.toNat > venixNofile then some (.error, s)
    else do
      let d ← s.slot fildes2.toNat
      let s ← (if d ≠ -1 then (s.hostClose d).setSlot fildes2.toNat (-1) else some s)
      s.dupTo fildes.toNat fildes2.toNat r
  else if s.badFd fildes.toNat then some (.error, s)
  else
    match s.lowest with
    | none => some (.error, s)
    | some i => s.dupTo fildes.toNat i r

/-- `venix_seek`, which changes nothing here; what it returns is not looked at. -/
def venixSeek (s : Fds) (fd : Word) : Option (Ret × Fds) := do
  let _ ← s.slot fd.toNat
  return (.ok 0, s)

def call (s : Fds) : FdAct → Option (Ret × Fds)
  | .open fault slash junk r1 r2 f => s.venixOpen fault slash junk r1 r2 f
  | .close fd => s.venixClose fd
  | .dup fildes fildes2 r => s.venixDup fildes fildes2 r
  | .seek fd => s.venixSeek fd

def step (s : Fds) (a : FdAct) : Except Unit (Fds × Ret) :=
  match s.call a with
  | none => .error ()
  | some (r, s) => .ok (s, r)

/-! ## What a call should do -/

/-- Only the entry `i` may differ. -/
def Others (s s' : Fds) (i : Nat) : Prop := ∀ j : Fin venixNofile, j.val ≠ i → s'.openFd j = s.openFd j

/-- The lowest free index is returned, and its slot holds the descriptor `d`. -/
def Took (s s' : Fds) (r : Ret) (d : Int) : Prop :=
  ∃ i, s.lowest = some i ∧ r = .ok (BitVec.ofNat 16 i) ∧ s'.openFd i = d ∧ s.Others s' i

/-- What the host returned to the last `open` that is to be made. -/
def opened (slash : Bool) (r1 r2 : Int) : Int := if slash ∧ r1 ≠ -1 then r1 else r2

def isDup2 (fildes : Word) : Bool := fildes &&& 0x40 ≠ 0

/-- What a call has to come to, with `s'` and `r` after it. -/
def Result (s s' : Fds) (r : Ret) : FdAct → Prop
  | .open fault slash _ r1 r2 _ =>
    if fault ∨ s.lowest = none ∨ opened slash r1 r2 = -1 then r = .error ∧ s'.openFd = s.openFd
    else s.Took s' r (opened slash r1 r2)
  | .close fd =>
    if s.badFd fd.toNat then r = .error ∧ s'.openFd = s.openFd
    else r = .ok 0 ∧ s'.slot fd.toNat = some (-1) ∧ s.Others s' fd.toNat
  | .dup fildes fildes2 res =>
    if isDup2 fildes then
      let a := (fildes &&& ~~~0x40).toNat
      if s.badFd a ∨ fildes2.toNat ≥ venixNofile then r = .error ∧ s'.openFd = s.openFd
      else s.Others s' fildes2.toNat ∧
        if res < 0 then r = .error
        else r = .ok fildes2 ∧ ∃ da db, s.slot a = some da ∧ s'.slot fildes2.toNat = some db ∧
          s'.file db = s.file da
    else if s.badFd fildes.toNat ∨ s.lowest = none ∨ res < 0 then
      r = .error ∧ s'.openFd = s.openFd
    else s.Took s' r res
  | .seek _ => s'.openFd = s.openFd

/-- The call uses no index past the table, and comes to what it has to. -/
def Good (s : Fds) (a : FdAct) : Prop := ∃ r s', s.call a = some (r, s') ∧ s.Result s' r a

/-- When a call goes right: `open` of a path from the root; `dup` where the host returns the index
that is to be found; `dup2` where the host returns the second index, which is in the table, and
both have different descriptors; `seek` of an index in the table. -/
def Ok (s : Fds) : FdAct → Prop
  | .open fault slash junk _ _ _ => fault = true ∨ s.lowest = none ∨ slash = true ∨ junk = -1
  | .close _ => True
  | .dup fildes fildes2 res =>
    if isDup2 fildes then
      let a := (fildes &&& ~~~0x40).toNat
      s.badFd a = true ∨ fildes2.toNat > venixNofile ∨
        fildes2.toNat < venixNofile ∧ s.slot a ≠ s.slot fildes2.toNat ∧
          (res < 0 ∨ BitVec.ofInt 16 res = fildes2)
    else s.badFd fildes.toNat = true ∨ res < 0 ∨
      ∀ i, s.lowest = some i → BitVec.ofInt 16 res = BitVec.ofNat 16 i
  | .seek fd => fd.toNat < venixNofile

/-! ## One call -/

variable {s s' : Fds}

theorem slot_of_lt {i : Nat} (h : i < venixNofile) : s.slot i = some (s.openFd ⟨i, h⟩) := by
  unfold slot
  rw [dif_pos h]

theorem setSlot_of_lt {i : Nat} (h : i < venixNofile) (d : Int) :
    s.setSlot i d = some { s with openFd := Function.update s.openFd ⟨i, h⟩ d } := by
  unfold setSlot
  rw [dif_pos h]

theorem lt_of_not_bad {i : Nat} (h : ¬s.badFd i = true) :
    ∃ hi : i < venixNofile, s.openFd ⟨i, hi⟩ ≠ -1 := by
  unfold badFd slot at h
  by_cases hi : i < venixNofile
  · rw [dif_pos hi] at h
    exact ⟨hi, by simpa using h⟩
  · rw [dif_neg hi] at h
    exact absurd rfl h

theorem others_update {i : Nat} (h : i < venixNofile) (d : Int) (file : Int → Option Nat) :
    s.Others { openFd := Function.update s.openFd ⟨i, h⟩ d, file := file } i := by
  intro j hj
  refine Function.update_of_ne ?_ _ _
  rintro rfl
  exact hj rfl

theorem ofNat16_ne {i : Nat} (h : i < venixNofile) : BitVec.ofNat 16 i ≠ 0xffff := by
  intro he
  have hv : (BitVec.ofNat 16 i).toNat = 65535 := by
    rw [he]
    rfl
  rw [BitVec.toNat_ofNat] at hv
  unfold venixNofile at h
  omega

theorem retvalInt_of_index {r : Int} {i : Nat} (h : i < venixNofile)
    (hr : BitVec.ofInt 16 r = BitVec.ofNat 16 i) : retvalInt r = .ok (BitVec.ofNat 16 i) := by
  unfold retvalInt
  dsimp only
  rw [hr, if_neg (ofNat16_ne h)]

theorem hostOpen_openFd (r : Int) (f : Nat) : (s.hostOpen r f).openFd = s.openFd := by
  unfold hostOpen
  split <;> rfl

theorem hostFd_openFd (slash : Bool) (junk r1 r2 : Int) (f : Nat) :
    (s.hostFd slash junk r1 r2 f).2.openFd = s.openFd := by
  unfold hostFd
  cases slash with
  | true => by_cases hr : r1 = -1 <;> simp [hr, hostOpen_openFd]
  | false => by_cases hj : junk = -1 <;> simp [hj, hostOpen_openFd]

theorem hostFd_fd {slash : Bool} {junk : Int} (r1 r2 : Int) (f : Nat)
    (h : slash = true ∨ junk = -1) : (s.hostFd slash junk r1 r2 f).1 = opened slash r1 r2 := by
  unfold hostFd opened
  cases slash with
  | true => by_cases hr : r1 = -1 <;> simp [hr]
  | false =>
    have hj : junk = -1 := h.resolve_left Bool.false_ne_true
    simp [hj]

theorem open_good {fault slash : Bool} {junk r1 r2 : Int} {f : Nat}
    (h : s.Ok (.open fault slash junk r1 r2 f)) : s.Good (.open fault slash junk r1 r2 f) := by
  unfold Good call Result venixOpen
  dsimp only
  by_cases hf : fault = true
  · rw [if_pos hf]
    refine ⟨_, _, rfl, ?_⟩
    rw [if_pos (Or.inl hf)]
    exact ⟨rfl, rfl⟩
  rw [if_neg hf]
  cases hl : s.lowest with
  | none =>
    refine ⟨_, _, rfl, ?_⟩
    rw [if_pos (Or.inr (Or.inl rfl))]
    exact ⟨rfl, rfl⟩
  | some i =>
    have hj : slash = true ∨ junk = -1 := by
      rcases h with h | h | h
      · exact absurd h hf
      · rw [hl] at h
        cases h
      · exact h
    have hfd := hostFd_fd (s := s) r1 r2 f hj
    have htab := hostFd_openFd (s := s) slash junk r1 r2 f
    dsimp only
    rw [hfd]
    by_cases hd : opened slash r1 r2 = -1
    · rw [if_pos hd]
      refine ⟨_, _, rfl, ?_⟩
      rw [if_pos (Or.inr (Or.inr hd))]
      exact ⟨rfl, htab⟩
    · have hcond : ¬(fault = true ∨ some i = none ∨ opened slash r1 r2 = -1) := by
        rintro (h | h | h)
        · exact hf h
        · cases h
        · exact hd h
      rw [if_neg hd, setSlot_of_lt i.isLt]
      refine ⟨_, _, rfl, ?_⟩
      rw [if_neg hcond]
      refine ⟨i, hl, ?_, ?_, ?_⟩
      · exact retvalInt_of_index i.isLt (by rfl)
      · dsimp only
        exact Function.update_self _ _ _
      · rw [htab]
        exact others_update i.isLt _ _

theorem close_good (fd : Word) : s.Good (.close fd) := by
  unfold Good call Result venixClose
  dsimp only
  by_cases hb : s.badFd fd.toNat = true
  · rw [if_pos hb]
    refine ⟨_, _, rfl, ?_⟩
    rw [if_pos hb]
    exact ⟨rfl, rfl⟩
  · obtain ⟨hi, -⟩ := lt_of_not_bad hb
    have htab : ∀ d : Int, (if d > 2 then s.hostClose d else s).openFd = s.openFd := by
      intro d
      split <;> rfl
    rw [if_neg hb, slot_of_lt hi]
    dsimp only [Option.bind_eq_bind, Option.bind_some]
    rw [setSlot_of_lt hi]
    refine ⟨_, _, rfl, ?_⟩
    rw [if_neg hb]
    refine ⟨rfl, ?_, ?_⟩
    · rw [slot_of_lt hi]
      dsimp only
      rw [Function.update_self]
    · rw [htab]
      exact others_update hi _ _

theorem dupTo_eq {a b : Nat} (ha : a < venixNofile) (hb : b < venixNofile) {r : Int}
    (hr : ¬r < 0) : s.dupTo a b r = some (retvalInt r,
      { openFd := Function.update s.openFd ⟨b, hb⟩ r
        file := Function.update s.file r (s.file (s.openFd ⟨a, ha⟩)) }) := by
  unfold dupTo hostDup
  rw [slot_of_lt ha]
  dsimp only [Option.bind_eq_bind, Option.bind_some]
  rw [if_neg hr, if_neg hr, setSlot_of_lt hb]
  rfl

theorem dupTo_error {a : Nat} (ha : a < venixNofile) (b : Nat) {r : Int} (hr : r < 0) :
    s.dupTo a b r = some (.error, s) := by
  unfold dupTo
  rw [slot_of_lt ha]
  dsimp only [Option.bind_eq_bind, Option.bind_some]
  rw [if_pos hr]
  rfl

/-- The table once `dup2` has closed the second index. -/
def closed (s : Fds) (b : Fin venixNofile) : Fds :=
  if s.openFd b ≠ -1 then
    { (s.hostClose (s.openFd b)) with openFd := Function.update s.openFd b (-1) }
  else s

theorem closed_spec {a b : Fin venixNofile} (hne : s.openFd a ≠ s.openFd b) :
    (s.closed b).openFd a = s.openFd a ∧
      (s.closed b).file (s.openFd a) = s.file (s.openFd a) ∧ s.Others (s.closed b) b := by
  have hab : a ≠ b := by
    rintro rfl
    exact hne rfl
  unfold closed
  split
  · refine ⟨Function.update_of_ne hab _ _, Function.update_of_ne hne _ _, ?_⟩
    exact others_update b.isLt _ _
  · exact ⟨rfl, rfl, fun _ _ => rfl⟩

theorem dup2_good {fildes fildes2 : Word} {res : Int} (hd : isDup2 fildes = true)
    (h : s.Ok (.dup fildes fildes2 res)) : s.Good (.dup fildes fildes2 res) := by
  have hbit : fildes &&& 0x40 ≠ 0 := of_decide_eq_true hd
  unfold Ok at h
  dsimp only at h
  rw [if_pos hd] at h
  unfold Good call Result venixDup
  dsimp only
  rw [if_pos hbit]
  simp only [hd, if_true]
  generalize (fildes &&& ~~~0x40).toNat = a at h ⊢
  generalize hb : fildes2.toNat = b at h ⊢
  by_cases hbad : s.badFd a = true
  · rw [if_pos (Or.inl hbad)]
    refine ⟨_, _, rfl, ?_⟩
    rw [if_pos (Or.inl hbad)]
    exact ⟨rfl, rfl⟩
  rcases h.resolve_left hbad with hgt | ⟨hlt, hne, hres⟩
  · rw [if_pos (Or.inr hgt)]
    refine ⟨_, _, rfl, ?_⟩
    rw [if_pos (Or.inr (Nat.le_of_lt hgt))]
    exact ⟨rfl, rfl⟩
  obtain ⟨ha, -⟩ := lt_of_not_bad hbad
  have hn1 : ¬(s.badFd a = true ∨ b > venixNofile) := by
    rintro (h | h)
    · exact hbad h
    · omega
  have hn2 : ¬(s.badFd a = true ∨ b ≥ venixNofile) := by
    rintro (h | h)
    · exact hbad h
    · omega
  rw [if_neg hn1, slot_of_lt hlt]
  rw [slot_of_lt ha, slot_of_lt hlt] at hne
  have hne' : s.openFd ⟨a, ha⟩ ≠ s.openFd ⟨b, hlt⟩ := fun he => hne (congrArg some he)
  obtain ⟨hca, hcf, hco⟩ := closed_spec hne'
  have hclose : (if s.openFd ⟨b, hlt⟩ ≠ -1 then
      (s.hostClose (s.openFd ⟨b, hlt⟩)).setSlot b (-1) else some s) =
        some (s.closed ⟨b, hlt⟩) := by
    unfold closed
    split
    · rw [setSlot_of_lt hlt]
      rfl
    · rfl
  dsimp only [Option.bind_eq_bind, Option.bind_some]
  rw [hclose]
  dsimp only [Option.bind_some]
  by_cases hr : res < 0
  · rw [dupTo_error ha b hr]
    refine ⟨_, _, rfl, ?_⟩
    rw [if_neg hn2, if_pos hr]
    exact ⟨hco, rfl⟩
  · have hidx : BitVec.ofInt 16 res = fildes2 := hres.resolve_left hr
    have hf2 : fildes2 = BitVec.ofNat 16 b := by rw [← hb, BitVec.ofNat_toNat, BitVec.setWidth_eq]
    rw [dupTo_eq ha hlt hr]
    refine ⟨_, _, rfl, ?_⟩
    rw [if_neg hn2, if_neg hr]
    refine ⟨?_, ?_, ?_⟩
    · intro j hj
      exact (others_update (s := s.closed ⟨b, hlt⟩) hlt res _ j hj).trans (hco j hj)
    · rw [hf2]
      exact retvalInt_of_index hlt (hidx.trans hf2)
    · refine ⟨_, _, slot_of_lt ha, slot_of_lt hlt, ?_⟩
      dsimp only
      rw [Function.update_self, Function.update_self, hca, hcf]

theorem dup_good {fildes fildes2 : Word} {res : Int} (hd : isDup2 fildes = false)
    (h : s.Ok (.dup fildes fildes2 res)) : s.Good (.dup fildes fildes2 res) := by
  have hbit : ¬fildes &&& 0x40 ≠ 0 := of_decide_eq_false hd
  have hdf : ¬isDup2 fildes = true := by
    rw [hd]
    exact Bool.false_ne_true
  unfold Ok at h
  dsimp only at h
  rw [if_neg hdf] at h
  unfold Good call Result venixDup
  dsimp only
  rw [if_neg hbit]
  simp only [hd, Bool.false_eq_true, if_false]
  by_cases hbad : s.badFd fildes.toNat = true
  · rw [if_pos hbad]
    refine ⟨_, _, rfl, ?_⟩
    rw [if_pos (Or.inl hbad)]
    exact ⟨rfl, rfl⟩
  rw [if_neg hbad]
  obtain ⟨ha, -⟩ := lt_of_not_bad hbad
  cases hl : s.lowest with
  | none =>
    refine ⟨_, _, rfl, ?_⟩
    rw [if_pos (Or.inr (Or.inl rfl))]
    exact ⟨rfl, rfl⟩
  | some i =>
    dsimp only
    by_cases hr : res < 0
    · rw [dupTo_error ha i hr]
      refine ⟨_, _, rfl, ?_⟩
      rw [if_pos (Or.inr (Or.inr hr))]
      exact ⟨rfl, rfl⟩
    · have hcond : ¬(s.badFd fildes.toNat = true ∨ some i = none ∨ res < 0) := by
        rintro (h | h | h)
        · exact hbad h
        · cases h
        · exact hr h
      have hidx := ((h.resolve_left hbad).resolve_left hr) i hl
      rw [dupTo_eq ha i.isLt hr]
      refine ⟨_, _, rfl, ?_⟩
      rw [if_neg hcond]
      refine ⟨i, hl, retvalInt_of_index i.isLt hidx, ?_, ?_⟩
      · dsimp only
        exact Function.update_self _ _ _
      · exact others_update i.isLt _ _

theorem seek_good {fd : Word} (h : s.Ok (.seek fd)) : s.Good (.seek fd) := by
  unfold Good call Result venixSeek
  dsimp only
  rw [slot_of_lt h]
  exact ⟨_, _, rfl, rfl⟩

theorem good_of_ok {a : FdAct} (h : s.Ok a) : s.Good a := by
  cases a with
  | «open» fault slash junk r1 r2 f => exact open_good h
  | close fd => exact close_good fd
  | dup fildes fildes2 res =>
    cases hd : isDup2 fildes with
    | true => exact dup2_good hd h
    | false => exact dup_good hd h
  | seek fd => exact seek_good h

/-! ## Runs -/

/-- `venix_init`: the first three descriptors are those of the host. -/
def init : Fds :=
  { openFd := fun i => if i.val < 3 then i.val else -1
    file := fun d => if 0 ≤ d ∧ d < 3 then some d.toNat else none }

theorem step_of_good {a : FdAct} (h : s.Good a) : ∃ r s', s.step a = .ok (s', r) := by
  obtain ⟨r, s', hc, -⟩ := h
  refine ⟨r, s', ?_⟩
  unfold step
  rw [hc]

/-- In a run of calls that meet `Ok`, every call is made, and does what it should. -/
theorem meets_good {acts : List FdAct} (h : Meets step Ok s acts) :
    Meets step Good s acts ∧ ∃ s' outs, runs step s acts = .ok (s', outs) := by
  induction acts generalizing s with
  | nil => exact ⟨trivial, s, [], rfl⟩
  | cons a acts ih =>
    obtain ⟨ha, hrest⟩ := h
    have hg := good_of_ok ha
    obtain ⟨r, s₁, hs⟩ := step_of_good hg
    rw [hs] at hrest
    obtain ⟨hm, s₂, outs, hr⟩ := ih hrest
    refine ⟨⟨hg, ?_⟩, s₂, r :: outs, ?_⟩
    · rw [hs]
      exact hm
    · unfold runs
      rw [hs]
      dsimp only
      rw [hr]

/-- From the start, in a run of calls that meet `Ok`, every call does what it should. -/
theorem fds_sound {acts : List FdAct} (h : Meets step Ok init acts) :
    Meets step Good init acts ∧ ∃ s outs, runs step init acts = .ok (s, outs) :=
  meets_good h

/-- `open`, `dup2` and `close`, and a `seek`. -/
def copyOver : List FdAct :=
  [.open false true 0 (-1) 7 1, .dup 0x43 1 1, .close 3, .seek 1, .dup 1 0 3]

theorem fds_sound_copyOver : Meets step Good init copyOver ∧
    ∃ s outs, runs step init copyOver = .ok (s, outs) := by
  refine fds_sound ⟨Or.inr (Or.inr (Or.inl rfl)), ?_, trivial, ?_, ?_, trivial⟩
  · exact Or.inr (Or.inr ⟨by decide, by decide, Or.inr rfl⟩)
  · show (1 : Word).toNat < venixNofile
    decide
  · refine Or.inr (Or.inr fun i hi => ?_)
    cases hi
    rfl

/-- `dup(0)`, for which the host returns 5: the index is 3, but 5 is returned. -/
theorem dup_returns_host : ¬Meets step Good init [.dup 0 0 5] := by
  rintro ⟨⟨r, s, hc, h⟩, -⟩
  have hok : r = .ok 5 := by
    cases hc
    rfl
  obtain ⟨i, hi, hr, -⟩ := h
  cases hi
  rw [hr] at hok
  exact absurd hok (by decide)

/-- `dup2(0, 20)` goes past the table. -/
theorem dup2_past : init.call (.dup 0x40 20 20) = none := rfl

end Fds

end Venix.Vm86
