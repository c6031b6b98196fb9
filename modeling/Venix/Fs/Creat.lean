/-
  `creat` and `open1` (`sys2.c`), with `access`, `openi`, `ufalloc` and `falloc` (`fio.c`), `xrele`
  and `xuntext` (`text.c`), and `iput` (`iget.c`).

  One inode is looked at, the one that `namei` or `maknode` returns; it is at `self` in the inode
  table. What these two do otherwise is given, and so is what the drivers do. `cut` is the volume,
  whose operations fail as `e` says; the `u_error` of the volume is that of `itrunc` only. Not in
  the model: the lock of a text, `swapmap`, the write of the inode in `iput` and the list of free
  inodes.
-/
import Venix.Fs.ItruncFaults

namespace Venix.Fs

open Venix.Lib

namespace Creat

/-- `NOFILE`, `NFILE` and `NTEXT` of `param.h`. -/
abbrev nofile : Nat := 20
abbrev nfile : Nat := 175
abbrev ntext : Nat := 40

def fread : BitVec 8 := 0x01
def fwrite : BitVec 8 := 0x02

def ilock : BitVec 8 := 0x01
def iwant : BitVec 8 := 0x10
def itext : BitVec 8 := 0x20

def iread : BitVec 16 := 0x100
def iwrite : BitVec 16 := 0x80

inductive Errno where
  | eio | enxio | eacces | eisdir | enfile | emfile | etxtbsy | erofs
  | other (n : Nat)
  deriving DecidableEq

structure File where
  fFlag : BitVec 8
  fCount : BitVec 8
  fInode : Option Nat
  fOffset : Int

structure Text where
  xCount : BitVec 8
  xIptr : Option Nat

/-- The inode. `iMode` is `i_mode` less the type of the file. -/
structure Incore extends Inode where
  iMode : BitVec 16
  iNlink : Int
  iUid : BitVec 16
  iGid : BitVec 16
  iCount : Int
  iNumber : BitVec 16

structure Creating where
  uUid : BitVec 16
  uGid : BitVec 16
  uError : Option Errno
  uOfile : Fin nofile → Option (Fin nfile)
  uPofile : Fin nofile → BitVec 8
  /-- `u.u_r.r_val1` -/
  uRval1 : Nat
  file : Fin nfile → File
  text : Fin ntext → Text
  sRonly : Bool
  cut : Cutting
  self : Nat
  ip : Incore

/-- The driver tables: `nchrdev` and `nblkdev`, and the `d_open` of a device. -/
structure Devices where
  nchrdev : Nat
  nblkdev : Nat
  cdOpen : BitVec 16 → BitVec 8 → Creating → Creating
  bdOpen : BitVec 16 → BitVec 8 → Creating → Creating

/-- What `namei` comes to. -/
inductive Namei where
  | found
  | missing
  | fails (err : Errno)

namespace Creating

/-- The volume, with no error yet. -/
def start (s : Creating) : Cutting := { s.cut with v := { s.cut.v with uError := none } }

def itrunc (e : Nat → Bool) (stale : Daddr → Block) (s : Creating) : Creating :=
  let r := itruncE e stale s.start s.ip.toInode
  { s with
    cut := r.1
    ip := { s.ip with toInode := r.2 }
    uError := if r.1.v.uError = none then s.uError else some .eio }

def prele (s : Creating) : Creating :=
  { s with ip := { s.ip with iFlag := s.ip.iFlag &&& ~~~ilock &&& ~~~iwant } }

def iput (e : Nat → Bool) (stale : Daddr → Block) (s : Creating) : Creating :=
  let s :=
    if s.ip.iCount = 1 then
      let s := { s with ip := { s.ip with iFlag := s.ip.iFlag ||| ilock } }
      let s :=
        if s.ip.iNlink ≤ 0 then
          let s := s.itrunc e stale
          { s with
            ip :=
              { s.ip with
                iMode := 0
                iFlag := s.ip.iFlag ||| (iupd ||| ichg) } }
        else s
      { s with
        ip :=
          { s.ip with
            iFlag := 0
            iNumber := 0 } }
    else s
  prele { s with ip := { s.ip with iCount := s.ip.iCount - 1 } }

/-- `xuntext`, for a text of the inode. -/
def xuntext (e : Nat → Bool) (stale : Daddr → Block) (xp : Fin ntext) (s : Creating) : Creating :=
  if (s.text xp).xCount ≠ 0 then s
  else
    let s :=
      { s with
        text := Function.update s.text xp { s.text xp with xIptr := none }
        ip := { s.ip with iFlag := s.ip.iFlag &&& ~~~itext } }
    if s.ip.iFlag &&& ilock ≠ 0 then { s with ip := { s.ip with iCount := s.ip.iCount - 1 } }
    else s.iput e stale

def xreleStep (e : Nat → Bool) (stale : Daddr → Block) (s : Creating) (xp : Fin ntext) : Creating :=
  if (s.text xp).xIptr = some s.self then s.xuntext e stale xp else s

/-- The test at the start of `xrele` is of `ITEXT==0`, and never true. -/
def xrele (e : Nat → Bool) (stale : Daddr → Block) (s : Creating) : Creating :=
  (List.finRange ntext).foldl (xreleStep e stale) s

/-- The bits that the user needs in `i_mode`. -/
def needs (s : Creating) (mode : BitVec 16) : BitVec 16 :=
  if s.uUid = s.ip.iUid then mode
  else if s.uGid = s.ip.iGid then mode >>> 3
  else mode >>> 3 >>> 3

def access (e : Nat → Bool) (stale : Daddr → Block) (mode : BitVec 16) (s : Creating) :
    Bool × Creating :=
  if mode = iwrite ∧ s.sRonly then (true, { s with uError := some .erofs })
  else
    let s := if mode = iwrite ∧ s.ip.iFlag &&& itext ≠ 0 then s.xrele e stale else s
    if mode = iwrite ∧ s.ip.iFlag &&& itext ≠ 0 then (true, { s with uError := some .etxtbsy })
    else if s.uUid = 0 then (false, s)
    else if s.ip.iMode &&& s.needs mode ≠ 0 then (false, s)
    else (true, { s with uError := some .eacces })

def openi (dev : Devices) (rw : BitVec 8) (s : Creating) : Creating :=
  let rdev := (s.ip.iAddr.get 0).setWidth 16
  let maj := (rdev >>> 8).toNat
  match s.ip.iType with
  | .ifchr | .ifmpc =>
    if maj ≥ dev.nchrdev then { s with uError := some .enxio } else dev.cdOpen rdev rw s
  | .ifblk | .ifmpb =>
    if maj ≥ dev.nblkdev then { s with uError := some .enxio } else dev.bdOpen rdev rw s
  | .ifreg | .ifdir => s

def ufalloc (s : Creating) : Option (Fin nofile) × Creating :=
  match (List.finRange nofile).find? fun i => (s.uOfile i).isNone with
  | some i =>
    (some i,
      { s with
        uRval1 := i.val
        uPofile := Function.update s.uPofile i 0 })
  | none => (none, { s with uError := some .emfile })

def falloc (s : Creating) : Option (Fin nfile) × Creating :=
  match s.ufalloc with
  | (none, s) => (none, s)
  | (some i, s) =>
    match (List.finRange nfile).find? fun fp => (s.file fp).fCount = 0 with
    | some fp =>
      let f :=
        { s.file fp with
          fCount := (s.file fp).fCount + 1
          fOffset := 0 }
      (some fp,
        { s with
          uOfile := Function.update s.uOfile i (some fp)
          file := Function.update s.file fp f })
    | none =>
      let v := { s.cut.v with console := "no file" :: s.cut.v.console }
      (none,
        { s with
          cut := { s.cut with v := v }
          uError := some .enfile })

/-- `open1` after `falloc`. -/
def open1Slot (e : Nat → Bool) (stale : Daddr → Block) (dev : Devices) (mode : BitVec 8)
    (fp : Fin nfile) (s : Creating) : Creating :=
  let f :=
    { s.file fp with
      fFlag := mode &&& (fread ||| fwrite)
      fInode := some s.self }
  let s := { s with file := Function.update s.file fp f }
  let i := s.uRval1
  let s := s.openi dev (mode &&& fwrite)
  if s.uError = none then s
  else
    let f := { s.file fp with fCount := (s.file fp).fCount - 1 }
    iput e stale
      { s with
        uOfile := fun j => if j.val = i then none else s.uOfile j
        file := Function.update s.file fp f }

/-- `open1` after the checks. -/
def open1Allowed (e : Nat → Bool) (stale : Daddr → Block) (dev : Devices) (mode : BitVec 8) (trf : Nat)
    (s : Creating) : Creating :=
  let s := if trf = 1 then s.itrunc e stale else s
  match s.prele.falloc with
  | (none, s) => s.iput e stale
  | (some fp, s) => s.open1Slot e stale dev mode fp

def open1 (e : Nat → Bool) (stale : Daddr → Block) (dev : Devices) (mode : BitVec 8) (trf : Nat)
    (s : Creating) : Creating :=
  let s :=
    if trf ≠ 2 then
      let s := if mode &&& fread ≠ 0 then (s.access e stale iread).2 else s
      if mode &&& fwrite ≠ 0 then
        let s := (s.access e stale iwrite).2
        if s.ip.iType = .ifdir then { s with uError := some .eisdir } else s
      else s
    else s
  if s.uError ≠ none then s.iput e stale else s.open1Allowed e stale dev mode trf

/-- `creat`; `maknode` also says whether there is a new inode. -/
def creat (e : Nat → Bool) (stale : Daddr → Block) (dev : Devices)
    (maknode : BitVec 16 → Creating → Bool × Creating) (n : Namei) (fmode : BitVec 16)
    (s : Creating) : Creating :=
  match n with
  | .fails err => { s with uError := some err }
  | .missing =>
    match maknode (fmode &&& 0xdff) s with
    | (false, s) => s
    | (true, s) => s.open1 e stale dev fwrite 2
  | .found => s.open1 e stale dev fwrite 1

end Creating

/-! ## What the checks leave as it is -/

/-- Nothing else has changed than the texts, and the lock, the flags and the references of the
    inode. -/
def Kept (s s' : Creating) : Prop :=
  ∃ text flag count number, s' =
    { s with
      text := text
      ip :=
        { s.ip with
          iFlag := flag
          iCount := count
          iNumber := number } }

theorem Kept.refl (s : Creating) : Kept s s := ⟨_, _, _, _, rfl⟩

theorem Kept.trans {s s' s'' : Creating} (h : Kept s s') (h' : Kept s' s'') : Kept s s'' := by
  obtain ⟨_, _, _, _, rfl⟩ := h
  obtain ⟨text, flag, count, number, rfl⟩ := h'
  exact ⟨text, flag, count, number, rfl⟩

namespace Creating

variable {e : Nat → Bool} {stale : Daddr → Block}

theorem iput_kept (e : Nat → Bool) (stale : Daddr → Block) {s : Creating}
    (hlink : 0 < s.ip.iNlink) : Kept s (s.iput e stale) := by
  unfold iput prele
  dsimp only
  split
  · rw [if_neg (by omega)]
    exact ⟨_, _, _, _, rfl⟩
  · exact ⟨_, _, _, _, rfl⟩

theorem iput_itext {s : Creating} (hlink : 0 < s.ip.iNlink) (h : s.ip.iFlag &&& itext = 0) :
    (s.iput e stale).ip.iFlag &&& itext = 0 := by
  have hand : ∀ x : BitVec 8, x &&& itext = 0 → x &&& ~~~ilock &&& ~~~iwant &&& itext = 0 := by
    decide
  unfold iput prele
  dsimp only
  split
  · rw [if_neg (by omega)]
    exact hand 0 (by decide)
  · exact hand s.ip.iFlag h

theorem xreleStep_kept (e : Nat → Bool) (stale : Daddr → Block) {s : Creating}
    (hlink : 0 < s.ip.iNlink) (xp : Fin ntext) : Kept s (xreleStep e stale s xp) := by
  unfold xreleStep xuntext
  dsimp only
  split
  · split
    · exact Kept.refl s
    · split
      · exact ⟨_, _, _, _, rfl⟩
      · refine Kept.trans ?_ (iput_kept e stale hlink)
        exact ⟨_, _, _, _, rfl⟩
  · exact Kept.refl s

theorem foldl_kept (e : Nat → Bool) (stale : Daddr → Block) {s : Creating}
    (hlink : 0 < s.ip.iNlink) (l : List (Fin ntext)) : Kept s (l.foldl (xreleStep e stale) s) := by
  induction l generalizing s with
  | nil => exact Kept.refl s
  | cons xp l ih =>
    have hstep := xreleStep_kept e stale hlink xp
    refine hstep.trans (ih ?_)
    obtain ⟨_, _, _, _, heq⟩ := hstep
    rw [heq]
    exact hlink

/-- Whether a text of the inode is not in use, so that `xrele` can give it up. -/
def Idle (s : Creating) (xp : Fin ntext) : Prop :=
  (s.text xp).xIptr = some s.self ∧ (s.text xp).xCount = 0

theorem xreleStep_busy {s : Creating} {xp : Fin ntext} (h : ¬s.Idle xp) :
    xreleStep e stale s xp = s := by
  unfold xreleStep xuntext
  by_cases hself : (s.text xp).xIptr = some s.self
  · rw [if_pos hself, if_pos fun hcount => h ⟨hself, hcount⟩]
  · rw [if_neg hself]

theorem xreleStep_idle {s : Creating} (hlink : 0 < s.ip.iNlink) {xp : Fin ntext} (h : s.Idle xp) :
    (xreleStep e stale s xp).ip.iFlag &&& itext = 0 := by
  have hclear : ∀ x : BitVec 8, x &&& ~~~itext &&& itext = 0 := by decide
  unfold xreleStep xuntext
  rw [if_pos h.1, if_neg (not_not.2 h.2)]
  dsimp only
  split
  · exact hclear s.ip.iFlag
  · exact iput_itext hlink (hclear s.ip.iFlag)

/-- `ITEXT` stays set as long as all texts of the inode are in use. -/
theorem foldl_itext {s : Creating} (hlink : 0 < s.ip.iNlink) (l : List (Fin ntext)) :
    (l.foldl (xreleStep e stale) s).ip.iFlag &&& itext ≠ 0 ↔
      s.ip.iFlag &&& itext ≠ 0 ∧ ∀ xp ∈ l, ¬s.Idle xp := by
  induction l generalizing s with
  | nil => exact ⟨fun h => ⟨h, fun _ hx => absurd hx List.not_mem_nil⟩, And.left⟩
  | cons xp l ih =>
    rw [List.foldl_cons]
    by_cases hidle : s.Idle xp
    · have hlink' : 0 < (xreleStep e stale s xp).ip.iNlink := by
        obtain ⟨_, _, _, _, heq⟩ := xreleStep_kept e stale hlink xp
        rw [heq]
        exact hlink
      rw [ih hlink']
      exact ⟨fun h => absurd (xreleStep_idle hlink hidle) h.1,
        fun h => absurd hidle (h.2 xp List.mem_cons_self)⟩
    · rw [xreleStep_busy hidle, ih hlink, List.forall_mem_cons]
      exact ⟨fun h => ⟨h.1, hidle, h.2⟩, fun h => ⟨h.1, h.2.2⟩⟩

/-! ## When a file may be written -/

/-- The inode has a text, and each one is in use. -/
def TextHeld (s : Creating) : Prop := s.ip.iFlag &&& itext ≠ 0 ∧ ∀ xp, ¬s.Idle xp

/-- The file may not be written: the volume is read-only, the text is in use, or the mode does not
    allow it. -/
def Refused (s : Creating) : Prop :=
  s.sRonly = true ∨ s.TextHeld ∨ (s.uUid ≠ 0 ∧ s.ip.iMode &&& s.needs iwrite = 0)

/-- `access` for writing, after `xrele`. -/
theorem textHeld_iff (e : Nat → Bool) (stale : Daddr → Block) {s : Creating}
    (hlink : 0 < s.ip.iNlink) :
    (if s.ip.iFlag &&& itext ≠ 0 then s.xrele e stale else s).ip.iFlag &&& itext ≠ 0 ↔
      s.TextHeld := by
  by_cases hflag : s.ip.iFlag &&& itext ≠ 0
  · rw [if_pos hflag, xrele, foldl_itext hlink]
    exact and_congr_right fun _ => ⟨fun h xp => h xp (List.mem_finRange xp), fun h xp _ => h xp⟩
  · rw [if_neg hflag]
    exact ⟨fun h => absurd h hflag, fun h => absurd h.1 hflag⟩

theorem access_write (e : Nat → Bool) (stale : Daddr → Block) {s : Creating}
    (hlink : 0 < s.ip.iNlink) :
    ∃ t, Kept s t ∧
      ((s.Refused ∧ ∃ err, (s.access e stale iwrite).2 = { t with uError := some err }) ∨
        (¬s.Refused ∧ (s.access e stale iwrite).2 = t)) := by
  unfold access
  simp only [true_and]
  by_cases hro : s.sRonly = true
  · rw [if_pos hro]
    exact ⟨s, Kept.refl s, Or.inl ⟨Or.inl hro, .erofs, rfl⟩⟩
  · rw [if_neg hro]
    have hheld := textHeld_iff e stale hlink
    have hkept : Kept s (if s.ip.iFlag &&& itext ≠ 0 then s.xrele e stale else s) := by
      split
      · exact foldl_kept e stale hlink _
      · exact Kept.refl s
    generalize (if s.ip.iFlag &&& itext ≠ 0 then s.xrele e stale else s) = t at hheld hkept
    refine ⟨t, hkept, ?_⟩
    have hperm : t.uUid ≠ 0 ∧ t.ip.iMode &&& t.needs iwrite = 0 ↔
        s.uUid ≠ 0 ∧ s.ip.iMode &&& s.needs iwrite = 0 := by
      obtain ⟨_, _, _, _, rfl⟩ := hkept
      exact Iff.rfl
    unfold Refused
    rw [← hheld, ← hperm]
    by_cases htext : t.ip.iFlag &&& itext ≠ 0
    · rw [if_pos htext]
      exact Or.inl ⟨Or.inr (Or.inl htext), .etxtbsy, rfl⟩
    · rw [if_neg htext]
      by_cases hroot : t.uUid = 0
      · rw [if_pos hroot]
        exact Or.inr ⟨by rintro (h | h | h) <;> [exact hro h; exact htext h; exact h.1 hroot], rfl⟩
      · rw [if_neg hroot]
        by_cases hbits : t.ip.iMode &&& t.needs iwrite = 0
        · rw [if_neg (not_not.2 hbits)]
          exact Or.inl ⟨Or.inr (Or.inr ⟨hroot, hbits⟩), .eacces, rfl⟩
        · rw [if_pos hbits]
          exact Or.inr ⟨by rintro (h | h | h) <;> [exact hro h; exact htext h; exact hbits h.2], rfl⟩

/-! ## The file itself -/

/-- Size, addresses and all blocks are the same. -/
structure SameFile (s s' : Creating) : Prop where
  size : s'.ip.iSize = s.ip.iSize
  addr : s'.ip.iAddr = s.ip.iAddr
  disk : s'.cut.v.disk = s.cut.v.disk

theorem SameFile.trans {s s' s'' : Creating} (h : SameFile s s') (h' : SameFile s' s'') :
    SameFile s s'' :=
  ⟨h'.size.trans h.size, h'.addr.trans h.addr, h'.disk.trans h.disk⟩

theorem SameFile.of_kept {s s' : Creating} (h : Kept s s') : SameFile s s' := by
  obtain ⟨_, _, _, _, rfl⟩ := h
  exact ⟨rfl, rfl, rfl⟩

/-- The `iput` of an error path, for a file that has a link. -/
theorem SameFile.iput {s s' : Creating} (h : SameFile s s') (e : Nat → Bool)
    (stale : Daddr → Block) (hlink : 0 < s'.ip.iNlink) :
    SameFile s (s'.iput e stale) ∧ (s'.iput e stale).uError = s'.uError := by
  have hkept := iput_kept e stale hlink
  refine ⟨h.trans (SameFile.of_kept hkept), ?_⟩
  obtain ⟨_, _, _, _, heq⟩ := hkept
  rw [heq]

/-- There is a descriptor that is not in use, and a slot of the file table. -/
def Slots (s : Creating) : Prop :=
  (∃ i, s.uOfile i = none) ∧ ∃ fp, (s.file fp).fCount = 0

theorem ufalloc_spec (s : Creating) :
    ((∃ i, s.uOfile i = none) ∧ ∃ i n pofile,
        s.ufalloc = (some i, { s with uRval1 := n, uPofile := pofile })) ∨
      ((¬∃ i, s.uOfile i = none) ∧ s.ufalloc = (none, { s with uError := some .emfile })) := by
  unfold ufalloc
  split
  · next i heq =>
    have hfree := List.find?_some heq
    exact Or.inl ⟨⟨i, by simpa using hfree⟩, i, _, _, rfl⟩
  · next heq =>
    rw [List.find?_eq_none] at heq
    refine Or.inr ⟨fun ⟨i, hi⟩ => heq i (List.mem_finRange i) (by simp [hi]), rfl⟩

theorem falloc_spec (s : Creating) :
    (s.Slots ∧ ∃ fp, s.falloc.1 = some fp ∧ s.falloc.2.uError = s.uError ∧
        s.falloc.2.ip = s.ip ∧ s.falloc.2.cut = s.cut) ∨
      (¬s.Slots ∧ s.falloc.1 = none ∧ s.falloc.2.uError ≠ none ∧ s.falloc.2.ip = s.ip ∧
        s.falloc.2.cut.v.disk = s.cut.v.disk) := by
  unfold falloc
  rcases ufalloc_spec s with ⟨hfd, i, n, pofile, heq⟩ | ⟨hfd, heq⟩
  · rw [heq]
    dsimp only
    split
    · next fp hfp =>
      have hfree := List.find?_some hfp
      exact Or.inl ⟨⟨hfd, fp, by simpa using hfree⟩, fp, rfl, rfl, rfl, rfl⟩
    · next hfp =>
      rw [List.find?_eq_none] at hfp
      refine Or.inr ⟨fun h => ?_, rfl, by simp, rfl, rfl⟩
      obtain ⟨-, fp, hfree⟩ := h
      exact hfp fp (List.mem_finRange fp) (by simpa using hfree)
  · rw [heq]
    exact Or.inr ⟨fun h => hfd h.1, rfl, by simp, rfl, rfl⟩

theorem openi_regular (dev : Devices) (rw : BitVec 8) {s : Creating} (hreg : s.ip.iType = .ifreg) :
    s.openi dev rw = s := by
  unfold openi
  rw [hreg]

/-- After `falloc` an error is passed on, and the file stays as it is. -/
theorem open1Slot_spec (e : Nat → Bool) (stale : Daddr → Block) (dev : Devices) (mode : BitVec 8)
    (fp : Fin nfile) {s : Creating} (hreg : s.ip.iType = .ifreg) (hlink : 0 < s.ip.iNlink) :
    SameFile s (s.open1Slot e stale dev mode fp) ∧
      (s.open1Slot e stale dev mode fp).uError = s.uError := by
  unfold open1Slot
  dsimp only
  rw [openi_regular dev _ (by exact hreg)]
  dsimp only
  split
  · exact ⟨⟨rfl, rfl, rfl⟩, rfl⟩
  · apply SameFile.iput
    · exact ⟨rfl, rfl, rfl⟩
    · exact hlink

/-- The file is empty: no size and no blocks. -/
def Empty (s : Creating) : Prop := s.ip.iSize = 0 ∧ ∀ k < naddr, s.ip.iAddr.get k = 0

/-- `creat` of a file that may be written: the file is truncated, whatever comes after, and an
    error is left if there is no slot or an operation of the truncation failed. -/
theorem open1Allowed_spec (e : Nat → Bool) (stale : Daddr → Block) (dev : Devices) {s : Creating}
    (hreg : s.ip.iType = .ifreg) (hlink : 0 < s.ip.iNlink) (herr : s.uError = none) :
    SameFile (s.itrunc e stale) (s.open1Allowed e stale dev fwrite 1) ∧
      ((s.open1Allowed e stale dev fwrite 1).uError = none ↔
        s.Slots ∧ NoFault e stale s.start s.ip.toInode) := by
  have htrunc : (s.itrunc e stale).uError = none ↔ NoFault e stale s.start s.ip.toInode := by
    rw [← itruncE_error_iff (s := s.start) rfl s.ip.toInode]
    unfold itrunc
    dsimp only
    rw [herr]
    split
    · next h => exact ⟨fun _ => h, fun _ => rfl⟩
    · next h => exact ⟨fun h' => by simp at h', fun h' => absurd h' h⟩
  have hreg' : (s.itrunc e stale).ip.iType = .ifreg :=
    (itruncE_type s.start s.ip.toInode).trans hreg
  have hlink' : 0 < (s.itrunc e stale).ip.iNlink := hlink
  have hslots : (s.itrunc e stale).prele.Slots ↔ s.Slots := Iff.rfl
  unfold open1Allowed
  dsimp only
  rw [if_pos rfl, ← htrunc, ← hslots]
  generalize s.itrunc e stale = t at hreg' hlink'
  have hfalloc := t.prele.falloc_spec
  generalize t.prele.falloc = r at hfalloc
  obtain ⟨bp, w⟩ := r
  rcases hfalloc with ⟨hfree, fp, rfl, hw, hip, hcut⟩ | ⟨hfree, rfl, hw, hip, hdisk⟩
  · dsimp only at hw hip hcut ⊢
    obtain ⟨hsame, hu⟩ := open1Slot_spec e stale dev fwrite fp (s := w)
      (by rw [hip]; exact hreg') (by rw [hip]; exact hlink')
    refine ⟨SameFile.trans ⟨?_, ?_, ?_⟩ hsame, ?_⟩
    · rw [hip]
      rfl
    · rw [hip]
      rfl
    · rw [hcut]
      rfl
    · rw [hu, hw]
      exact ⟨fun h => ⟨hfree, h⟩, And.right⟩
  · dsimp only at hw hip hdisk ⊢
    have hcut : SameFile t w := ⟨by rw [hip]; rfl, by rw [hip]; rfl, hdisk⟩
    obtain ⟨hsame, hu⟩ := hcut.iput e stale (by rw [hip]; exact hlink')
    refine ⟨hsame, fun h => absurd (hu.symm.trans h) hw, fun h => absurd h.1 hfree⟩

/-- Whether the file is as it was: its size, its tree of blocks, and what is in them. -/
structure Intact (s s' : Creating) : Prop where
  size : s'.ip.iSize = s.ip.iSize
  addr : ∀ k < naddr, s'.ip.iAddr.get k = s.ip.iAddr.get k
  block : ∀ a, Reached s.cut.v s.ip.toInode a → s'.cut.v.disk a = s.cut.v.disk a

theorem SameFile.intact {s s' : Creating} (h : SameFile s s') : Intact s s' :=
  ⟨h.size, fun k _ => by rw [h.addr], fun a _ => by rw [h.disk]⟩

/-- A file that is truncated is as it was only if it was empty. -/
theorem itrunc_intact (e : Nat → Bool) (stale : Daddr → Block) {s t s' : Creating}
    (hkept : Kept s t) (hreg : s.ip.iType = .ifreg) (hsame : SameFile (t.itrunc e stale) s') :
    Intact s s' ↔ s.Empty := by
  have hstart : t.start = s.start := by
    obtain ⟨_, _, _, _, rfl⟩ := hkept
    rfl
  have hsize : t.ip.iSize = s.ip.iSize := (SameFile.of_kept hkept).size
  have haddr : t.ip.iAddr = s.ip.iAddr := (SameFile.of_kept hkept).addr
  have hreg' : t.ip.iType = .ifreg := by
    obtain ⟨_, _, _, _, rfl⟩ := hkept
    exact hreg
  obtain ⟨hzero, hnull⟩ := itruncE_cleared e stale t.start hreg'
  constructor
  · intro h
    refine ⟨?_, fun k hk => ?_⟩
    · rw [← h.size, hsame.size]
      exact hzero
    · rw [← h.addr k hk, hsame.addr]
      exact hnull k hk
  · intro h
    refine ⟨?_, fun k hk => ?_, fun a _ => ?_⟩
    · rw [hsame.size, h.1]
      exact hzero
    · rw [hsame.addr, h.2 k hk]
      exact hnull k hk
    · rw [hsame.disk]
      have hsame := itruncE_empty e stale t.start (show ∀ k < naddr, t.ip.iAddr.get k = 0 by rw [haddr]; exact h.2)
      change (itruncE e stale t.start t.ip.toInode).1.v.disk a = _
      rw [hsame, hstart]
      rfl

/-- A regular file with a link, and no error yet. -/
structure Existing (s : Creating) : Prop where
  regular : s.ip.iType = .ifreg
  linked : 0 < s.ip.iNlink
  noError : s.uError = none

section Found

variable (e : Nat → Bool) (stale : Daddr → Block) (dev : Devices)
  (maknode : BitVec 16 → Creating → Bool × Creating) (fmode : BitVec 16)

/-- `creat` of a file that is there, after `access`. -/
theorem creat_found {s t : Creating} (hacc : (s.access e stale iwrite).2 = t)
    (hreg : t.ip.iType = .ifreg) : s.creat e stale dev maknode .found fmode =
      if t.uError ≠ none then t.iput e stale else t.open1Allowed e stale dev fwrite 1 := by
  have hread : ¬(fwrite &&& fread ≠ 0) := by decide
  have hwrite : fwrite &&& fwrite ≠ 0 := by decide
  have hdir : t.ip.iType ≠ .ifdir := by
    rw [hreg]
    decide
  unfold creat open1
  dsimp only
  rw [if_pos (show 1 ≠ 2 by decide), if_neg hread, if_pos hwrite, hacc, if_neg hdir]

/-- A file that may not be written. -/
theorem creat_refused {s : Creating} (h : s.Existing) (href : s.Refused) :
    SameFile s (s.creat e stale dev maknode .found fmode) := by
  obtain ⟨t, hkept, ⟨-, err, hacc⟩ | ⟨hnot, -⟩⟩ := access_write e stale h.linked
  · have hip : t.ip.iType = s.ip.iType ∧ t.ip.iNlink = s.ip.iNlink := by
      obtain ⟨_, _, _, _, rfl⟩ := hkept
      exact ⟨rfl, rfl⟩
    have hsame : SameFile s { t with uError := some err } := by
      obtain ⟨hsize, haddr, hdisk⟩ := SameFile.of_kept hkept
      exact ⟨hsize, haddr, hdisk⟩
    rw [creat_found e stale dev maknode fmode hacc (hip.1.trans h.regular), if_pos (by simp)]
    exact (hsame.iput e stale (hip.2 ▸ h.linked)).1
  · exact absurd href hnot

/-- A file that may be written. -/
theorem creat_allowed {s : Creating} (h : s.Existing) (hnot : ¬s.Refused) :
    (Intact s (s.creat e stale dev maknode .found fmode) ↔ s.Empty) ∧
      ((s.creat e stale dev maknode .found fmode).uError = none ↔
        s.Slots ∧ NoFault e stale s.start s.ip.toInode) := by
  obtain ⟨t, hkept, ⟨href, -⟩ | ⟨-, hacc⟩⟩ := access_write e stale h.linked
  · exact absurd href hnot
  · have ht : t.ip.iType = .ifreg ∧ 0 < t.ip.iNlink ∧ t.uError = none ∧ t.start = s.start ∧
        t.ip.iAddr = s.ip.iAddr ∧ (t.Slots ↔ s.Slots) := by
      obtain ⟨_, _, _, _, rfl⟩ := hkept
      exact ⟨h.regular, h.linked, h.noError, rfl, rfl, Iff.rfl⟩
    obtain ⟨hreg, hlink, herr, hstart, haddr, hslots⟩ := ht
    have hfault : NoFault e stale t.start t.ip.toInode ↔ NoFault e stale s.start s.ip.toInode := by
      unfold NoFault
      rw [hstart, itruncE_fst s.start (hreg.trans h.regular.symm) haddr]
    obtain ⟨hsame, hdone⟩ := open1Allowed_spec e stale dev hreg hlink herr
    rw [creat_found e stale dev maknode fmode hacc hreg, if_neg (not_not.2 herr)]
    exact ⟨itrunc_intact e stale hkept h.regular hsame, by rw [hdone, hslots, hfault]⟩

/-- Where `creat` of a file leaves an error, the file is as it was: exactly if `namei` failed, the
    file may not be written, nothing comes after the truncation that fails, or it was empty. -/
theorem creat_intact_iff {n : Namei} (hn : n ≠ .missing) {s : Creating} (h : s.Existing) :
    ((s.creat e stale dev maknode n fmode).uError ≠ none →
        Intact s (s.creat e stale dev maknode n fmode)) ↔
      n ≠ .found ∨ s.Refused ∨ (s.Slots ∧ NoFault e stale s.start s.ip.toInode) ∨ s.Empty := by
  cases n with
  | missing => exact absurd rfl hn
  | fails err => exact ⟨fun _ => Or.inl (by simp), fun _ _ => SameFile.intact ⟨rfl, rfl, rfl⟩⟩
  | found =>
    by_cases href : s.Refused
    · exact ⟨fun _ => Or.inr (Or.inl href),
        fun _ _ => (creat_refused e stale dev maknode fmode h href).intact⟩
    · obtain ⟨hintact, hdone⟩ := creat_allowed e stale dev maknode fmode h href
      rw [hintact]
      constructor
      · intro hkeep
        by_cases hok : s.Slots ∧ NoFault e stale s.start s.ip.toInode
        · exact Or.inr (Or.inr (Or.inl hok))
        · exact Or.inr (Or.inr (Or.inr (hkeep fun herr => hok (hdone.1 herr))))
      · rintro (hfound | href' | hok | hempty) herr
        · exact absurd rfl hfound
        · exact absurd href' href
        · exact absurd (hdone.2 hok) herr
        · exact hempty

end Found

/-! ## A process without a free descriptor -/

/-- No devices, and no new files. -/
def noDevices : Devices :=
  { nchrdev := 0
    nblkdev := 0
    cdOpen := fun _ _ s => s
    bdOpen := fun _ _ s => s }

def noMaknode (_ : BitVec 16) (s : Creating) : Bool × Creating := (false, s)

/-- A file that its owner may write, on a volume that is mounted read-only or not. Each descriptor
    of the process is in use. -/
def fullTable (ro : Bool) : Creating :=
  { uUid := 1
    uGid := 1
    uError := none
    uOfile := fun _ => some 0
    uPofile := fun _ => 0
    uRval1 := 0
    file := fun _ =>
      { fFlag := fread
        fCount := 20
        fInode := some 0
        fOffset := 0 }
    text := fun _ =>
      { xCount := 0
        xIptr := none }
    sRonly := ro
    cut :=
      { v := smallFile.1
        io := 0 }
    self := 1
    ip :=
      { smallFile.2 with
        iMode := iread ||| iwrite
        iNlink := 1
        iUid := 1
        iGid := 1
        iCount := 1
        iNumber := 2 } }

theorem fullTable_existing (ro : Bool) : (fullTable ro).Existing := ⟨rfl, Int.one_pos, rfl⟩

theorem creat_intact_iff_readOnly : (fullTable true).Existing ∧
    ((creat quiet (fun _ => Bytes.zero) noDevices noMaknode .found 0 (fullTable true)).uError ≠ none →
      Intact (fullTable true)
        (creat quiet (fun _ => Bytes.zero) noDevices noMaknode .found 0 (fullTable true))) :=
  ⟨fullTable_existing true,
    (creat_intact_iff _ _ noDevices noMaknode 0 (by simp) (fullTable_existing true)).2
      (Or.inr (Or.inl (Or.inl rfl)))⟩

theorem full_descriptors_truncate : ¬∀ (e : Nat → Bool) (stale : Daddr → Block) (dev : Devices)
    (maknode : BitVec 16 → Creating → Bool × Creating) (fmode : BitVec 16) (n : Namei)
    (s : Creating), n ≠ .missing → s.Existing →
      (s.creat e stale dev maknode n fmode).uError ≠ none →
        Intact s (s.creat e stale dev maknode n fmode) := by
  intro hall
  have hslots : ¬(fullTable false).Slots := by
    rintro ⟨⟨i, hi⟩, -⟩
    exact absurd hi (by simp [fullTable])
  have hnot : ¬(fullTable false).Refused := by
    rintro (hro | htext | hmode)
    · exact absurd hro (by decide)
    · exact absurd htext.1 (by decide)
    · exact absurd hmode.2 (by decide)
  obtain ⟨hintact, hdone⟩ := creat_allowed (fun _ => false) (fun _ => Bytes.zero) noDevices
    noMaknode 0 (fullTable_existing false) hnot
  have hempty := hintact.1 (hall _ _ _ _ 0 .found _ (by simp) (fullTable_existing false)
    fun herr => hslots (hdone.1 herr).1)
  exact absurd (hempty.2 0 (by decide)) (by decide)

end Creating

end Creat

end Venix.Fs
