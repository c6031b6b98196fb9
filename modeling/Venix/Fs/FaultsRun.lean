/-
  `writei` when `bmap` fails.

  `bmap` fails in three ways. Without space it returns -1, and `writei` returns at once. For a block
  past the last indirect one, and for an indirect block that cannot be read, it returns 0; `writei`
  takes this for block 0 of the device, copies into its buffer and moves the size on, and stops only
  after that.
-/
import Venix.Fs.Faults

namespace Venix.Fs

open Venix.Lib

variable {e : Faults} {d : Dev}

/-! ## How `bmap` fails -/

/-- An indirect block is read in vain, among the reads from `r` to `r'`. -/
def Unread (e : Faults) (r r' : Reads) : Prop :=
  ∃ i, r.indir ≤ i ∧ i < r'.indir ∧ e.indir i = true

theorem not_unread_of_eq {r r' : Reads} (h : r'.indir = r.indir) : ¬Unread e r r' := by
  rintro ⟨i, h1, h2, -⟩
  omega

theorem allocLoop_uError (k : Nat) (v : Vol) : (allocLoop k v).2.uError = v.uError := by
  induction k generalizing v with
  | zero => rfl
  | succ k ih =>
    rw [allocLoop_succ]
    split
    · rfl
    · split
      · rfl
      · dsimp only
        split
        · rfl
        · unfold badblock
          split
          · next heq =>
            split at heq
            · cases heq
              exact ih _
            · cases heq
          · next heq =>
            split at heq
            · cases heq
            · cases heq
              rfl

theorem getfs_uError (v : Vol) : (getfs v).uError = v.uError := by
  unfold getfs
  split
  · rfl
  · rfl

/-- `alloc` reads no indirect block, and says when it fails. -/
theorem allocF_spec {r r' : Reads} {v v' : Vol} {bp : Option Buf} (hv : v.uError = none)
    (h : allocF e r v = (bp, v', r')) :
    r'.indir = r.indir ∧ (bp = none ∧ v'.uError = some .enospc ∨ bp ≠ none ∧ v'.uError = none) := by
  have herr := (allocLoop_uError (nicfree + 1) (getfs v)).trans ((getfs_uError v).trans hv)
  unfold allocF at h
  rcases hloop : allocLoop (nicfree + 1) (getfs v) with ⟨_ | bno, w⟩
  · rw [hloop] at h
    cases h
    exact ⟨rfl, Or.inl ⟨rfl, rfl⟩⟩
  · rw [hloop] at h herr
    dsimp only at h herr
    split at h
    · split at h
      · cases h
        exact ⟨rfl, Or.inl ⟨rfl, rfl⟩⟩
      · split at h
        · cases h
          exact ⟨rfl, Or.inl ⟨rfl, rfl⟩⟩
        · cases h
          exact ⟨rfl, Or.inr ⟨Option.some_ne_none _, herr⟩⟩
    · cases h
      exact ⟨rfl, Or.inr ⟨Option.some_ne_none _, herr⟩⟩

/-- The end of a walk: at a block, without space, or at an indirect block that cannot be read. -/
def WalkEnd (e : Faults) (r r' : Reads) (v' : Vol) : Except Daddr (Daddr × Nat × Block) → Prop
  | .ok _ => v'.uError = none
  | .error ret => ret = -1 ∧ v'.uError = some .enospc ∧ ¬Unread e r r' ∨
      ret = 0 ∧ v'.uError = some .eio ∧ Unread e r r'

theorem indirLoopF_spec (bn k sh : Nat) (nb : Daddr) (last : Nat × Block) (r : Reads) {v : Vol}
    (hv : v.uError = none) :
    r.indir ≤ (indirLoopF e .bWrite bn k sh nb last r v).2.2.indir ∧
      WalkEnd e r (indirLoopF e .bWrite bn k sh nb last r v).2.2
        (indirLoopF e .bWrite bn k sh nb last r v).2.1
        (indirLoopF e .bWrite bn k sh nb last r v).1 := by
  induction k generalizing sh nb last r v with
  | zero => exact ⟨le_refl _, hv⟩
  | succ k ih =>
    -- A walk that goes on after a read that was done.
    have hnext : ∀ {sh nb last} {r' : Reads} {v' : Vol}, e.indir r.indir = false →
        r'.indir = r.indir + 1 → v'.uError = none →
        r.indir ≤ (indirLoopF e .bWrite bn k sh nb last r' v').2.2.indir ∧
          WalkEnd e r (indirLoopF e .bWrite bn k sh nb last r' v').2.2
            (indirLoopF e .bWrite bn k sh nb last r' v').2.1
            (indirLoopF e .bWrite bn k sh nb last r' v').1 := by
      intro sh nb last r' v' hread hr' hv'
      have hiff : ∀ r'', Unread e r r'' ↔ Unread e r' r'' := by
        intro r''
        unfold Unread
        refine exists_congr fun i => ?_
        constructor
        · rintro ⟨h1, h2, h3⟩
          refine ⟨?_, h2, h3⟩
          have hne : i ≠ r.indir := by
            rintro rfl
            rw [hread] at h3
            exact Bool.noConfusion h3
          omega
        · rintro ⟨h1, h2, h3⟩
          exact ⟨by omega, h2, h3⟩
      obtain ⟨hle, hend⟩ := ih sh nb last r' hv'
      refine ⟨by omega, ?_⟩
      unfold WalkEnd at hend ⊢
      simp only [hiff]
      exact hend
    unfold indirLoopF
    by_cases hread : e.indir r.indir = true
    · rw [if_pos hread]
      exact ⟨Nat.le_succ _, Or.inr ⟨rfl, rfl, r.indir, le_refl _, Nat.lt_succ_self _, hread⟩⟩
    · have hread' : e.indir r.indir = false := Bool.eq_false_of_not_eq_true hread
      rw [if_neg hread]
      dsimp only
      by_cases hnull : (v.disk nb).getLong (4 * (bn >>> (sh - nshift) &&& nmask)) = 0
      · rw [if_pos hnull, if_neg (by decide)]
        rcases halloc : allocF e { r with indir := r.indir + 1 } v with ⟨_ | nbp, v', r'⟩
        · obtain ⟨hr', hfail⟩ := allocF_spec hv halloc
          have herr : v'.uError = some .enospc := by
            rcases hfail with ⟨-, h⟩ | ⟨h, -⟩
            · exact h
            · exact absurd rfl h
          dsimp only at hr'
          refine ⟨by dsimp only; omega, Or.inl ⟨rfl, herr, ?_⟩⟩
          rintro ⟨i, h1, h2, h3⟩
          dsimp only at h2
          have hi : i = r.indir := by omega
          rw [hi, hread'] at h3
          exact Bool.noConfusion h3
        · obtain ⟨hr', hdone⟩ := allocF_spec hv halloc
          have herr : v'.uError = none := by
            rcases hdone with ⟨h, -⟩ | ⟨-, h⟩
            · exact absurd h (Option.some_ne_none _)
            · exact h
          exact hnext hread' hr' herr
      · rw [if_neg hnull]
        exact hnext hread' rfl hv

/-- The fields of an inode that `bmap` keeps. -/
structure SameFile (ip ip' : Inode) : Prop where
  size : ip'.iSize = ip.iSize
  type : ip'.iType = ip.iType

theorem inodeSlotF_spec (r : Reads) {v : Vol} (ip : Inode) (i : Nat) (hv : v.uError = none) :
    (inodeSlotF e r v ip .bWrite i).2.2.2.indir = r.indir ∧
      SameFile ip (inodeSlotF e r v ip .bWrite i).2.2.1 ∧
      ((inodeSlotF e r v ip .bWrite i).1 = none ∧
          (inodeSlotF e r v ip .bWrite i).2.1.uError = some .enospc ∨
        (inodeSlotF e r v ip .bWrite i).1 ≠ none ∧
          (inodeSlotF e r v ip .bWrite i).2.1.uError = none) := by
  unfold inodeSlotF
  dsimp only
  split
  · rw [if_neg (by decide)]
    rcases halloc : allocF e r v with ⟨_ | bp, v', r'⟩
    · obtain ⟨hr', hfail⟩ := allocF_spec hv halloc
      rcases hfail with ⟨-, h⟩ | ⟨h, -⟩
      · exact ⟨hr', ⟨rfl, rfl⟩, Or.inl ⟨rfl, h⟩⟩
      · exact absurd rfl h
    · obtain ⟨hr', hdone⟩ := allocF_spec hv halloc
      rcases hdone with ⟨h, -⟩ | ⟨-, h⟩
      · exact absurd h (Option.some_ne_none _)
      · exact ⟨hr', ⟨rfl, rfl⟩, Or.inr ⟨Option.some_ne_none _, h⟩⟩
  · exact ⟨rfl, ⟨rfl, rfl⟩, Or.inr ⟨Option.some_ne_none _, hv⟩⟩

theorem levelLoop_zero {bn : Nat} (hbn : 10 ≤ bn) :
    (levelLoop 3 0 1 (bn - (naddr - 3))).1 = 0 ↔ maxBn ≤ bn := by
  have hmax : maxBn = 2113674 := by norm_num [maxBn]
  rw [hmax]
  by_cases hlt : bn < 2113674
  · have hlevel : ∃ k, 1 ≤ k ∧ k ≤ 3 ∧ levelBase k ≤ bn ∧ bn - levelBase k < 128 ^ k := by
      by_cases h1 : bn < 138
      · exact ⟨1, by decide, by decide, hbn, by change bn - 10 < 128; omega⟩
      · by_cases h2 : bn < 16522
        · exact ⟨2, by decide, by decide, by change 138 ≤ bn; omega, by change bn - 138 < 16384; omega⟩
        · exact ⟨3, by decide, le_refl 3, by change 16522 ≤ bn; omega,
            by change bn - 16522 < 2097152; omega⟩
    obtain ⟨k, h1, h3, hb, hl⟩ := hlevel
    rw [levelLoop_level bn k h1 h3 hb hl]
    dsimp only
    omega
  · have l1 : levelLoop 3 0 1 (bn - 10) = levelLoop 2 7 128 (bn - 10 - 128) :=
      levelLoop_miss (by omega)
    have l2 : levelLoop 2 7 128 (bn - 10 - 128) = levelLoop 1 14 16384 (bn - 10 - 128 - 16384) :=
      levelLoop_miss (by omega)
    have l3 : levelLoop 1 14 16384 (bn - 10 - 128 - 16384) =
        levelLoop 0 21 2097152 (bn - 10 - 128 - 16384 - 2097152) := levelLoop_miss (by omega)
    have hzero : (levelLoop 3 0 1 (bn - (naddr - 3))).1 = 0 := by
      change (levelLoop 3 0 1 (bn - 10)).1 = 0
      rw [l1, l2, l3]
      rfl
    exact ⟨fun _ => by omega, fun _ => hzero⟩

/-- How `bmap` fails for block `bn`: there is no space, and it returns -1; or the block is past the
last indirect one, or an indirect block cannot be read, and it returns 0. -/
structure BmapSpec (e : Faults) (r : Reads) (ip : Inode) (bn : Nat) (m : Bmapped) : Prop where
  same : SameFile ip m.ip
  fails : m.v.uError ≠ none → m.bn = -1 ∧ bn < maxBn ∧ ¬Unread e r m.r ∨
    m.bn = 0 ∧ (maxBn ≤ bn ∨ Unread e r m.r)

theorem bmapF_spec {r : Reads} {v : Vol} {ip : Inode} {bn : Nat} (hv : v.uError = none) :
    BmapSpec e r ip bn (bmapF e r v ip bn .bWrite) := by
  have hneg : ¬(bn : Int) < 0 := by omega
  unfold bmapF
  rw [if_neg hneg, Int.toNat_natCast]
  dsimp only
  by_cases hdirect : bn < naddr - 3
  · have hmax : bn < maxBn := lt_of_lt_of_le hdirect (by decide)
    rw [if_pos hdirect]
    obtain ⟨hr, hsame, hend⟩ := inodeSlotF_spec (e := e) r (v := { v with rablock := 0 }) ip bn hv
    rcases hslot : inodeSlotF e r { v with rablock := 0 } ip .bWrite bn with ⟨_ | nb, v', ip', r'⟩
    · rw [hslot] at hr hsame hend
      exact ⟨hsame, fun _ => Or.inl ⟨rfl, hmax, not_unread_of_eq hr⟩⟩
    · rw [hslot] at hr hsame hend
      refine ⟨hsame, fun hfail => absurd ?_ hfail⟩
      rcases hend with ⟨h, -⟩ | ⟨-, h⟩
      · exact absurd h (Option.some_ne_none _)
      · dsimp only
        split
        · exact h
        · exact h
  · rw [if_neg hdirect]
    have hlevel := levelLoop_zero (not_lt.1 hdirect)
    rcases hl : levelLoop 3 0 1 (bn - (naddr - 3)) with ⟨_ | j, sh, bn'⟩
    · rw [hl] at hlevel
      exact ⟨⟨rfl, rfl⟩, fun _ => Or.inr ⟨rfl, Or.inl (hlevel.1 rfl)⟩⟩
    · rw [hl] at hlevel
      have hmax : bn < maxBn := not_le.1 fun hle => Nat.succ_ne_zero j (hlevel.2 hle)
      obtain ⟨hr, hsame, hend⟩ := inodeSlotF_spec (e := e) r (v := { v with rablock := 0 }) ip
        (naddr - (j + 1)) hv
      rcases hslot : inodeSlotF e r { v with rablock := 0 } ip .bWrite (naddr - (j + 1)) with
        ⟨_ | nb, v', ip', r'⟩
      · rw [hslot] at hr hsame hend
        simp only [hslot]
        exact ⟨hsame, fun _ => Or.inl ⟨rfl, hmax, not_unread_of_eq hr⟩⟩
      · rw [hslot] at hr hsame hend
        simp only [hslot]
        have herr : v'.uError = none := by
          rcases hend with ⟨h, -⟩ | ⟨-, h⟩
          · exact absurd h (Option.some_ne_none _)
          · exact h
        obtain ⟨hle, hwalk⟩ := indirLoopF_spec (e := e) bn' (4 - (j + 1)) sh nb (0, Bytes.zero) r' herr
        have hiff : ∀ r'', Unread e r' r'' ↔ Unread e r r'' := by
          intro r''
          dsimp only at hr
          unfold Unread
          rw [hr]
        rcases hind : indirLoopF e .bWrite bn' (4 - (j + 1)) sh nb (0, Bytes.zero) r' v' with
          ⟨ret | x, v'', r''⟩
        · rw [hind] at hwalk
          refine ⟨hsame, fun _ => ?_⟩
          rcases hwalk with ⟨hret, -, hnot⟩ | ⟨hret, -, hunread⟩
          · exact Or.inl ⟨hret, hmax, (hiff r'').not.1 hnot⟩
          · exact Or.inr ⟨hret, Or.inr ((hiff r'').1 hunread)⟩
        · rw [hind] at hwalk
          refine ⟨hsame, fun hfail => absurd ?_ hfail⟩
          dsimp only
          split
          · exact hwalk
          · exact hwalk

/-! ## The rounds of `writei` -/

theorem cpassLoop_done {n on : Nat} {u u' : User} {b b' : Block} (hn : n ≤ u.uCount)
    (h : cpassLoop n on u b = (u', b', none)) : u' = u.advance n := by
  induction n generalizing on u b with
  | zero =>
    cases h
    exact (advance_zero _).symm
  | succ n ih =>
    unfold cpassLoop cpass at h
    rw [if_neg (by omega)] at h
    have hstep : ∀ {b : Block}, cpassLoop n (on + 1) (u.advance 1) b = (u', b', none) →
        u' = u.advance (n + 1) := by
      intro b h
      have hcount : n ≤ (u.advance 1).uCount := Nat.le_sub_of_add_le hn
      rw [ih hcount h, advance_advance, Nat.add_comm]
    split at h
    · next heq =>
      split at heq
      · cases heq
      · cases heq
        cases h
      · cases heq
    · next heq =>
      split at heq
      · cases heq
        exact hstep h
      · cases heq
      · cases heq
        exact hstep h

/-- `iomove` that comes to its end has moved all bytes. -/
theorem iomove_done {u : User} {cp : Nat} {b : Block} {on n : Nat} (hn : n ≤ u.uCount)
    (h : (iomove u cp b on n .bWrite).2.2 = none) : (iomove u cp b on n .bWrite).1 = u.advance n := by
  unfold iomove at h ⊢
  split at h
  · next h0 =>
    rw [if_pos h0, h0, advance_zero]
  · next h0 =>
    rw [if_neg h0]
    split at h
    · next hbulk =>
      rw [if_pos hbulk]
      unfold bulkMove at h ⊢
      dsimp only at h ⊢
      rcases hcopy : copyin (u.core u.uSegflg) n u.uBase on b with ⟨b', _ | _⟩
      · rw [hcopy] at h
        cases h
      · rfl
    · next hbulk =>
      rw [if_neg hbulk]
      unfold byteMove at h ⊢
      rcases hloop : cpassLoop n on u b with ⟨u', b', err⟩
      rw [hloop] at h
      dsimp only at h
      rw [h] at hloop
      exact cpassLoop_done hn hloop

/-- A regular file or a directory. -/
def Wr.IsFile (w : Wr) : Prop := w.s.ip.iType = .ifreg ∨ w.s.ip.iType = .ifdir

theorem Wr.IsFile.mapped {w : Wr} (h : w.IsFile) :
    w.s.ip.iType ≠ .ifblk ∧ w.s.ip.iType ≠ .ifmpb := by
  rcases h with h | h
  · rw [h]
    exact ⟨by decide, by decide⟩
  · rw [h]
    exact ⟨by decide, by decide⟩

/-- What `bmap` does in the next round. -/
def Wr.mapped (e : Faults) (w : Wr) : Bmapped := bmapF e w.r w.s.v w.s.ip w.lbn .bWrite

/-- A round of the loop that goes on after it, and moved `m` bytes. -/
structure Turn (d : Dev) (e : Faults) (w : Wr) (m : Nat) (w' : Wr) : Prop where
  round : writeiRound d e w = (false, w')
  noError : w'.s.v.uError = none
  more : w'.s.u.uCount ≠ 0
  moved : m = w.n

/-- Rounds one after the other, that moved `m` bytes. -/
inductive Turns (d : Dev) (e : Faults) (w : Wr) : Nat → Wr → Prop
  | refl : Turns d e w 0 w
  | step {m k : Nat} {w' w'' : Wr} : Turns d e w m w' → Turn d e w' k w'' → Turns d e w (m + k) w''

theorem writeiEnd_u (s : Rw) (t : User × Block × Option Errno) : (writeiEnd s t).u = t.1 := by
  unfold writeiEnd
  dsimp only
  split
  · rfl
  · rfl

theorem writeiEnd_uError (s : Rw) (t : User × Block × Option Errno) :
    (writeiEnd s t).v.uError = (setError s.v t.2.2).uError := by
  unfold writeiEnd
  dsimp only
  split
  · rfl
  · rfl

theorem writeiEnd_type (s : Rw) (t : User × Block × Option Errno) :
    (writeiEnd s t).ip.iType = s.ip.iType := by
  unfold writeiEnd
  dsimp only
  split
  · rfl
  · rfl

/-- The size grows to where the bytes end. -/
theorem writeiEnd_size {s : Rw} (hfile : s.ip.iType = .ifreg ∨ s.ip.iType = .ifdir)
    (t : User × Block × Option Errno) :
    (writeiEnd s t).ip.iSize = max s.ip.iSize t.1.uOffset := by
  unfold writeiEnd
  dsimp only
  split
  · next h => exact (max_eq_right (le_of_lt h.1)).symm
  · next h => exact (max_eq_left (not_lt.1 fun hlt => h ⟨hlt, hfile.symm⟩)).symm

theorem setError_none {v : Vol} {err : Option Errno} (h : (setError v err).uError = none) :
    err = none ∧ v.uError = none := by
  cases err with
  | none => exact ⟨rfl, h⟩
  | some err => cases h

/-- The state of a round before the copy. -/
theorem buffer_keeps (d : Dev) (e : Faults) (w : Wr) (disk : Daddr → Block) (bn : Daddr) :
    (w.buffer d e disk bn).2.2.s.ip = w.s.ip ∧
      ((w.buffer d e disk bn).2.2.s.v.uError = none → w.s.v.uError = none) := by
  unfold Wr.buffer
  split
  · exact ⟨rfl, id⟩
  · dsimp only
    split
    · exact ⟨rfl, fun h => absurd h (Option.some_ne_none _)⟩
    · exact ⟨rfl, id⟩

/-- The rest of a round moves bytes, and the size with them. -/
theorem fill_spec (d : Dev) (e : Faults) {w : Wr} (hfile : w.IsFile) (bn : Daddr) :
    ∃ b, (w.fill d e bn).s.u = (iomove w.s.u (d.bAddr bn + w.on) b w.on w.n .bWrite).1 ∧
      (w.fill d e bn).IsFile ∧
      (w.fill d e bn).s.ip.iSize = max w.s.ip.iSize (w.fill d e bn).s.u.uOffset ∧
      ((w.fill d e bn).s.v.uError = none → w.s.v.uError = none ∧
        (iomove w.s.u (d.bAddr bn + w.on) b w.on w.n .bWrite).2.2 = none) := by
  obtain ⟨hip, herr⟩ := buffer_keeps d e w w.s.v.disk bn
  unfold Wr.fill
  rcases hbuf : w.buffer d e w.s.v.disk bn with ⟨b, ok, w1⟩
  rw [hbuf] at hip herr
  dsimp only at hip herr ⊢
  rw [← hip]
  have hs : ∀ t : User × Block × Option Errno,
      (if ok = true then { w1.s with v := w1.s.v.bwrite ⟨bn, t.2.1⟩ } else w1.s).ip = w1.s.ip ∧
      (if ok = true then { w1.s with v := w1.s.v.bwrite ⟨bn, t.2.1⟩ } else w1.s).v.uError =
        w1.s.v.uError := by
    intro t
    split
    · exact ⟨rfl, rfl⟩
    · exact ⟨rfl, rfl⟩
  have hfile1 : w1.s.ip.iType = .ifreg ∨ w1.s.ip.iType = .ifdir := by rw [hip]; exact hfile
  obtain ⟨hs1, hs2⟩ := hs (iomove w.s.u (d.bAddr bn + w.on) b w.on w.n .bWrite)
  refine ⟨b, writeiEnd_u _ _, ?_, ?_, fun hnone => ?_⟩
  · unfold Wr.IsFile
    dsimp only
    rw [writeiEnd_type, congrArg Inode.iType hs1]
    exact hfile1
  · rw [writeiEnd_u, writeiEnd_size (by rw [hs1]; exact hfile1), hs1]
  · rw [writeiEnd_uError] at hnone
    obtain ⟨hmove, hv⟩ := setError_none hnone
    exact ⟨herr (hs2.symm.trans hv), hmove⟩

/-- The request after `bmap`. -/
def Wr.after (e : Faults) (w : Wr) : Wr :=
  ⟨{ w.s with v := (w.mapped e).v, ip := (w.mapped e).ip }, (w.mapped e).r⟩

theorem round_stops {w : Wr} (hfile : w.IsFile) (hbn : (w.mapped e).bn.toInt < 0) :
    writeiRound d e w = (true, w.after e) := by
  unfold writeiRound
  rw [if_pos hfile.mapped]
  exact if_pos hbn

theorem round_fills {w : Wr} (hfile : w.IsFile) (hbn : ¬(w.mapped e).bn.toInt < 0) :
    writeiRound d e w = (false, (w.after e).fill d e (w.mapped e).bn) := by
  unfold writeiRound
  rw [if_pos hfile.mapped]
  exact if_neg hbn

/-- A request in the loop. -/
structure Wr.Going (w : Wr) : Prop where
  file : w.IsFile
  offset : 0 ≤ w.s.u.uOffset
  count : w.s.u.uCount ≠ 0
  noError : w.s.v.uError = none

theorem Wr.Going.spec {w : Wr} (h : w.Going) :
    ∃ bn : Nat, w.lbn = bn ∧ BmapSpec e w.r w.s.ip bn (w.mapped e) := by
  obtain ⟨bn, hbn⟩ := Int.eq_ofNat_of_zero_le (Int.ediv_nonneg h.offset (by decide : (0 : Int) ≤ 512))
  refine ⟨bn, hbn, ?_⟩
  unfold Wr.mapped Wr.lbn
  rw [hbn]
  exact bmapF_spec h.noError

theorem Wr.Going.after_file {w : Wr} (h : w.Going) : (w.after e).IsFile := by
  obtain ⟨bn, -, hspec⟩ := h.spec (e := e)
  unfold Wr.IsFile Wr.after
  dsimp only
  rw [hspec.same.type]
  exact h.file

theorem Wr.on_lt (w : Wr) : w.on < 512 := by
  unfold Wr.on
  have h := Int.emod_lt_of_pos w.s.u.uOffset (by decide : (0 : Int) < 512)
  omega

theorem Wr.Going.n_pos {w : Wr} (h : w.Going) : 0 < w.n := by
  have hon := w.on_lt
  have hcount := h.count
  unfold Wr.n
  omega

theorem Wr.n_le (w : Wr) : w.n ≤ w.s.u.uCount := min_le_right _ _

theorem Wr.Going.turn {w w' : Wr} {m : Nat} (h : w.Going) (ht : Turn d e w m w') :
    w'.Going ∧ w'.s.u = w.s.u.advance m ∧ 0 < m ∧ m ≤ w.s.u.uCount ∧
      w'.s.ip.iSize = max w.s.ip.iSize w'.s.u.uOffset := by
  obtain ⟨bn, -, hspec⟩ := h.spec (e := e)
  have hbn : ¬(w.mapped e).bn.toInt < 0 := by
    intro hneg
    have hround := ht.round
    rw [round_stops h.file hneg] at hround
    cases hround
  have hround := ht.round
  rw [round_fills h.file hbn] at hround
  obtain ⟨b, hu, hfile, hsize, hnone⟩ := fill_spec d e (h.after_file (e := e)) (w.mapped e).bn
  cases hround
  obtain ⟨-, hmove⟩ := hnone ht.noError
  have hu' := hu.trans (iomove_done (w.after e).n_le hmove)
  rw [ht.moved]
  have hadv : ((w.after e).fill d e (w.mapped e).bn).s.u = w.s.u.advance w.n := hu'
  refine ⟨⟨hfile, ?_, ht.more, ht.noError⟩, hadv, h.n_pos, w.n_le, ?_⟩
  · rw [hadv]
    have hoff := h.offset
    unfold User.advance
    dsimp only
    omega
  · rw [hsize]
    congr 1
    exact hspec.same.size

/-- What a request has done when it comes to a round after `m` bytes. -/
structure Progress (w w' : Wr) (m : Nat) : Prop where
  going : w'.Going
  user : w'.s.u = w.s.u.advance m
  size : w'.s.ip.iSize = if m = 0 then w.s.ip.iSize else max w.s.ip.iSize (w.s.u.uOffset + m)

theorem Turns.progress {w w' : Wr} {m : Nat} (h : w.Going) (ht : Turns d e w m w') :
    Progress w w' m := by
  induction ht with
  | refl => exact ⟨h, (advance_zero _).symm, (if_pos rfl).symm⟩
  | step _ hturn ih =>
    rename_i m k w' w'' _
    obtain ⟨hgoing, huser, hpos, -, hsize⟩ := ih.going.turn hturn
    have huser' : w''.s.u = w.s.u.advance (m + k) := by
      rw [huser, ih.user, advance_advance]
    refine ⟨hgoing, huser', ?_⟩
    have hoff : w''.s.u.uOffset = w.s.u.uOffset + ((m + k : Nat) : Int) := by
      rw [huser']
      rfl
    rw [hsize, ih.size, hoff, if_neg (show m + k ≠ 0 by omega)]
    split
    · rfl
    · rw [max_assoc]
      congr 1
      exact max_eq_right (by push_cast; omega)

/-- The loop goes on from where the rounds have come to. -/
theorem Turns.loop {w w' : Wr} {m : Nat} (h : w.Going) (ht : Turns d e w m w') {k : Nat}
    (hk : w.s.u.uCount ≤ k) :
    ∃ k', w'.s.u.uCount ≤ k' ∧ writeiLoopF d e k w = writeiLoopF d e k' w' := by
  induction ht with
  | refl => exact ⟨k, hk, rfl⟩
  | step hturns hturn ih =>
    rename_i m j w' w''
    obtain ⟨k', hk', hloop⟩ := ih
    have hgoing := (hturns.progress h).going
    obtain ⟨-, huser, hpos, hle, -⟩ := hgoing.turn hturn
    have hcount : w''.s.u.uCount = w'.s.u.uCount - j := by
      rw [huser]
      rfl
    obtain ⟨i, rfl⟩ := Nat.exists_eq_add_one_of_ne_zero (by omega : k' ≠ 0)
    refine ⟨i, by omega, hloop.trans ?_⟩
    conv => lhs; unfold writeiLoopF
    rw [hturn.round]
    exact if_pos ⟨hturn.noError, hturn.more⟩

/-! ## A block that `bmap` fails for -/

/-- The block is one of the file system, and no indirect block on the way to it is read in vain. -/
def Walkable (e : Faults) (w : Wr) : Prop := w.lbn < maxBn ∧ ¬Unread e w.r (w.mapped e).r

/-- The request `w` has ended in `w'` with the `m` bytes that were moved before the block that `bmap`
failed for, and nothing was done to a buffer that `bmap` did not do. -/
structure StoppedAt (w : Wr) (m : Nat) (b : Bmapped) (w' : Wr) : Prop where
  user : w'.s.u = w.s.u.advance m
  size : w'.s.ip.iSize = if m = 0 then w.s.ip.iSize else max w.s.ip.iSize (w.s.u.uOffset + m)
  buffers : w'.s.v.disk = b.v.disk

/-- Where `bmap` fails, `writei` stops with the bytes before, if there is no space; in the other
cases it goes on, as long as there are bytes to be had from the process. -/
theorem writei_bmapFails_iff {w w' : Wr} {m : Nat} (h : w.Going) (ht : Turns d e w m w')
    (hfails : (w'.mapped e).v.uError ≠ none) :
    (Walkable e w' → StoppedAt w m (w'.mapped e) (writeiF d e w)) ∧
      (w'.s.u.Present w'.n → (StoppedAt w m (w'.mapped e) (writeiF d e w) ↔ Walkable e w')) := by
  have hp := ht.progress h
  obtain ⟨k, hk, hloop⟩ := ht.loop h (le_refl w.s.u.uCount)
  have hcount := hp.going.count
  obtain ⟨k, rfl⟩ := Nat.exists_eq_add_one_of_ne_zero (by omega : k ≠ 0)
  have hrun : writeiF d e w = writeiLoopF d e (k + 1) w' := by
    have htype : ¬(w.s.ip.iType = .ifchr ∨ w.s.ip.iType = .ifmpc) := by
      rcases h.file with hf | hf
      · rw [hf]
        decide
      · rw [hf]
        decide
    unfold writeiF
    rw [if_neg (not_lt.2 h.offset), if_neg htype, if_neg h.count]
    exact hloop
  obtain ⟨bn, hbn, hspec⟩ := hp.going.spec (e := e)
  have hwalk : Walkable e w' ↔ bn < maxBn ∧ ¬Unread e w'.r (w'.mapped e).r := by
    unfold Walkable
    rw [hbn]
    exact and_congr_left' Int.ofNat_lt
  have hstops : Walkable e w' → StoppedAt w m (w'.mapped e) (writeiF d e w) := by
    intro hw
    have hneg : (w'.mapped e).bn = -1 := by
      rcases hspec.fails hfails with ⟨h1, -⟩ | ⟨-, h2⟩
      · exact h1
      · rcases h2 with h2 | h2
        · exact absurd (hwalk.1 hw).1 (not_lt.2 h2)
        · exact absurd h2 (hwalk.1 hw).2
    have hend : writeiLoopF d e (k + 1) w' = w'.after e := by
      unfold writeiLoopF
      rw [round_stops hp.going.file (by rw [hneg]; decide)]
    rw [hrun, hend]
    exact ⟨hp.user, (hspec.same.size.trans hp.size), rfl⟩
  refine ⟨hstops, fun hpresent => ⟨fun hstop => ?_, hstops⟩⟩
  by_contra hnot
  have hzero : (w'.mapped e).bn = 0 := by
    rcases hspec.fails hfails with ⟨-, h2⟩ | ⟨h1, -⟩
    · exact absurd (hwalk.2 h2) hnot
    · exact h1
  obtain ⟨b, hu, -, -, hnone⟩ := fill_spec d e (hp.going.after_file (e := e)) (w'.mapped e).bn
  have hend : writeiLoopF d e (k + 1) w' = (w'.after e).fill d e (w'.mapped e).bn := by
    unfold writeiLoopF
    rw [round_fills hp.going.file (by rw [hzero]; decide)]
    exact if_neg fun hgo => hfails (hnone hgo.1).1
  have hmoved := iomove_write (w'.after e).s.u (d.bAddr (w'.mapped e).bn + (w'.after e).on) b
    (w'.after e).on (w'.after e).n (w'.after e).n_le hpresent
  have huser := hstop.user
  rw [hrun, hend, hu, hmoved, ← hp.user] at huser
  have hoff := congrArg User.uOffset huser
  have hpos := hp.going.n_pos
  change w'.s.u.uOffset + (w'.n : Int) = w'.s.u.uOffset at hoff
  omega

/-- One byte for an empty file on a device that is full, at offset `off`. -/
def oneByteAt (off : Int) : Wr where
  s :=
    { v := emptyVol
      ip := emptyInode
      u :=
        { uBase := 0
          uCount := 1
          uOffset := off
          uSegflg := .userD
          core := fun _ _ => some 7 }
      rdisk := fun _ => Bytes.zero }
  r := ⟨0, 0, 0⟩

def plainDev : Dev where
  bAddr := fun _ => 0
  bResid := fun _ => 0
  stale := fun _ => Bytes.zero
  dRead := id
  dWrite := id

def noFaults : Faults where
  free := fun _ => false
  indir := fun _ => false
  data := fun _ => false
  junk := fun _ => Bytes.zero

theorem oneByteAt_going {off : Int} (h : 0 ≤ off) : (oneByteAt off).Going :=
  ⟨Or.inl rfl, h, Nat.one_ne_zero, rfl⟩

/-- There is no block for the byte at offset 0. -/
theorem writei_bmapFails_noSpace :
    StoppedAt (oneByteAt 0) 0 ((oneByteAt 0).mapped noFaults)
      (writeiF plainDev noFaults (oneByteAt 0)) :=
  (writei_bmapFails_iff (oneByteAt_going (le_refl 0)) Turns.refl (by decide)).1
    ⟨by decide, not_unread_of_eq (by decide)⟩

/-- The byte after the last one that a file can have goes into the buffer of block 0, and counts as
written. -/
theorem writei_bmapFails_tooBig :
    ((oneByteAt (maxBn * 512)).mapped noFaults).v.uError = some .efbig ∧
      ¬StoppedAt (oneByteAt (maxBn * 512)) 0 ((oneByteAt (maxBn * 512)).mapped noFaults)
        (writeiF plainDev noFaults (oneByteAt (maxBn * 512))) := by
  refine ⟨by decide, fun hstop => ?_⟩
  have hcount : (writeiF plainDev noFaults (oneByteAt (maxBn * 512))).s.u.uCount = 0 := by
    decide
  rw [hstop.user] at hcount
  exact absurd hcount (by decide)

end Venix.Fs
