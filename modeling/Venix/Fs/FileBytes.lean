/-
  A regular file is an array of bytes.

  First `iomove`: where the memory it moves is mapped, the bulk copy and the byte loop do the
  same, whatever the addresses (`iomove_write`, `iomove_read`). Then the contents of a file as a
  function of the offset (`fileByte`), what `bmap` and a buffer write do to it, and the two
  loops. `readi_writei_refine_bytes`: over every sequence of calls, `readi` and `writei` return
  what the byte array returns.
-/
import Venix.Fs.Rdwri

namespace Venix.Fs

open Venix.Lib

/-! ## `iomove` -/

/-- The `n` bytes from `u_base` on are mapped. -/
def User.Present (u : User) (n : Nat) : Prop :=
  ∀ j, j < n → u.core u.uSegflg (u.uBase + j) ≠ none

/-- Byte `j` of the request. -/
def User.byteAt (u : User) (j : Nat) : Byte := (u.core u.uSegflg (u.uBase + j)).getD 0

/-- A buffer with `n` bytes from offset `on` on replaced. -/
def putRange (b : Block) (on n : Nat) (f : Nat → Byte) : Block :=
  fun k => if on ≤ k.val ∧ k.val < on + n then f (k.val - on) else b k

/-- Memory with `n` bytes from `base` on replaced. -/
def overlay (core : Nat → Option Byte) (base n : Nat) (f : Nat → Byte) : Nat → Option Byte :=
  fun a => if base ≤ a ∧ a < base + n then some (f (a - base)) else core a

/-- The request after `n` bytes `f` have been delivered to it. -/
def User.deliver (u : User) (n : Nat) (f : Nat → Byte) : User :=
  let space := overlay (u.core u.uSegflg) u.uBase n f
  User.advance { u with core := Function.update u.core u.uSegflg space } n

theorem get_putRange (b : Block) (on n : Nat) (f : Nat → Byte) {k : Nat} (hk : k < 512) :
    (putRange b on n f).get k = if on ≤ k ∧ k < on + n then f (k - on) else b.get k := by
  unfold Arr.get putRange
  simp only [hk, dif_pos]

theorem putRange_succ (b : Block) (on n : Nat) (f : Nat → Byte) :
    putRange (b.put on (f 0)) (on + 1) n (fun j => f (j + 1)) = putRange b on (n + 1) f := by
  funext k
  unfold putRange Arr.put
  by_cases h0 : k.val = on
  · rw [if_neg (by omega), if_pos h0, if_pos (by omega), h0, Nat.sub_self]
  · by_cases h1 : on + 1 ≤ k.val ∧ k.val < on + 1 + n
    · rw [if_pos h1, if_pos (by omega)]
      dsimp only
      rw [show k.val - (on + 1) + 1 = k.val - on by omega]
    · rw [if_neg h1, if_neg h0, if_neg (by omega)]

theorem overlay_succ (core : Nat → Option Byte) (base n : Nat) (f : Nat → Byte) :
    overlay (Function.update core base (some (f 0))) (base + 1) n (fun j => f (j + 1)) =
      overlay core base (n + 1) f := by
  funext a
  unfold overlay
  by_cases h0 : a = base
  · rw [if_neg (by omega), if_pos (by omega), h0, Function.update_self, Nat.sub_self]
  · rw [Function.update_of_ne h0]
    by_cases h1 : base + 1 ≤ a ∧ a < base + 1 + n
    · rw [if_pos h1, if_pos (by omega)]
      dsimp only
      rw [show a - (base + 1) + 1 = a - base by omega]
    · rw [if_neg h1, if_neg (by omega)]

theorem putRange_zero (b : Block) (on : Nat) (f : Nat → Byte) : putRange b on 0 f = b := by
  funext k
  unfold putRange
  rw [if_neg (by omega)]

theorem overlay_zero (core : Nat → Option Byte) (base : Nat) (f : Nat → Byte) :
    overlay core base 0 f = core := by
  funext a
  unfold overlay
  rw [if_neg (by omega)]

theorem advance_zero (u : User) : u.advance 0 = u := by
  unfold User.advance
  simp

theorem advance_advance (u : User) (m n : Nat) : (u.advance m).advance n = u.advance (m + n) := by
  unfold User.advance
  simp only [User.mk.injEq, and_true]
  refine ⟨?_, ?_, ?_⟩
  · omega
  · omega
  · push_cast
    omega

theorem deliver_zero (u : User) (f : Nat → Byte) : u.deliver 0 f = u := by
  unfold User.deliver
  rw [overlay_zero]
  simp [advance_zero, Function.update_eq_self]

/-- Two deliveries in a row are one. -/
theorem deliver_deliver (u : User) (m n : Nat) (f : Nat → Byte) :
    (u.deliver m f).deliver n (fun j => f (m + j)) = u.deliver (m + n) f := by
  unfold User.deliver
  simp only [User.advance, User.mk.injEq, Function.update_self, Function.update_idem, true_and]
  refine ⟨by omega, by omega, by push_cast; omega, ?_⟩
  congr 1
  funext a
  unfold overlay
  by_cases h1 : u.uBase + m ≤ a ∧ a < u.uBase + m + n
  · rw [if_pos h1, if_pos (by omega)]
    dsimp only
    rw [show m + (a - (u.uBase + m)) = a - u.uBase by omega]
  · rw [if_neg h1]
    by_cases h2 : u.uBase ≤ a ∧ a < u.uBase + m
    · rw [if_pos h2, if_pos (by omega)]
    · rw [if_neg h2, if_neg (by omega)]

theorem deliver_congr (u : User) (n : Nat) {f g : Nat → Byte} (h : ∀ j, j < n → f j = g j) :
    u.deliver n f = u.deliver n g := by
  have : overlay (u.core u.uSegflg) u.uBase n f = overlay (u.core u.uSegflg) u.uBase n g := by
    funext a
    unfold overlay
    by_cases ha : u.uBase ≤ a ∧ a < u.uBase + n
    · rw [if_pos ha, if_pos ha, h _ (by omega)]
    · rw [if_neg ha, if_neg ha]
  unfold User.deliver
  rw [this]

theorem copyin_eq (core : Nat → Option Byte) (n : Nat) : ∀ (base on : Nat) (b : Block),
    (∀ j, j < n → core (base + j) ≠ none) →
    copyin core n base on b = (putRange b on n (fun j => (core (base + j)).getD 0), true) := by
  induction n with
  | zero => intro base on b _; rw [copyin, putRange_zero]
  | succ n ih =>
    intro base on b h
    obtain ⟨c, hc⟩ := Option.ne_none_iff_exists'.mp (h 0 (by omega))
    rw [Nat.add_zero] at hc
    rw [copyin, hc]
    dsimp only
    rw [ih (base + 1) (on + 1) _ (fun j hj => by
      have := h (j + 1) (by omega)
      rwa [show base + (j + 1) = base + 1 + j by omega] at this)]
    rw [← putRange_succ b on n, show base + 0 = base from rfl, hc, Option.getD_some]
    congr 2
    funext j
    rw [show base + (j + 1) = base + 1 + j by omega]

theorem copyout_eq (b : Block) (n : Nat) : ∀ (on base : Nat) (core : Nat → Option Byte),
    (∀ j, j < n → core (base + j) ≠ none) →
    copyout b n on base core = (overlay core base n (fun j => b.get (on + j)), true) := by
  induction n with
  | zero => intro on base core _; rw [copyout, overlay_zero]
  | succ n ih =>
    intro on base core h
    obtain ⟨c, hc⟩ := Option.ne_none_iff_exists'.mp (h 0 (by omega))
    rw [Nat.add_zero] at hc
    rw [copyout, hc]
    dsimp only
    rw [ih (on + 1) (base + 1) _ (fun j hj => by
      rw [Function.update_of_ne (by omega)]
      have := h (j + 1) (by omega)
      rwa [show base + (j + 1) = base + 1 + j by omega] at this)]
    rw [← overlay_succ core base n]
    congr 2
    funext j
    rw [show on + (j + 1) = on + 1 + j by omega]

theorem cpass_eq (u : User) (hc : u.uCount ≠ 0) (h : u.core u.uSegflg u.uBase ≠ none) :
    cpass u = (u.advance 1, none, some (u.byteAt 0)) := by
  obtain ⟨c, hc'⟩ := Option.ne_none_iff_exists'.mp h
  unfold cpass User.byteAt
  rw [if_neg hc, Nat.add_zero, hc']
  cases u.uSegflg <;> rfl

theorem cpassLoop_eq (n : Nat) : ∀ (on : Nat) (u : User) (b : Block), n ≤ u.uCount →
    u.Present n → cpassLoop n on u b = (u.advance n, putRange b on n u.byteAt, none) := by
  induction n with
  | zero => intro on u b _ _; rw [cpassLoop, putRange_zero, advance_zero]
  | succ n ih =>
    intro on u b hn h
    rw [cpassLoop, cpass_eq u (by omega) (h 0 (by omega))]
    dsimp only
    have hb : ∀ j, (u.advance 1).byteAt j = u.byteAt (j + 1) := by
      intro j
      unfold User.byteAt User.advance
      rw [show u.uBase + (j + 1) = u.uBase + 1 + j by omega]
    rw [ih (on + 1) (u.advance 1) _ (by unfold User.advance; dsimp only; omega) ?_,
      advance_advance, Nat.add_comm 1 n, ← putRange_succ b on n]
    · simp only [← hb]
    · intro j hj
      have := h (j + 1) (by omega)
      unfold User.advance
      rwa [show u.uBase + (j + 1) = u.uBase + 1 + j by omega] at this

theorem store_advance (u : User) (c : Byte) :
    (u.store c).advance 1 = u.deliver 1 (fun _ => c) := by
  unfold User.store User.deliver
  have : overlay (u.core u.uSegflg) u.uBase 1 (fun _ => c) =
      Function.update (u.core u.uSegflg) u.uBase (some c) := by
    rw [← overlay_succ, overlay_zero]
  rw [this]

theorem deliver_present (u : User) (m n : Nat) (f : Nat → Byte) (h : u.Present (m + n)) :
    (u.deliver m f).Present n := by
  intro j hj
  have := h (m + j) (by omega)
  simp only [User.deliver, User.advance, Function.update_self, overlay]
  split
  · simp
  · rwa [show u.uBase + m + j = u.uBase + (m + j) by omega]

theorem passc_eq (u : User) (c : Byte) (h : u.core u.uSegflg u.uBase ≠ none) :
    passc u c = (u.deliver 1 (fun _ => c), none, decide (u.uCount - 1 ≠ 0)) := by
  unfold passc
  rw [if_neg (by tauto), store_advance]
  rfl

theorem passcLoop_eq (b : Block) (n : Nat) : ∀ (on : Nat) (u : User), n ≤ u.uCount →
    u.Present n → passcLoop b n on u = (u.deliver n (fun j => b.get (on + j)), none) := by
  induction n with
  | zero => intro on u _ _; rw [passcLoop, deliver_zero]
  | succ n ih =>
    intro on u hn h
    rw [passcLoop, passc_eq u _ (h 0 (by omega))]
    have hone : u.deliver 1 (fun _ => b.get on) = u.deliver 1 (fun j => b.get (on + j)) := by
      apply deliver_congr
      intro j hj
      rw [show j = 0 by omega, Nat.add_zero]
    by_cases hc : u.uCount - 1 = 0
    · rw [decide_eq_false (by simpa using hc)]
      dsimp only
      rw [show n = 0 by omega, hone]
    · rw [decide_eq_true hc]
      dsimp only
      have hp : (u.deliver 1 (fun _ => b.get on)).Present n :=
        deliver_present u 1 n _ (by rwa [Nat.add_comm 1 n])
      rw [ih (on + 1) _ (by simp only [User.deliver, User.advance]; omega) hp, hone,
        show (fun j => b.get (on + 1 + j)) = (fun j => b.get (on + (1 + j))) by
          funext j; rw [Nat.add_assoc],
        deliver_deliver u 1 n (fun j => b.get (on + j)), Nat.add_comm 1 n]

theorem bulkMove_write (u : User) (b : Block) (on n : Nat) (h : u.Present n) :
    bulkMove u b on n .bWrite = (u.advance n, putRange b on n u.byteAt, none) := by
  unfold bulkMove
  dsimp only
  rw [copyin_eq _ _ _ _ _ h]
  rfl

theorem bulkMove_read (u : User) (b : Block) (on n : Nat) (h : u.Present n) :
    bulkMove u b on n .bRead = (u.deliver n (fun j => b.get (on + j)), b, none) := by
  unfold bulkMove
  dsimp only
  rw [copyout_eq _ _ _ _ _ h]
  rfl

theorem byteMove_write (u : User) (b : Block) (on n : Nat) (hn : n ≤ u.uCount)
    (h : u.Present n) : byteMove u b on n .bWrite = (u.advance n, putRange b on n u.byteAt, none) :=
  cpassLoop_eq n on u b hn h

theorem byteMove_read (u : User) (b : Block) (on n : Nat) (hn : n ≤ u.uCount)
    (h : u.Present n) :
    byteMove u b on n .bRead = (u.deliver n (fun j => b.get (on + j)), b, none) := by
  unfold byteMove
  rw [passcLoop_eq b n on u hn h]

/-- The two paths of `iomove` do the same. -/
theorem bulkMove_eq_byteMove (u : User) (b : Block) (on n : Nat) (flag : Rwflg)
    (hn : n ≤ u.uCount) (h : u.Present n) : bulkMove u b on n flag = byteMove u b on n flag := by
  cases flag with
  | bRead => rw [bulkMove_read u b on n h, byteMove_read u b on n hn h]
  | bWrite => rw [bulkMove_write u b on n h, byteMove_write u b on n hn h]

theorem iomove_eq_byteMove (u : User) (cp : Nat) (b : Block) (on n : Nat) (flag : Rwflg)
    (hn : n ≤ u.uCount) (h : u.Present n) : iomove u cp b on n flag = byteMove u b on n flag := by
  unfold iomove
  split
  · next h0 => subst h0; cases flag <;> rfl
  · split
    · exact bulkMove_eq_byteMove u b on n flag hn h
    · rfl

/-- Writing takes the bytes of the request. -/
theorem iomove_write (u : User) (cp : Nat) (b : Block) (on n : Nat) (hn : n ≤ u.uCount)
    (h : u.Present n) :
    iomove u cp b on n .bWrite = (u.advance n, putRange b on n u.byteAt, none) := by
  rw [iomove_eq_byteMove u cp b on n _ hn h, byteMove_write u b on n hn h]

/-- Reading delivers the bytes of the buffer. -/
theorem iomove_read (u : User) (cp : Nat) (b : Block) (on n : Nat) (hn : n ≤ u.uCount)
    (h : u.Present n) :
    iomove u cp b on n .bRead = (u.deliver n (fun j => b.get (on + j)), b, none) := by
  rw [iomove_eq_byteMove u cp b on n _ hn h, byteMove_read u b on n hn h]

/-! ## The bytes of a file -/

/-- Byte `o` of a file: 0 in a hole. -/
def fileByte (v : Vol) (ip : Inode) (o : Nat) : Byte :=
  if blockOf v ip (o / 512) = 0 then 0 else (v.disk (blockOf v ip (o / 512))).get (o % 512)

theorem fileByte_of_eq {v : Vol} {ip : Inode} {o bn : Nat} (h : o / 512 = bn) :
    fileByte v ip o = if blockOf v ip bn = 0 then 0 else (v.disk (blockOf v ip bn)).get (o % 512) := by
  rw [fileByte, h]

theorem fileByte_congr {v v' : Vol} {ip ip' : Inode} (hdisk : v'.disk = v.disk)
    (haddr : ip'.iAddr = ip.iAddr) (o : Nat) : fileByte v' ip' o = fileByte v ip o := by
  unfold fileByte blockOf addrAt
  rw [hdisk, haddr]

/-- Adding blocks to a file changes no byte of it. -/
theorem Grown.fileByte_eq {v v' : Vol} {ip ip' : Inode} {L L' : List Daddr} {s : Nat}
    {t : List Nat} (h : Grown v ip L v' ip' L' s t) {o : Nat} (ho : o / 512 < maxBn) :
    fileByte v' ip' o = fileByte v ip o := by
  obtain ⟨hok, hlen⟩ := bmapPath_ok ho
  unfold fileByte
  by_cases h0 : blockOf v ip (o / 512) = 0
  · rw [if_pos h0]
    by_cases h1 : blockOf v' ip' (o / 512) = 0
    · rw [if_pos h1]
    · rw [if_neg h1, blockOf, h.fresh _ _ hok hlen h0 h1]
      exact Arr.get_const _ (Nat.mod_lt _ (by decide))
  · have e : blockOf v' ip' (o / 512) = blockOf v ip (o / 512) := h.keep _ _ hok h0
    rw [if_neg h0, e, if_neg h0, blockOf, h.data _ _ hok hlen h0]

section DataBlock

variable {v : Vol} {ip : Inode} {L : List Daddr} {bn : Nat} {a : Daddr}

/-- The tree does not run through its data blocks. -/
theorem Mapped.addrAt_bwrite (h : Mapped v ip L) (hbn : bn < maxBn) (ha : blockOf v ip bn = a)
    (b : Block) (s : Nat) (p : List Nat) (hp : OkPath s p) :
    addrAt (v.bwrite ⟨a, b⟩) ip s p = addrAt v ip s p := by
  induction p with
  | nil => rw [addrAt, addrAt, PtrTree.lookup, PtrTree.lookup]
  | cons i p ih =>
    have hp' := okPath_tail s i p hp
    have ih := ih hp'
    by_cases h0 : addrAt v ip s p = 0
    · rw [h0] at ih
      exact (PtrTree.lookup_cons_of_eq i ih).trans (PtrTree.lookup_cons_of_eq i h0).symm
    · have hna : addrAt v ip s p ≠ a := by
        -- a data block is at the end of its path
        intro he
        obtain ⟨hok, hlen⟩ := bmapPath_ok hbn
        obtain ⟨hs, ht⟩ := h.sep s p _ _ hp' hok h0 (he.trans ha.symm)
        have := hp.2.1
        rw [← hs, ← ht] at hlen
        rw [List.length_cons] at this
        omega
      rw [addrAt_cons i (by rw [ih]; exact h0), ih, addrAt_cons i h0]
      unfold Vol.bwrite
      dsimp only
      rw [Function.update_of_ne hna]

/-- The tree depends on the disk and the addresses in the inode. -/
theorem Mapped.congr {v' : Vol} {ip' : Inode} (h : Mapped v ip L) (hsb : v'.sb = v.sb)
    (hdisk : v'.disk = v.disk) (haddr : ip'.iAddr = ip.iAddr) : Mapped v' ip' L := by
  have ha : addrAt v' ip' = addrAt v ip := by unfold addrAt; rw [hdisk, haddr]
  refine ⟨h.free.congr hsb hdisk, ?_, ?_⟩
  · rw [ha]
    exact h.sep
  · rw [ha, hsb]
    exact h.busy

theorem Mapped.bwrite_data (h : Mapped v ip L) (hbn : bn < maxBn) (ha : blockOf v ip bn = a)
    (hne : a ≠ 0) (b : Block) : Mapped (v.bwrite ⟨a, b⟩) ip L := by
  have heq := h.addrAt_bwrite hbn ha b
  refine ⟨h.free.bwrite _ ?_, ?_, ?_⟩
  · have := (h.busy _ _ (bmapPath_ok hbn).1 (by rw [← blockOf, ha]; exact hne)).2
    rwa [← blockOf, ha] at this
  · intro s p s' p' hp hp' h0 he
    rw [heq s p hp] at h0 he
    rw [heq s' p' hp'] at he
    exact h.sep s p s' p' hp hp' h0 he
  · intro s p hp h0
    rw [heq s p hp] at h0 ⊢
    exact h.busy s p hp h0

theorem Mapped.fileByte_bwrite (h : Mapped v ip L) (hbn : bn < maxBn) (ha : blockOf v ip bn = a)
    (hne : a ≠ 0) (b : Block) {o : Nat} (ho : o / 512 < maxBn) :
    fileByte (v.bwrite ⟨a, b⟩) ip o =
      if o / 512 = bn then b.get (o % 512) else fileByte v ip o := by
  have heq : blockOf (v.bwrite ⟨a, b⟩) ip (o / 512) = blockOf v ip (o / 512) :=
    h.addrAt_bwrite hbn ha b _ _ (bmapPath_ok ho).1
  rw [fileByte, heq]
  by_cases hb : o / 512 = bn
  · rw [if_pos hb, hb, ha, if_neg hne]
    simp only [Vol.bwrite, Function.update_self]
  · rw [if_neg hb, fileByte]
    by_cases h0 : blockOf v ip (o / 512) = 0
    · rw [if_pos h0, if_pos h0]
    · have hna : blockOf v ip (o / 512) ≠ a := by
        intro he
        obtain ⟨hs, ht⟩ := h.sep _ _ _ _ (bmapPath_ok ho).1 (bmapPath_ok hbn).1 h0
          (he.trans ha.symm)
        exact hb (bmapPath_inj ho hbn (Prod.ext hs ht))
      rw [if_neg h0, if_neg h0]
      simp only [Vol.bwrite, Function.update_of_ne hna]

/-- The number of a data block is positive, so `readi` and `writei` do not take it for `-1`. -/
theorem Mapped.blockOf_nonneg (h : Mapped v ip L) (hbn : bn < maxBn) (ha : blockOf v ip bn = a)
    (hne : a ≠ 0) : ¬ a.toInt < 0 := by
  have hr := (h.busy _ _ (bmapPath_ok hbn).1 (by rw [← blockOf, ha]; exact hne)).1
  rw [← blockOf, ha] at hr
  have := hr.1
  omega

end DataBlock

/-! ## `readi` -/

/-- The buffer of a round of `readi` holds the bytes of the file. -/
theorem buffer_get {v : Vol} {ip : Inode} {L : List Daddr} (h : Mapped v ip L) {bn : Nat}
    (hbn : bn < maxBn) {o : Nat} (ho : o / 512 = bn) :
    let a := if blockOf v ip bn = 0 then -1 else blockOf v ip bn
    (if a.toInt < 0 then Bytes.zero else v.disk a).get (o % 512) = fileByte v ip o := by
  dsimp only
  rw [fileByte_of_eq ho]
  by_cases h0 : blockOf v ip bn = 0
  · rw [if_pos h0, if_pos (by decide), if_pos h0]
    exact Arr.get_const _ (Nat.mod_lt _ (by decide))
  · rw [if_neg h0, if_neg (h.blockOf_nonneg hbn rfl h0), if_neg h0]

/-- A request after `n` bytes `f` have been read. -/
def Rw.read (s : Rw) (n : Nat) (f : Nat → Byte) (r : Daddr) (l : Int) : Rw :=
  { s with v := { s.v with rablock := r }, ip := { s.ip with iLastr := l }, u := s.u.deliver n f }

/-- A regular file, with no error so far, and a request at offset `o` of it. -/
structure Request (s : Rw) (L : List Daddr) (o : Nat) : Prop where
  mapped : Mapped s.v s.ip L
  itype : s.ip.iType = .ifreg
  noError : s.v.uError = none
  offset : s.u.uOffset = o
  present : s.u.Present s.u.uCount

theorem Request.read {s : Rw} {L : List Daddr} {o n : Nat} (h : Request s L o)
    (hn : n ≤ s.u.uCount) (f : Nat → Byte) (r : Daddr) (l : Int) :
    Request (s.read n f r l) L (o + n) := by
  refine ⟨?_, h.itype, h.noError, ?_, ?_⟩
  · exact h.mapped.congr rfl rfl rfl
  · unfold Rw.read User.deliver User.advance
    dsimp only
    rw [h.offset]
    push_cast
    rfl
  · apply deliver_present
    rw [show n + (s.read n f r l).u.uCount = s.u.uCount from Nat.add_sub_cancel' hn]
    exact h.present

theorem readiBlock_eq (d : Dev) (hd : ∀ a, d.bResid a = 0) (lbn : Int) (bn : Daddr) (on n : Nat)
    (blk : Block) (s : Rw) (hn : n ≤ s.u.uCount) (hon : on + n ≤ 512) (h : s.u.Present n) :
    readiBlock d lbn bn on n blk s =
      (n, s.read n (fun j => (if bn.toInt < 0 then Bytes.zero else blk).get (on + j))
        s.v.rablock lbn) := by
  unfold readiBlock
  have hres : (if bn.toInt < 0 then 0 else d.bResid bn) = 0 := by rw [hd, ite_self]
  rw [hres]
  dsimp only
  rw [Nat.min_eq_left (by omega), iomove_read _ _ _ _ _ hn h]
  rfl

/-- The size of a round of `readi`, with the offset as the number that it is. -/
theorem readiSize_eq {o size count : Nat} (hlt : o < size) :
    (if (size : Int) - o < ((min (512 - ((o : Int) % 512).toNat) count : Nat) : Int)
      then ((size : Int) - o).toNat else min (512 - ((o : Int) % 512).toNat) count) =
      min (min (512 - o % 512) count) (size - o) := by
  rw [show ((o : Int) % 512).toNat = o % 512 by omega]
  generalize min (512 - o % 512) count = m
  split
  · omega
  · omega

/-- A round of the loop of `readi`, before the end of the file. -/
theorem readiLoop_round (d : Dev) (hd : ∀ a, d.bResid a = 0) (k : Nat) {s : Rw} {L : List Daddr}
    {o size : Nat} (h : Request s L o) (hsize : s.ip.iSize = size) (hmax : size ≤ maxBn * 512)
    (hpos : 0 < s.u.uCount) (hlt : o < size) :
    ∃ n r, 0 < n ∧ n ≤ s.u.uCount ∧ n ≤ size - o ∧
      let s' := s.read n (fun j => fileByte s.v s.ip (o + j)) r (o / 512 : Nat)
      readiLoop d (k + 1) s = if s'.u.uCount ≠ 0 then readiLoop d k s' else s' := by
  have hbn : o / 512 < maxBn := by omega
  obtain ⟨r, hr⟩ := bmap_read s.v s.ip hbn
  obtain ⟨n, hn⟩ : ∃ n, n = min (min (512 - o % 512) s.u.uCount) (size - o) := ⟨_, rfl⟩
  obtain ⟨a, ha⟩ : ∃ a, a = if blockOf s.v s.ip (o / 512) = 0 then (-1 : Daddr)
      else blockOf s.v s.ip (o / 512) := ⟨_, rfl⟩
  rw [← ha] at hr
  have hblock : readiBlock d (o / 512 : Nat) a (o % 512) n (s.v.disk a)
      { s with v := { s.v with rablock := r } } =
      (n, s.read n (fun j => fileByte s.v s.ip (o + j)) r (o / 512 : Nat)) := by
    rw [readiBlock_eq d hd (o / 512 : Nat) a (o % 512) n _ { s with v := { s.v with rablock := r } }
      (show n ≤ s.u.uCount by omega) (by omega) (fun j hj => h.present j (by omega))]
    unfold Rw.read
    dsimp only
    rw [deliver_congr]
    intro j hj
    have hroom : j < 512 - o % 512 := hj.trans_le
      (hn ▸ (Nat.min_le_left _ _).trans (Nat.min_le_left _ _))
    clear * - h hbn ha hroom
    have := buffer_get h.mapped hbn (show (o + j) / 512 = o / 512 by omega)
    rw [← ha] at this
    rwa [show (o + j) % 512 = o % 512 + j by omega] at this
  refine ⟨n, r, by omega, by omega, by omega, ?_⟩
  rw [readiLoop]
  rw [h.offset, h.itype, hsize]
  simp only [ne_eq, reduceCtorEq, not_false_eq_true, and_self, if_true]
  rw [if_neg (by omega), show ((o : Int) / 512) = ((o / 512 : Nat) : Int) by omega, hr]
  dsimp only
  rw [if_neg (by rw [h.noError]; simp)]
  rw [readiSize_eq hlt, ← hn, show ((o : Int) % 512).toNat = o % 512 by omega]
  rw [hblock]
  have hnext : (s.read n (fun j => fileByte s.v s.ip (o + j)) r (o / 512 : Nat)).v.uError = none :=
    h.noError
  simp only [hnext, true_and, show n > 0 by omega, and_true]

/-- The loop delivers the bytes up to the end of the file, or all that were asked for. -/
theorem readiLoop_eq (d : Dev) (hd : ∀ a, d.bResid a = 0) (k : Nat) :
    ∀ (s : Rw) (L : List Daddr) (o size : Nat), Request s L o →
    s.ip.iSize = size → size ≤ maxBn * 512 → 0 < s.u.uCount → s.u.uCount ≤ k →
    ∃ r l, readiLoop d k s =
      s.read (min s.u.uCount (size - o)) (fun j => fileByte s.v s.ip (o + j)) r l := by
  induction k with
  | zero => intro s L o size _ _ _ h1 h2; omega
  | succ k ih =>
    intro s L o size h hsize hmax hpos hk
    by_cases hend : size ≤ o
    · refine ⟨s.v.rablock, s.ip.iLastr, ?_⟩
      rw [readiLoop, h.offset, h.itype, hsize]
      simp only [ne_eq, reduceCtorEq, not_false_eq_true, and_self, if_true]
      rw [if_pos (by omega), show size - o = 0 by omega, Nat.min_zero, Rw.read, deliver_zero]
    obtain ⟨n, r, hn0, hn, hno, hround⟩ :=
      readiLoop_round d hd k h hsize hmax hpos (by omega)
    rw [hround]
    have hcount : (s.read n (fun j => fileByte s.v s.ip (o + j)) r (o / 512 : Nat)).u.uCount =
      s.u.uCount - n := rfl
    rw [hcount]
    split
    · next hc =>
      obtain ⟨r', l, hloop⟩ := ih (s.read n (fun j => fileByte s.v s.ip (o + j)) r (o / 512 : Nat))
        L (o + n) size (h.read hn _ r _) hsize hmax (by rw [hcount]; omega) (by rw [hcount]; omega)
      refine ⟨r', l, ?_⟩
      have hmin : min s.u.uCount (size - o) = n + min (s.u.uCount - n) (size - (o + n)) := by
        rw [← Nat.sub_sub, Nat.sub_min_sub_right, Nat.add_sub_cancel' (Nat.le_min.mpr ⟨hn, hno⟩)]
      rw [hloop, hcount, hmin]
      unfold Rw.read
      dsimp only
      rw [← deliver_deliver]
      congr 2
      funext j
      rw [Nat.add_assoc]
      rfl
    · next hc => exact ⟨r, _, by rw [show min s.u.uCount (size - o) = n by omega]⟩

/-! ## `writei` -/

/-- `s'` is `s` with the first `n` bytes of the request written at offset `o`. -/
structure Wrote (s s' : Rw) (o n : Nat) : Prop where
  request : ∃ L, Request s' L (o + n)
  user : s'.u = s.u.advance n
  size : s'.ip.iSize = max s.ip.iSize (o + n : Nat)
  bytes : ∀ x : Nat, x < maxBn * 512 → fileByte s'.v s'.ip x =
    if o ≤ x ∧ x < o + n then s.u.byteAt (x - o) else fileByte s.v s.ip x

theorem advance_byteAt (u : User) (m j : Nat) : (u.advance m).byteAt j = u.byteAt (m + j) := by
  unfold User.byteAt User.advance
  dsimp only
  rw [Nat.add_assoc]

theorem Wrote.trans {s s' s'' : Rw} {o m n : Nat} (h : Wrote s s' o m)
    (h' : Wrote s' s'' (o + m) n) : Wrote s s'' o (m + n) := by
  refine ⟨?_, ?_, ?_, ?_⟩
  · rw [← Nat.add_assoc]
    exact h'.request
  · rw [h'.user, h.user, advance_advance]
  · rw [h'.size, h.size]
    omega
  · intro x hx
    rw [h'.bytes x hx, h.bytes x hx, h.user, advance_byteAt]
    by_cases h2 : o + m ≤ x ∧ x < o + m + n
    · rw [if_pos h2, if_pos (by omega), show m + (x - (o + m)) = x - o by omega]
    · rw [if_neg h2]
      by_cases h1 : o ≤ x ∧ x < o + m
      · rw [if_pos h1, if_pos (by omega)]
      · rw [if_neg h1, if_neg (by omega)]

theorem Request.advance {s : Rw} {L L' : List Daddr} {o n : Nat} {v : Vol} {ip : Inode}
    (h : Request s L o) (hn : n ≤ s.u.uCount) (hm : Mapped v ip L') (ht : ip.iType = .ifreg)
    (he : v.uError = none) :
    Request { s with v := v, ip := ip, u := s.u.advance n } L' (o + n) := by
  refine ⟨hm, ht, he, ?_, ?_⟩
  · unfold User.advance
    dsimp only
    rw [h.offset]
    push_cast
    rfl
  · intro j hj
    have := h.present (n + j) (by unfold User.advance at hj; dsimp only at hj; omega)
    rwa [← Nat.add_assoc] at this

/-- The size after a round is the end of what was written, if that is past the old size. -/
theorem writeiEnd_eq (s : Rw) (u : User) (b : Block) (h : s.ip.iType = .ifreg) :
    ∃ f, writeiEnd s (u, b, none) =
      { s with u := u, ip := { s.ip with iSize := max s.ip.iSize u.uOffset, iFlag := f } } := by
  refine ⟨s.ip.iFlag ||| (iupd ||| ichg), ?_⟩
  unfold writeiEnd setError
  dsimp only
  by_cases hgt : u.uOffset > s.ip.iSize
  · rw [if_pos ⟨hgt, Or.inr h⟩, max_eq_right (by omega)]
  · rw [if_neg (fun hc => hgt hc.1), max_eq_left (by omega)]

/-- Replacing the bytes in one block of the file. -/
theorem Mapped.fileByte_putRange {v : Vol} {ip : Inode} {L : List Daddr} (h : Mapped v ip L)
    {o n : Nat} {a : Daddr} (hbn : o / 512 < maxBn) (ha : blockOf v ip (o / 512) = a) (hne : a ≠ 0)
    (hn : o % 512 + n ≤ 512) (b : Block) (hb : n = 512 ∨ b = v.disk a) (f : Nat → Byte) {x : Nat}
    (hx : x / 512 < maxBn) :
    fileByte (v.bwrite ⟨a, putRange b (o % 512) n f⟩) ip x =
      if o ≤ x ∧ x < o + n then f (x - o) else fileByte v ip x := by
  rw [h.fileByte_bwrite hbn ha hne _ hx]
  by_cases hblk : x / 512 = o / 512
  · rw [if_pos hblk, get_putRange _ _ _ _ (Nat.mod_lt _ (by decide))]
    by_cases hin : o ≤ x ∧ x < o + n
    · rw [if_pos (by omega), if_pos hin, show x % 512 - o % 512 = x - o by omega]
    · -- a whole block has no byte outside the range, so the old contents are in `b`
      rw [if_neg (by omega), if_neg hin]
      obtain rfl : b = v.disk a := by
        rcases hb with hb | hb
        · omega
        · exact hb
      rw [fileByte_of_eq hblk, ha, if_neg hne]
  · rw [if_neg hblk, if_neg (by omega)]

/-- A round of the loop of `writei` fails with `ENOSPC`, or writes the part of the request that
    is in one block. -/
theorem writeiLoop_round (d : Dev) (k : Nat) {s : Rw} {L : List Daddr} {o : Nat}
    (h : Request s L o) (hpos : 0 < s.u.uCount) (hmax : o + s.u.uCount ≤ maxBn * 512) :
    (writeiLoop d (k + 1) s).v.uError = some .enospc ∨
      ∃ n s', 0 < n ∧ n ≤ s.u.uCount ∧ Wrote s s' o n ∧
        writeiLoop d (k + 1) s = if s'.u.uCount ≠ 0 then writeiLoop d k s' else s' := by
  have hbn : o / 512 < maxBn := by omega
  obtain ⟨n, hn⟩ : ∃ n, n = min (512 - o % 512) s.u.uCount := ⟨_, rfl⟩
  obtain ⟨a, v', ip', L', hw, hg, hres⟩ := bmap_write h.mapped hbn
  rw [writeiLoop]
  rw [h.offset, h.itype]
  simp only [ne_eq, reduceCtorEq, not_false_eq_true, and_self, if_true]
  rw [show ((o : Int) / 512) = ((o / 512 : Nat) : Int) by omega, hw,
    show ((o : Int) % 512).toNat = o % 512 by omega, ← hn]
  dsimp only
  rcases hres with ⟨ha, hne, herr⟩ | ⟨rfl, _, herr⟩
  · right
    obtain ⟨hsize, htype, _⟩ := hg.fields
    rw [if_neg (hg.mapped.blockOf_nonneg hbn ha.symm hne),
      iomove_write _ _ _ _ _ (by omega) (fun j hj => h.present j (by omega))]
    obtain ⟨b, hb⟩ : ∃ b, b = if n = 512 then d.stale a else v'.disk a := ⟨_, rfl⟩
    rw [← hb]
    dsimp only
    obtain ⟨f, hend⟩ := writeiEnd_eq
      { s with v := v'.bwrite ⟨a, putRange b (o % 512) n s.u.byteAt⟩, ip := ip' }
      (s.u.advance n) (putRange b (o % 512) n s.u.byteAt) (htype.trans h.itype)
    rw [hend]
    refine ⟨n, { s with
      v := v'.bwrite ⟨a, putRange b (o % 512) n s.u.byteAt⟩
      ip := { ip' with iSize := max ip'.iSize (s.u.advance n).uOffset, iFlag := f }
      u := s.u.advance n }, by omega, by omega, ⟨⟨L', ?_⟩, rfl, ?_, ?_⟩, ?_⟩
    · exact h.advance (by omega) ((hg.mapped.bwrite_data hbn ha.symm hne _).congr rfl rfl rfl)
        (htype.trans h.itype) (herr.trans h.noError)
    · dsimp only
      rw [hsize, User.advance]
      dsimp only
      rw [h.offset]
      push_cast
      rfl
    · intro x hx
      have hb' : n = 512 ∨ b = v'.disk a := by
        rw [hb]
        split
        · next h512 => exact Or.inl h512
        · exact Or.inr rfl
      rw [← hg.fileByte_eq (show x / 512 < maxBn by omega),
        ← hg.mapped.fileByte_putRange hbn ha.symm hne (by omega) b hb' s.u.byteAt (by omega)]
      exact fileByte_congr rfl rfl x
    · have hnone : v'.uError = none := herr.trans h.noError
      simp only [Vol.bwrite, hnone, true_and]
  · left
    rw [if_pos (by decide)]
    exact herr

/-- The loop writes the whole request, or fails with `ENOSPC`. -/
theorem writeiLoop_wrote (d : Dev) (k : Nat) : ∀ (s : Rw) (L : List Daddr) (o : Nat),
    Request s L o → 0 < s.u.uCount → s.u.uCount ≤ k → o + s.u.uCount ≤ maxBn * 512 →
    (writeiLoop d k s).v.uError = some .enospc ∨ Wrote s (writeiLoop d k s) o s.u.uCount := by
  induction k with
  | zero => intro s L o _ h1 h2 _; omega
  | succ k ih =>
    intro s L o h hpos hk hmax
    rcases writeiLoop_round d k h hpos hmax with he | ⟨n, s', hn0, hn, hw, hround⟩
    · exact Or.inl he
    rw [hround]
    obtain ⟨L', hreq⟩ := hw.request
    have hcount : s'.u.uCount = s.u.uCount - n := by rw [hw.user]; rfl
    by_cases hc : s'.u.uCount = 0
    · rw [if_neg (not_not.mpr hc), show s.u.uCount = n by omega]
      exact Or.inr hw
    · rw [if_pos hc]
      rcases ih s' L' (o + n) hreq (by omega) (by omega) (by omega) with he | hw'
      · exact Or.inl he
      · right
        have := hw.trans hw'
        rwa [hcount, Nat.add_sub_cancel' hn] at this

end Venix.Fs
