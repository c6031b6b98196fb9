/-
  The block tree of a file under `bmap`.

  `addrAt v ip s p` follows slot `s` of the inode and then the slots `p` of the indirect blocks
  (last one first); `bmapPath bn` is the path of logical block `bn`. `Mapped` is the invariant:
  a well-formed free list, no block at two paths, and every block of the file a data block of
  the volume that is not free.

  One spec lemma per part of `bmap`. `Grown` says everything a part can do to the tree: it only
  fills empty slots on the way to its target, with zeroed blocks from the top of the free list.
-/
import Venix.Lib.PtrTree
import Venix.Fs.Bmap

namespace Venix.Fs

open Venix.Lib

/-! ## Paths -/

def addrAt (v : Vol) (ip : Inode) : Nat → List Nat → Daddr :=
  PtrTree.lookup 0 (fun s => ip.iAddr.get s) (fun a k => (v.disk a).getLong (4 * k))

theorem addrAt_cons {v : Vol} {ip : Inode} {s : Nat} {p : List Nat} (i : Nat)
    (h : addrAt v ip s p ≠ 0) :
    addrAt v ip s (i :: p) = (v.disk (addrAt v ip s p)).getLong (4 * i) :=
  PtrTree.lookup_cons_of_ne i h

/-- A path of the tree: slots 10, 11 and 12 of the inode have one, two and three levels of
    indirect blocks below them. -/
def OkPath (s : Nat) (p : List Nat) : Prop :=
  s < naddr ∧ p.length ≤ s - 9 ∧ ∀ i ∈ p, i < nindir

/-- The slots `bmap` takes below the inode for `k` levels, last one first. -/
def pathIdx (bn : Nat) : Nat → List Nat
  | 0 => []
  | k + 1 => pathIdx bn k ++ [(bn >>> (nshift * k)) &&& nmask]

theorem pathIdx_succ (bn k : Nat) :
    pathIdx bn (k + 1) = pathIdx bn k ++ [(bn >>> (nshift * k)) &&& nmask] :=
  rfl

/-- The number of blocks a file can have. -/
def maxBn : Nat := 10 + 128 + 128 ^ 2 + 128 ^ 3

/-- The inode slot and the path below it of logical block `bn`. -/
def bmapPath (bn : Nat) : Nat × List Nat :=
  if bn < 10 then (bn, [])
  else if bn < 10 + 128 then (10, pathIdx (bn - 10) 1)
  else if bn < 10 + 128 + 128 ^ 2 then (11, pathIdx (bn - (10 + 128)) 2)
  else (12, pathIdx (bn - (10 + 128 + 128 ^ 2)) 3)

theorem okPath_tail (s k : Nat) (p : List Nat) (h : OkPath s (k :: p)) : OkPath s p := by
  obtain ⟨hs, hl, hi⟩ := h
  refine ⟨hs, ?_, fun i hip => hi i (List.mem_cons_of_mem _ hip)⟩
  simp only [List.length_cons] at hl
  omega

theorem okPath_root {s : Nat} (hs : s < naddr) : OkPath s [] := ⟨hs, Nat.zero_le _, by simp⟩

theorem okPath_cons {s i : Nat} {p : List Nat} (h : OkPath s p) (hi : i < nindir)
    (hl : p.length < s - 9) : OkPath s (i :: p) := by
  refine ⟨h.1, by simp only [List.length_cons]; omega, ?_⟩
  intro k hk
  rcases List.mem_cons.mp hk with rfl | hk
  · exact hi
  · exact h.2.2 k hk

theorem and_nmask_lt (n : Nat) : n &&& nmask < nindir := by
  unfold nmask nindir
  exact Nat.lt_of_le_of_lt Nat.and_le_right (by decide)

theorem pathIdx_length (bn k : Nat) : (pathIdx bn k).length = k := by
  induction k with
  | zero => rfl
  | succ k ih => rw [pathIdx_succ, List.length_append, ih]; rfl

theorem pathIdx_lt (bn k : Nat) : ∀ i ∈ pathIdx bn k, i < nindir := by
  induction k with
  | zero => simp [pathIdx]
  | succ k ih =>
    intro i hi
    rw [pathIdx_succ, List.mem_append, List.mem_singleton] at hi
    rcases hi with hi | rfl
    · exact ih i hi
    · exact and_nmask_lt _

/-- The slots of a block number are its digits to the base `nindir`. -/
theorem pathIdx_inj (k : Nat) : ∀ b c : Nat, pathIdx b k = pathIdx c k →
    b % 128 ^ k = c % 128 ^ k := by
  induction k with
  | zero => intro b c _; simp [Nat.mod_one]
  | succ k ih =>
    intro b c h
    rw [pathIdx_succ, pathIdx_succ] at h
    obtain ⟨h1, h2⟩ := List.append_inj h (by rw [pathIdx_length, pathIdx_length])
    have digit : ∀ n : Nat, (n >>> (nshift * k)) &&& nmask = n / 128 ^ k % 128 := by
      intro n
      unfold nshift nmask
      rw [Nat.shiftRight_eq_div_pow, show (127 : Nat) = 2 ^ 7 - 1 from rfl,
        Nat.and_two_pow_sub_one_eq_mod, Nat.pow_mul]
    simp only [digit, List.cons.injEq, and_true] at h2
    rw [Nat.mod_pow_succ, Nat.mod_pow_succ, ih b c h1, h2]

/-- The first logical block at `k` levels of indirection. -/
def levelBase : Nat → Nat
  | 0 => 0
  | 1 => 10
  | k + 2 => levelBase (k + 1) + 128 ^ (k + 1)

/-- A block is direct, or `k` levels down from slot `9 + k`. -/
theorem bmapPath_cases {bn : Nat} (h : bn < maxBn) :
    (bn < 10 ∧ bmapPath bn = (bn, [])) ∨
      ∃ k, 1 ≤ k ∧ k ≤ 3 ∧ levelBase k ≤ bn ∧ bn - levelBase k < 128 ^ k ∧
        bmapPath bn = (9 + k, pathIdx (bn - levelBase k) k) := by
  unfold maxBn at h
  unfold bmapPath
  by_cases h0 : bn < 10
  · exact Or.inl ⟨h0, if_pos h0⟩
  right
  rw [if_neg h0]
  by_cases h1 : bn < 10 + 128
  · refine ⟨1, by decide, by decide, ?_, ?_, by rw [if_pos h1]; rfl⟩ <;>
      simp only [levelBase] <;> omega
  rw [if_neg h1]
  by_cases h2 : bn < 10 + 128 + 128 ^ 2
  · refine ⟨2, by decide, by decide, ?_, ?_, by rw [if_pos h2]; rfl⟩ <;>
      simp only [levelBase] <;> omega
  rw [if_neg h2]
  refine ⟨3, by decide, by decide, ?_, ?_, rfl⟩ <;> simp only [levelBase] <;> omega

theorem bmapPath_ok {bn : Nat} (h : bn < maxBn) :
    OkPath (bmapPath bn).1 (bmapPath bn).2 ∧
      (bmapPath bn).2.length = (bmapPath bn).1 - 9 := by
  rcases bmapPath_cases h with ⟨h0, he⟩ | ⟨k, h1, h3, _, _, he⟩
  · rw [he]
    refine ⟨okPath_root (by unfold naddr; omega), ?_⟩
    simp only [List.length_nil]
    omega
  · rw [he]
    dsimp only
    have hl := pathIdx_length (bn - levelBase k) k
    exact ⟨⟨by unfold naddr; omega, by omega, pathIdx_lt _ _⟩, by omega⟩

/-- Distinct logical blocks have distinct paths. -/
theorem bmapPath_inj {b c : Nat} (hb : b < maxBn) (hc : c < maxBn)
    (h : bmapPath b = bmapPath c) : b = c := by
  rcases bmapPath_cases hb with ⟨hb0, eb⟩ | ⟨k, hk1, _, hkb, hkl, eb⟩ <;>
    rcases bmapPath_cases hc with ⟨hc0, ec⟩ | ⟨m, hm1, _, hmb, hml, ec⟩ <;>
    rw [eb, ec] at h <;> obtain ⟨h1, h2⟩ := Prod.mk.inj h
  · exact h1
  · omega
  · omega
  · obtain rfl : k = m := by omega
    have := pathIdx_inj k _ _ h2
    rw [Nat.mod_eq_of_lt hkl, Nat.mod_eq_of_lt hml] at this
    omega

/-! ## The invariant, and what a call can do to the tree -/

/-- A file on a volume with the free blocks `L`. -/
structure Mapped (v : Vol) (ip : Inode) (L : List Daddr) : Prop where
  free : FreeList v L
  sep : PtrTree.Separate 0 OkPath (addrAt v ip)
  busy : ∀ s p, OkPath s p → addrAt v ip s p ≠ 0 →
    InRange v.sb (addrAt v ip s p) ∧ addrAt v ip s p ∉ L

/-- What filling slots on the way to path `t` below slot `s` can do. -/
structure Grown (v : Vol) (ip : Inode) (L : List Daddr) (v' : Vol) (ip' : Inode)
    (L' : List Daddr) (s : Nat) (t : List Nat) : Prop where
  mapped : Mapped v' ip' L'
  isize : v'.sb.sIsize = v.sb.sIsize
  fsize : v'.sb.sFsize = v.sb.sFsize
  /-- Blocks come off the top of the free list, and all of them are in the tree. -/
  taken : ∃ T, L = T ++ L' ∧ ∀ b ∈ T, b ≠ 0 ∧ ∃ q, OkPath s q ∧ addrAt v' ip' s q = b
  keep : ∀ s' q, OkPath s' q → addrAt v ip s' q ≠ 0 → addrAt v' ip' s' q = addrAt v ip s' q
  off : ∀ s' q, OkPath s' q → ¬ (s' = s ∧ q <:+ t) → addrAt v' ip' s' q = addrAt v ip s' q
  /-- Data blocks keep their contents, and new ones are zero. -/
  data : ∀ s' q, OkPath s' q → q.length = s' - 9 → addrAt v ip s' q ≠ 0 →
    v'.disk (addrAt v ip s' q) = v.disk (addrAt v ip s' q)
  fresh : ∀ s' q, OkPath s' q → q.length = s' - 9 → addrAt v ip s' q = 0 →
    addrAt v' ip' s' q ≠ 0 → v'.disk (addrAt v' ip' s' q) = Bytes.zero
  fields : ip'.iSize = ip.iSize ∧ ip'.iType = ip.iType ∧ ip'.iLastr = ip.iLastr

/-- The top of the free list is a data block outside the tree. -/
theorem Mapped.top {v : Vol} {ip : Inode} {b : Daddr} {L : List Daddr}
    (h : Mapped v ip (b :: L)) :
    InRange v.sb b ∧ b ≠ 0 ∧ b ∉ L ∧ ∀ s p, OkPath s p → addrAt v ip s p ≠ b := by
  have hb : InRange v.sb b := h.free.valid b (by simp)
  have hb0 : b ≠ 0 := hb.ne_zero h.free.isize
  refine ⟨hb, hb0, (List.nodup_cons.mp h.free.nodup).1, ?_⟩
  intro s p hp he
  exact (h.busy s p hp (by rw [he]; exact hb0)).2 (by simp [he])

theorem FreeList.congr {v v' : Vol} {L : List Daddr} (h : FreeList v L) (hsb : v'.sb = v.sb)
    (hdisk : v'.disk = v.disk) : FreeList v' L := by
  obtain ⟨h1, h2, h3, h4, h5⟩ := h
  rw [← hsb, ← hdisk] at h1
  rw [← hsb] at h2 h3 h4
  exact ⟨h1, h2, h3, h4, h5⟩

/-- Only the bookkeeping of the super block, `u_error`, the console or `rablock` changed. -/
theorem Grown.of_same {v v' : Vol} {ip : Inode} {L : List Daddr} (h : Mapped v ip L)
    (hfree : FreeList v' L) (hdisk : v'.disk = v.disk) (hisize : v'.sb.sIsize = v.sb.sIsize)
    (hfsize : v'.sb.sFsize = v.sb.sFsize) (s : Nat) (t : List Nat) :
    Grown v ip L v' ip L s t := by
  have ha : addrAt v' ip = addrAt v ip := by unfold addrAt; rw [hdisk]
  refine ⟨⟨hfree, ?_, ?_⟩, hisize, hfsize, ⟨[], rfl, by simp⟩, ?_, ?_, ?_, ?_, rfl, rfl, rfl⟩
  · rw [ha]
    exact h.sep
  · intro s' p hp hne
    rw [ha] at hne ⊢
    obtain ⟨hr, hm⟩ := h.busy s' p hp hne
    exact ⟨(inRange_congr hisize hfsize _).mpr hr, hm⟩
  · intro s' q _ _
    rw [ha]
  · intro s' q _ _
    rw [ha]
  · intro s' q _ _ _
    rw [hdisk]
  · intro s' q _ _ h0 hne
    rw [ha] at hne
    exact absurd h0 hne

theorem Grown.of_same_disk {v : Vol} {ip : Inode} {L : List Daddr} (h : Mapped v ip L) (v' : Vol)
    (hsb : v'.sb = v.sb) (hdisk : v'.disk = v.disk) (s : Nat) (t : List Nat) :
    Grown v ip L v' ip L s t :=
  Grown.of_same h (h.free.congr hsb hdisk) hdisk (by rw [hsb]) (by rw [hsb]) s t

theorem Grown.trans {v v' v'' : Vol} {ip ip' ip'' : Inode} {L L' L'' : List Daddr} {s : Nat}
    {t : List Nat} (h : Grown v ip L v' ip' L' s t) (h' : Grown v' ip' L' v'' ip'' L'' s t) :
    Grown v ip L v'' ip'' L'' s t := by
  refine ⟨h'.mapped, h'.isize.trans h.isize, h'.fsize.trans h.fsize, ?_, ?_, ?_, ?_, ?_, ?_⟩
  · obtain ⟨T, hT, hin⟩ := h.taken
    obtain ⟨T', hT', hin'⟩ := h'.taken
    refine ⟨T ++ T', by rw [hT, hT', List.append_assoc], ?_⟩
    intro b hb
    rcases List.mem_append.mp hb with hb | hb
    · obtain ⟨hb0, q, hq, hqb⟩ := hin b hb
      exact ⟨hb0, q, hq, by rw [h'.keep s q hq (by rw [hqb]; exact hb0), hqb]⟩
    · exact hin' b hb
  · intro s' q hq hne
    have e := h.keep s' q hq hne
    rw [h'.keep s' q hq (by rw [e]; exact hne), e]
  · intro s' q hq hoff
    rw [h'.off s' q hq hoff, h.off s' q hq hoff]
  · intro s' q hq hlen hne
    have e := h.keep s' q hq hne
    have hd := h'.data s' q hq hlen (by rw [e]; exact hne)
    rw [e] at hd
    rw [hd, h.data s' q hq hlen hne]
  · intro s' q hq hlen h0 hne
    by_cases h1 : addrAt v' ip' s' q = 0
    · exact h'.fresh s' q hq hlen h1 hne
    · rw [h'.keep s' q hq h1, h'.data s' q hq hlen h1, h.fresh s' q hq hlen h0 h1]
  · obtain ⟨e1, e2, e3⟩ := h.fields
    obtain ⟨f1, f2, f3⟩ := h'.fields
    exact ⟨f1.trans e1, f2.trans e2, f3.trans e3⟩

/-- A fresh block at one empty path, the tree otherwise as before. Both ways `bmap` fills a
    slot come down to this. -/
theorem Grown.of_install {v v' : Vol} {ip ip' : Inode} {b : Daddr} {L : List Daddr} {s : Nat}
    {q t : List Nat} (h : Mapped v ip (b :: L)) (hq : OkPath s q) (hqt : q <:+ t)
    (hempty : addrAt v ip s q = 0) (hfree : FreeList v' L)
    (hisize : v'.sb.sIsize = v.sb.sIsize) (hfsize : v'.sb.sFsize = v.sb.sFsize)
    (hlook : ∀ s' p', OkPath s' p' →
      addrAt v' ip' s' p' = PtrTree.install (addrAt v ip) s q b s' p')
    (hzero : v'.disk b = Bytes.zero)
    (hdata : ∀ s' p', OkPath s' p' → p'.length = s' - 9 → addrAt v ip s' p' ≠ 0 →
      v'.disk (addrAt v ip s' p') = v.disk (addrAt v ip s' p'))
    (hfields : ip'.iSize = ip.iSize ∧ ip'.iType = ip.iType ∧ ip'.iLastr = ip.iLastr) :
    Grown v ip (b :: L) v' ip' L s t := by
  obtain ⟨hb, hb0, hbL, hnot⟩ := h.top
  have hself : addrAt v' ip' s q = b := by rw [hlook s q hq, PtrTree.install_self]
  have hother : ∀ s' p', OkPath s' p' → ¬ (s' = s ∧ p' = q) →
      addrAt v' ip' s' p' = addrAt v ip s' p' := by
    intro s' p' hp hne
    rw [hlook s' p' hp, PtrTree.install_ne _ _ hne]
  refine ⟨⟨hfree, ?_, ?_⟩, hisize, hfsize, ⟨[b], rfl, ?_⟩, ?_, ?_, hdata, ?_, hfields⟩
  · intro s1 p1 s2 p2 h1 h2 hne he
    rw [hlook s1 p1 h1, hlook s2 p2 h2] at he
    rw [hlook s1 p1 h1] at hne
    exact h.sep.install hnot s1 p1 s2 p2 h1 h2 hne he
  · intro s' p' hp hne
    by_cases hsq : s' = s ∧ p' = q
    · obtain ⟨rfl, rfl⟩ := hsq
      rw [hself]
      exact ⟨(inRange_congr hisize hfsize b).mpr hb, hbL⟩
    · rw [hother s' p' hp hsq] at hne ⊢
      obtain ⟨hr, hm⟩ := h.busy s' p' hp hne
      exact ⟨(inRange_congr hisize hfsize _).mpr hr, fun hin => hm (List.mem_cons_of_mem _ hin)⟩
  · intro c hc
    rw [List.mem_singleton.mp hc]
    exact ⟨hb0, q, hq, hself⟩
  · intro s' p' hp hne
    apply hother s' p' hp
    rintro ⟨rfl, rfl⟩
    exact hne hempty
  · intro s' p' hp hoff
    apply hother s' p' hp
    rintro ⟨rfl, rfl⟩
    exact hoff ⟨rfl, hqt⟩
  · intro s' p' hp _ h0 hne
    by_cases hsq : s' = s ∧ p' = q
    · obtain ⟨rfl, rfl⟩ := hsq
      rw [hself, hzero]
    · rw [hother s' p' hp hsq] at hne
      exact absurd h0 hne

/-! ## The parts of `bmap` -/

/-- The slot of the inode: filled on a write, unless the volume is full. -/
theorem inodeSlot_write {v : Vol} {ip : Inode} {L : List Daddr} (h : Mapped v ip L) {s : Nat}
    (hs : s < naddr) (t : List Nat) :
    ∃ r v' ip' L', inodeSlot v ip .bWrite s = (r, v', ip') ∧
      Grown v ip L v' ip' L' s t ∧ v'.rablock = v.rablock ∧
      ((∃ a, r = some a ∧ addrAt v' ip' s [] = a ∧ a ≠ 0 ∧ v'.uError = v.uError) ∨
        (r = none ∧ addrAt v' ip' s [] = 0 ∧ v'.uError = some .enospc)) := by
  have hget : addrAt v ip s [] = ip.iAddr.get s := rfl
  by_cases h0 : ip.iAddr.get s = 0
  · cases L with
    | nil =>
      obtain ⟨sb, he, hl, hi, hf⟩ := alloc_nil h.free
      refine ⟨none, _, ip, [], ?_, Grown.of_same h hl rfl hi hf s t, rfl,
        Or.inr ⟨rfl, hget.trans h0, rfl⟩⟩
      simp only [inodeSlot, h0, he, if_true]
      rfl
    | cons b L =>
      obtain ⟨sb, he, hl, hi, hf⟩ := alloc_cons h.free
      obtain ⟨_, hb0, hbL, hnot⟩ := h.top
      refine ⟨some b, Vol.bwrite { v with sb := sb } ⟨b, Bytes.zero⟩,
        { ip with iAddr := ip.iAddr.put s b, iFlag := ip.iFlag ||| (iupd ||| ichg) }, L,
        ?_, ?_, rfl, Or.inl ⟨b, rfl, Arr.get_put_self _ _ _ hs, hb0, rfl⟩⟩
      · simp only [inodeSlot, h0, he, if_true]
        rfl
      · refine Grown.of_install h (okPath_root hs) (List.nil_suffix) (hget.trans h0)
          (hl.bwrite _ hbL) hi hf ?_ (Function.update_self _ _ _) ?_ ⟨rfl, rfl, rfl⟩
        · refine PtrTree.lookup_install_root okPath_tail hb0 h0 hnot ?_ ?_ ?_
          · intro s'
            exact Arr.get_put _ _ _ _ hs
          · intro s' k p' _
            simp [Vol.bwrite]
          · intro c k hc
            simp [Vol.bwrite, hc]
        · intro s' p' hp _ _
          exact Function.update_of_ne (hnot s' p' hp) _ _
  · refine ⟨some (ip.iAddr.get s), v, ip, L, ?_, Grown.of_same h h.free rfl rfl rfl s t, rfl,
      Or.inl ⟨_, rfl, hget, h0, rfl⟩⟩
    simp only [inodeSlot, h0, if_false]

/-- Filling slot `i` of the indirect block at path `p`. -/
theorem grown_child {v : Vol} {ip : Inode} {b : Daddr} {L : List Daddr}
    (h : Mapped v ip (b :: L)) {s i : Nat} {p t : List Nat} (hp : OkPath s p) (hi : i < nindir)
    (hlen : p.length < s - 9) (hqt : (i :: p) <:+ t) (hnode : addrAt v ip s p ≠ 0)
    (hempty : addrAt v ip s (i :: p) = 0) {sb : Filsys}
    (hfree : FreeList { v with sb := sb } L) (hisize : sb.sIsize = v.sb.sIsize)
    (hfsize : sb.sFsize = v.sb.sFsize) :
    Grown v ip (b :: L)
      ((Vol.bwrite { v with sb := sb } ⟨b, Bytes.zero⟩).bwrite
        ⟨addrAt v ip s p, (v.disk (addrAt v ip s p)).putLong (4 * i) b⟩) ip L s t := by
  obtain ⟨_, hb0, hbL, hnot⟩ := h.top
  have hnL : addrAt v ip s p ∉ L := fun hm => (h.busy s p hp hnode).2 (List.mem_cons_of_mem _ hm)
  unfold nindir at hi
  refine Grown.of_install h (okPath_cons hp hi hlen) hqt hempty ((hfree.bwrite _ hbL).bwrite _ hnL)
    hisize hfsize ?_ ?_ ?_ ⟨rfl, rfl, rfl⟩
  · refine PtrTree.lookup_install_child okPath_tail h.sep hb0 hp hnode hempty hnot
      (fun _ => rfl) ?_ ?_
    · intro s' k p' _
      dsimp only [Vol.bwrite]
      rw [Function.update_of_ne (hnot s p hp).symm, Function.update_self]
      simp
    · intro c s' k p' hc hok
      have hk : k < 128 := hok.2.2 k (by simp)
      dsimp only [Vol.bwrite]
      by_cases hcn : c = addrAt v ip s p
      · rw [hcn, Function.update_self]
        by_cases hki : k = i
        · rw [hki, if_pos ⟨rfl, rfl⟩, Bytes.getLong_putLong_self _ _ _ (by omega)]
        · rw [if_neg (fun hh => hki hh.2), Bytes.getLong_putLong_ne _ _ (by omega)]
      · rw [Function.update_of_ne hcn, Function.update_of_ne hc, if_neg (fun hh => hcn hh.1)]
  · dsimp only [Vol.bwrite]
    rw [Function.update_of_ne (hnot s p hp).symm, Function.update_self]
  · intro s' p' hp' hlen' hne
    dsimp only [Vol.bwrite]
    have hcn : addrAt v ip s' p' ≠ addrAt v ip s p := by
      intro he
      obtain ⟨rfl, rfl⟩ := h.sep s' p' s p hp' hp hne he
      omega
    rw [Function.update_of_ne hcn, Function.update_of_ne (hnot s' p' hp')]

/-- The walk on a write: it reaches its target, or stops for want of space. -/
theorem indirLoop_write (bn : Nat) {ip : Inode} {s : Nat} (k : Nat) {v : Vol} {L : List Daddr}
    {p : List Nat} (h : Mapped v ip L) (hp : OkPath s p) (hlen : p.length + k = s - 9)
    (hne : addrAt v ip s p ≠ 0) (last : Nat × Block) :
    ∃ r v' L', indirLoop .bWrite bn k (nshift * k) (addrAt v ip s p) last v = (r, v') ∧
      Grown v ip L v' ip L' s (pathIdx bn k ++ p) ∧
      ((∃ last', r = some (addrAt v' ip s (pathIdx bn k ++ p), last') ∧
          addrAt v' ip s (pathIdx bn k ++ p) ≠ 0 ∧ v'.uError = v.uError) ∨
        (r = none ∧ addrAt v' ip s (pathIdx bn k ++ p) = 0 ∧ v'.uError = some .enospc)) := by
  induction k generalizing v L p last with
  | zero =>
    exact ⟨_, v, L, rfl, Grown.of_same h h.free rfl rfl rfl _ _, Or.inl ⟨last, rfl, hne, rfl⟩⟩
  | succ k ih =>
    have hsh : nshift * (k + 1) - nshift = nshift * k := by unfold nshift; omega
    have htgt : pathIdx bn (k + 1) ++ p =
        pathIdx bn k ++ ((bn >>> (nshift * k)) &&& nmask) :: p := by
      rw [pathIdx_succ, List.append_assoc]
      rfl
    rw [htgt]
    -- the slot of this level
    obtain ⟨i, hidef⟩ : ∃ i, i = (bn >>> (nshift * k)) &&& nmask := ⟨_, rfl⟩
    have hi : i < nindir := hidef ▸ and_nmask_lt _
    have hslot : addrAt v ip s (i :: p) = (v.disk (addrAt v ip s p)).getLong (4 * i) :=
      addrAt_cons i hne
    rw [← hidef, indirLoop]
    simp only [hsh, ← hidef, ← hslot]
    by_cases h0 : addrAt v ip s (i :: p) = 0
    · cases L with
      | nil =>
        obtain ⟨sb, he, hl, hi', hf⟩ := alloc_nil h.free
        refine ⟨none, _, [], ?_, Grown.of_same h hl rfl hi' hf _ _, Or.inr ⟨rfl, ?_, rfl⟩⟩
        · simp only [h0, he, if_true]
          rfl
        · exact PtrTree.lookup_append_eq_zero _ h0
      | cons b L =>
        obtain ⟨sb, he, hl, hi', hf⟩ := alloc_cons h.free
        have hg := grown_child h hp hi (by omega) (List.suffix_append (pathIdx bn k) (i :: p))
          hne h0 hl hi' hf
        set v3 := (Vol.bwrite { v with sb := sb } ⟨b, Bytes.zero⟩).bwrite
          ⟨addrAt v ip s p, (v.disk (addrAt v ip s p)).putLong (4 * i) b⟩ with hv3
        have hpar : addrAt v3 ip s p = addrAt v ip s p := hg.keep s p hp hne
        have hb : addrAt v3 ip s (i :: p) = b := by
          unfold nindir at hi
          rw [addrAt_cons i (by rw [hpar]; exact hne), hpar, hv3]
          dsimp only [Vol.bwrite]
          rw [Function.update_self, Bytes.getLong_putLong_self _ _ _ (by omega)]
        obtain ⟨_, hb0, _, _⟩ := h.top
        obtain ⟨r, v', L', hr, hg', hres⟩ := ih hg.mapped (okPath_cons hp hi (by omega))
          (by simp only [List.length_cons]; omega) (by rw [hb]; exact hb0)
          (i, (v.disk (addrAt v ip s p)).putLong (4 * i) b)
        refine ⟨r, v', L', ?_, hg.trans hg', hres⟩
        simp only [h0, he, if_true]
        rw [hb] at hr
        exact hr
    · obtain ⟨r, v', L', hr, hg, hres⟩ := ih h (okPath_cons hp hi (by omega))
        (by simp only [List.length_cons]; omega) h0 (i, v.disk (addrAt v ip s p))
      refine ⟨r, v', L', ?_, hg, hres⟩
      rw [if_neg h0]
      exact hr

/-- The walk on a read: it finds what is at its target and changes nothing. -/
theorem indirLoop_read (bn : Nat) {v : Vol} {ip : Inode} {s : Nat} (k : Nat) {p : List Nat}
    (hne : addrAt v ip s p ≠ 0) (last : Nat × Block) :
    (addrAt v ip s (pathIdx bn k ++ p) = 0 ∧
        indirLoop .bRead bn k (nshift * k) (addrAt v ip s p) last v = (none, v)) ∨
      (addrAt v ip s (pathIdx bn k ++ p) ≠ 0 ∧
        ∃ last', indirLoop .bRead bn k (nshift * k) (addrAt v ip s p) last v =
          (some (addrAt v ip s (pathIdx bn k ++ p), last'), v)) := by
  induction k generalizing p last with
  | zero => exact Or.inr ⟨hne, last, rfl⟩
  | succ k ih =>
    have hsh : nshift * (k + 1) - nshift = nshift * k := by unfold nshift; omega
    have htgt : pathIdx bn (k + 1) ++ p =
        pathIdx bn k ++ ((bn >>> (nshift * k)) &&& nmask) :: p := by
      rw [pathIdx_succ, List.append_assoc]
      rfl
    rw [htgt, indirLoop]
    simp only [hsh, ← addrAt_cons _ hne]
    by_cases h0 : addrAt v ip s (((bn >>> (nshift * k)) &&& nmask) :: p) = 0
    · exact Or.inl ⟨PtrTree.lookup_append_eq_zero _ h0, by simp only [h0, if_true]⟩
    · simp only [h0, if_false]
      exact ih h0 _

theorem levelLoop_hit {j sh nb bn : Nat} (h : bn < nb * 128) :
    levelLoop (j + 1) sh nb bn = (j + 1, sh + nshift, bn) := by
  have : bn < nb <<< nshift := by rw [Nat.shiftLeft_eq]; exact h
  rw [levelLoop, if_pos this]

theorem levelLoop_miss {j sh nb bn : Nat} (h : nb * 128 ≤ bn) :
    levelLoop (j + 1) sh nb bn = levelLoop j (sh + nshift) (nb * 128) (bn - nb * 128) := by
  have e : nb <<< nshift = nb * 128 := Nat.shiftLeft_eq _ _
  rw [levelLoop, e, if_neg (by omega)]

/-- The search stops at the level of the block. -/
theorem levelLoop_level (bn k : Nat) (h1 : 1 ≤ k) (h3 : k ≤ 3) (hb : levelBase k ≤ bn)
    (hl : bn - levelBase k < 128 ^ k) :
    levelLoop 3 0 1 (bn - (naddr - 3)) = (4 - k, nshift * k, bn - levelBase k) := by
  have e1 : levelBase 1 = 10 := rfl
  have e2 : levelBase 2 = 138 := rfl
  have e3 : levelBase 3 = 16522 := rfl
  unfold naddr
  obtain rfl | rfl | rfl : k = 1 ∨ k = 2 ∨ k = 3 := by omega
  · rw [e1] at hb hl ⊢
    rw [levelLoop_hit (by omega)]
    rfl
  · rw [e2] at hb hl ⊢
    have l1 : levelLoop 3 0 1 (bn - 10) = levelLoop 2 7 128 (bn - 10 - 128) :=
      levelLoop_miss (by omega)
    have l2 : levelLoop 2 7 128 (bn - 10 - 128) = (2, 14, bn - 10 - 128) :=
      levelLoop_hit (by omega)
    rw [l1, l2, show bn - 10 - 128 = bn - 138 by omega]
    rfl
  · rw [e3] at hb hl ⊢
    have e128 : (128 : Nat) ^ 3 = 2097152 := by norm_num
    rw [e128] at hl
    have l1 : levelLoop 3 0 1 (bn - 10) = levelLoop 2 7 128 (bn - 10 - 128) :=
      levelLoop_miss (by omega)
    have l2 : levelLoop 2 7 128 (bn - 10 - 128) = levelLoop 1 14 16384 (bn - 10 - 128 - 16384) :=
      levelLoop_miss (by omega)
    have l3 : levelLoop 1 14 16384 (bn - 16522) = (1, 21, bn - 16522) := levelLoop_hit hl
    rw [l1, l2, Nat.sub_sub, Nat.sub_sub, l3]
    rfl

/-! ## `bmap` -/

/-- The block of logical block `bn`, or 0 where there is none. -/
def blockOf (v : Vol) (ip : Inode) (bn : Nat) : Daddr :=
  addrAt v ip (bmapPath bn).1 (bmapPath bn).2

theorem blockOf_direct {v : Vol} {ip : Inode} {bn : Nat} (he : bmapPath bn = (bn, [])) :
    blockOf v ip bn = addrAt v ip bn [] := by
  rw [blockOf, he]

theorem blockOf_indirect {v : Vol} {ip : Inode} {bn k : Nat}
    (he : bmapPath bn = (9 + k, pathIdx (bn - levelBase k) k)) :
    blockOf v ip bn = addrAt v ip (9 + k) (pathIdx (bn - levelBase k) k ++ []) := by
  rw [blockOf, he, List.append_nil]

/-- `bmap` on an indirect block, after the search for its level. -/
theorem bmap_indirect (v : Vol) (ip : Inode) (rw : Rwflg) {bn k : Nat} (h1 : 1 ≤ k) (h3 : k ≤ 3)
    (hb : levelBase k ≤ bn) (hl : bn - levelBase k < 128 ^ k) :
    bmap v ip bn rw =
      match inodeSlot { v with rablock := 0 } ip rw (9 + k) with
      | (none, v, ip) => (-1, v, ip)
      | (some nb, v, ip) =>
        match indirLoop rw (bn - levelBase k) k (nshift * k) nb (0, Bytes.zero) v with
        | (none, v) => (-1, v, ip)
        | (some (nb, i, bap), v) =>
          (nb, if i < nindir - 1 then { v with rablock := bap.getLong (4 * (i + 1)) } else v,
            ip) := by
  have hneg : ¬ ((bn : Int) < 0) := by omega
  have h10 : 10 ≤ bn := by
    refine Nat.le_trans ?_ hb
    obtain rfl | rfl | rfl : k = 1 ∨ k = 2 ∨ k = 3 := by omega
    all_goals simp only [levelBase]; omega
  have hdir : ¬ (bn < naddr - 3) := by unfold naddr; omega
  unfold bmap
  simp only [hneg, hdir, Int.toNat_natCast, if_false]
  rw [levelLoop_level bn k h1 h3 hb hl]
  generalize bn - levelBase k = m
  obtain rfl | rfl | rfl : k = 1 ∨ k = 2 ∨ k = 3 := by omega
  all_goals rfl

/-- `bmap` on a direct block. -/
theorem bmap_direct (v : Vol) (ip : Inode) (rw : Rwflg) {bn : Nat} (h : bn < 10) :
    bmap v ip bn rw =
      match inodeSlot { v with rablock := 0 } ip rw bn with
      | (none, v, ip) => (-1, v, ip)
      | (some nb, v, ip) =>
        (nb, if bn < naddr - 4 then { v with rablock := ip.iAddr.get (bn + 1) } else v, ip) := by
  have hneg : ¬ ((bn : Int) < 0) := by omega
  have hdir : bn < naddr - 3 := h
  exact (if_neg hneg).trans (if_pos hdir)

/-- A read finds the block, or returns `-1`, and changes nothing but `rablock`. -/
theorem bmap_read (v : Vol) (ip : Inode) {bn : Nat} (hbn : bn < maxBn) :
    ∃ r, bmap v ip bn .bRead =
      (if blockOf v ip bn = 0 then -1 else blockOf v ip bn, { v with rablock := r }, ip) := by
  rcases bmapPath_cases hbn with ⟨h0, he⟩ | ⟨k, h1, h3, hb, hl, he⟩
  · rw [bmap_direct v ip _ h0, blockOf_direct he, show addrAt v ip bn [] = ip.iAddr.get bn from rfl]
    by_cases hz : ip.iAddr.get bn = 0
    · exact ⟨0, by simp only [inodeSlot, hz, if_true]⟩
    · simp only [inodeSlot, hz, if_false]
      split
      · exact ⟨_, rfl⟩
      · exact ⟨0, rfl⟩
  · rw [bmap_indirect v ip _ h1 h3 hb hl, blockOf_indirect he]
    have hroot : addrAt v ip (9 + k) [] = ip.iAddr.get (9 + k) := rfl
    by_cases hz : ip.iAddr.get (9 + k) = 0
    · have : addrAt v ip (9 + k) (pathIdx (bn - levelBase k) k ++ []) = 0 :=
        PtrTree.lookup_append_eq_zero _ hz
      exact ⟨0, by simp only [inodeSlot, hz, this, if_true]⟩
    · simp only [inodeSlot, hz, if_false]
      have hne : addrAt { v with rablock := 0 } ip (9 + k) [] ≠ 0 := hz
      rcases indirLoop_read (bn - levelBase k) k hne (0, Bytes.zero) with
        ⟨hz', hl'⟩ | ⟨hz', ⟨i, bap⟩, hl'⟩
      · exact ⟨0, by
          rw [show addrAt { v with rablock := 0 } ip (9 + k) [] = ip.iAddr.get (9 + k) from rfl] at hl'
          rw [hl', if_pos (show addrAt v ip (9 + k) _ = 0 from hz')]⟩
      · rw [show addrAt { v with rablock := 0 } ip (9 + k) [] = ip.iAddr.get (9 + k) from rfl] at hl'
        rw [hl', if_neg (show addrAt v ip (9 + k) _ ≠ 0 from hz')]
        dsimp only
        split
        · exact ⟨_, rfl⟩
        · exact ⟨0, rfl⟩

/-- A write finds the block or adds it, or fails with `ENOSPC`. -/
theorem bmap_write {v : Vol} {ip : Inode} {L : List Daddr} (h : Mapped v ip L) {bn : Nat}
    (hbn : bn < maxBn) :
    ∃ a v' ip' L', bmap v ip bn .bWrite = (a, v', ip') ∧
      Grown v ip L v' ip' L' (bmapPath bn).1 (bmapPath bn).2 ∧
      ((a = blockOf v' ip' bn ∧ a ≠ 0 ∧ v'.uError = v.uError) ∨
        (a = -1 ∧ blockOf v' ip' bn = 0 ∧ v'.uError = some .enospc)) := by
  have h0 : Grown v ip L { v with rablock := 0 } ip L (bmapPath bn).1 (bmapPath bn).2 :=
    Grown.of_same_disk h { v with rablock := 0 } rfl rfl _ _
  rcases bmapPath_cases hbn with ⟨hd, he⟩ | ⟨k, h1, h3, hb, hl, he⟩
  · rw [he] at h0 ⊢
    obtain ⟨r, v', ip', L', hr, hg, _, hres⟩ :=
      inodeSlot_write h0.mapped (s := bn) (by unfold naddr; omega) []
    rw [bmap_direct v ip _ hd, hr]
    rcases hres with ⟨a, rfl, ha, hne, hu⟩ | ⟨rfl, hz, hu⟩
    · refine ⟨a, _, ip', L', rfl, (h0.trans hg).trans ?_, Or.inl ⟨?_, hne, ?_⟩⟩
      · refine Grown.of_same_disk hg.mapped _ ?_ ?_ _ _ <;> split <;> rfl
      · rw [blockOf_direct he]
        split
        · exact ha.symm
        · exact ha.symm
      · split
        · exact hu
        · exact hu
    · exact ⟨-1, v', ip', L', rfl, h0.trans hg,
        Or.inr ⟨rfl, by rw [blockOf_direct he]; exact hz, hu⟩⟩
  · rw [he] at h0 ⊢
    have hs : 9 + k < naddr := by unfold naddr; omega
    obtain ⟨r, v', ip', L', hr, hg, _, hres⟩ :=
      inodeSlot_write h0.mapped hs (pathIdx (bn - levelBase k) k)
    rw [bmap_indirect v ip _ h1 h3 hb hl, hr]
    rcases hres with ⟨a, rfl, ha, hne, hu⟩ | ⟨rfl, hz, hu⟩
    · obtain ⟨r, v'', L'', hr', hg', hres'⟩ := indirLoop_write (bn - levelBase k) k hg.mapped
        (okPath_root hs) (by simp) (by rw [ha]; exact hne) (0, Bytes.zero)
      rw [ha] at hr'
      rw [List.append_nil] at hg' hres'
      dsimp only
      rw [hr']
      have hblk : ∀ w : Vol, blockOf w ip' bn =
          addrAt w ip' (9 + k) (pathIdx (bn - levelBase k) k) := by
        intro w
        rw [blockOf, he]
      rcases hres' with ⟨⟨i, bap⟩, rfl, hne', hu'⟩ | ⟨rfl, hz', hu'⟩
      · refine ⟨_, _, ip', L'', rfl, ((h0.trans hg).trans hg').trans ?_, Or.inl ⟨?_, hne', ?_⟩⟩
        · refine Grown.of_same_disk hg'.mapped _ ?_ ?_ _ _ <;> split <;> rfl
        · rw [hblk]
          split
          · rfl
          · rfl
        · split
          · exact hu'.trans hu
          · exact hu'.trans hu
      · exact ⟨-1, v'', ip', L'', rfl, (h0.trans hg).trans hg',
          Or.inr ⟨rfl, by rw [hblk]; exact hz', hu'⟩⟩
    · refine ⟨-1, v', ip', L', rfl, h0.trans hg, Or.inr ⟨rfl, ?_, hu⟩⟩
      rw [blockOf_indirect he]
      exact PtrTree.lookup_append_eq_zero _ hz

/-- Outside the addressable range `bmap` only reports `EFBIG`. -/
theorem bmap_efbig (v : Vol) (ip : Inode) {bn : Int} (rw : Rwflg) (hbn : bn < 0 ∨ maxBn ≤ bn) :
    ∃ r, bmap v ip bn rw = (0, { v with uError := some .efbig, rablock := r }, ip) := by
  by_cases hneg : bn < 0
  · exact ⟨v.rablock, by unfold bmap; rw [if_pos hneg]⟩
  refine ⟨0, ?_⟩
  obtain ⟨m, rfl⟩ : ∃ m : Nat, bn = (16522 + 2097152 + m : Nat) := by
    refine ⟨(bn - (16522 + 2097152)).toNat, ?_⟩
    have : (maxBn : Int) = 16522 + 2097152 := by unfold maxBn; norm_num
    omega
  have hdir : ¬ (16522 + 2097152 + m < naddr - 3) := by unfold naddr; omega
  have l1 : levelLoop 3 0 1 (16522 + 2097152 + m - (naddr - 3)) =
      levelLoop 2 7 128 (16522 + 2097152 + m - (naddr - 3) - 128) :=
    levelLoop_miss (by unfold naddr; omega)
  have e2 : 16522 + 2097152 + m - (naddr - 3) - 128 = 16384 + 2097152 + m := by
    unfold naddr; omega
  have l2 : levelLoop 2 7 128 (16384 + 2097152 + m) = levelLoop 1 14 16384 (2097152 + m) := by
    rw [levelLoop_miss (by omega), show 16384 + 2097152 + m - 128 * 128 = 2097152 + m by omega]
    rfl
  have l3 : levelLoop 1 14 16384 (2097152 + m) = (0, 21, m) := by
    rw [levelLoop_miss (by omega), show 2097152 + m - 16384 * 128 = m by omega]
    rfl
  unfold bmap
  simp only [hneg, hdir, Int.toNat_natCast, if_false]
  rw [l1, e2, l2, l3]
  rfl

end Venix.Fs
