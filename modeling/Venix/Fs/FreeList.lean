/-
  The free list is a stack.

  `Chain` reads the free blocks off the super block cache and the chained link blocks, most
  recently freed first; a link block is on the list it links, so nothing an allocated block
  holds is part of the list. `FreeList v L` is the well-formed free list: `L` is what the
  chain holds, without repetition and within the volume. `alloc` pops `L` and `free` pushes
  onto it (`alloc_nil`, `alloc_cons`, `free_cons`), also when the cache spills or reloads.
-/
import Venix.Lib.Run
import Venix.Fs.Alloc

namespace Venix.Fs

open Venix.Lib

/-! ## The blocks on the list -/

/-- Entries `n - 1` down to 1 of a cache. -/
def cached (free : Arr Daddr nicfree) : Nat → List Daddr
  | 0 => []
  | 1 => []
  | n + 2 => free.get (n + 1) :: cached free (n + 1)

/-- `Chain disk n free L`: a cache of `n` entries `free`, with the link blocks behind it,
    holds the blocks `L`. -/
inductive Chain (disk : Daddr → Block) : Int → Arr Daddr nicfree → List Daddr → Prop
  | last {n : Int} {free : Arr Daddr nicfree} (h1 : 1 ≤ n) (h50 : n ≤ nicfree)
      (hend : free.get 0 = 0) : Chain disk n free (cached free n.toNat)
  | link {n : Int} {free : Arr Daddr nicfree} {L : List Daddr} (h1 : 1 ≤ n) (h50 : n ≤ nicfree)
      (hlink : free.get 0 ≠ 0)
      (hrest : Chain disk (dfNfree (disk (free.get 0))) (dfFree (disk (free.get 0))) L) :
      Chain disk n free (cached free n.toNat ++ free.get 0 :: L)

/-- A well-formed free list holding the blocks `L`, most recently freed first. -/
structure FreeList (v : Vol) (L : List Daddr) : Prop where
  chain : (v.sb.sNfree ≤ 0 ∧ L = []) ∨ Chain v.disk v.sb.sNfree v.sb.sFree L
  ninode : v.sb.sNinode ≤ nicinod
  isize : 0 < v.sb.sIsize.toNat
  valid : ∀ b ∈ L, InRange v.sb b
  nodup : L.Nodup

theorem Chain.bounds {disk : Daddr → Block} {n : Int} {free : Arr Daddr nicfree}
    {L : List Daddr} (h : Chain disk n free L) : 1 ≤ n ∧ n ≤ nicfree := by
  cases h with
  | last h1 h50 _ => exact ⟨h1, h50⟩
  | link h1 h50 _ _ => exact ⟨h1, h50⟩

/-- Only the blocks on the list matter. -/
theorem Chain.congr_disk {disk disk' : Daddr → Block} {n : Int} {free : Arr Daddr nicfree}
    {L : List Daddr} (h : Chain disk n free L) (heq : ∀ b ∈ L, disk' b = disk b) :
    Chain disk' n free L := by
  induction h with
  | last h1 h50 hend => exact .last h1 h50 hend
  | @link n free L h1 h50 hlink _ ih =>
    refine .link h1 h50 hlink ?_
    rw [heq (free.get 0) (by simp)]
    exact ih fun b hb => heq b (by simp [hb])

theorem cached_put (free : Arr Daddr nicfree) {k n : Nat} (v : Daddr) (h : n ≤ k) :
    cached (free.put k v) n = cached free n := by
  induction n using cached.induct with
  | case1 => rfl
  | case2 => rfl
  | case3 n ih =>
    rw [cached, cached, ih (by omega), Arr.get_put_ne _ _ (by omega)]

/-- Entries past the count do not matter. -/
theorem Chain.put {disk : Daddr → Block} {n : Int} {free : Arr Daddr nicfree} {L : List Daddr}
    (h : Chain disk n free L) {k : Nat} (v : Daddr) (hk : n ≤ k) :
    Chain disk n (free.put k v) L := by
  have hn := h.bounds
  have h0 : (free.put k v).get 0 = free.get 0 := Arr.get_put_ne _ _ (by omega)
  cases h with
  | last h1 h50 hend =>
    rw [← cached_put free v (show n.toNat ≤ k by omega)]
    exact .last h1 h50 (by rw [h0, hend])
  | link h1 h50 hlink hrest =>
    rw [← cached_put free v (show n.toNat ≤ k by omega), ← h0]
    rw [← h0] at hlink hrest
    exact .link h1 h50 hlink hrest

/-- A cache of one more entry holds that entry on top. -/
theorem Chain.push {disk : Daddr → Block} {n : Int} {free : Arr Daddr nicfree} {L : List Daddr}
    (h : Chain disk n free L) (hn : n < nicfree) :
    Chain disk (n + 1) free (free.get n.toNat :: L) := by
  have hb := h.bounds
  have hc : cached free (n + 1).toNat = free.get n.toNat :: cached free n.toNat := by
    obtain ⟨k, rfl⟩ : ∃ k : Nat, n = (k : Int) + 1 := ⟨(n - 1).toNat, by omega⟩
    have h1 : ((k : Int) + 1 + 1).toNat = k + 2 := by omega
    have h2 : ((k : Int) + 1).toNat = k + 1 := by omega
    rw [h1, h2, cached]
  cases h with
  | last h1 h50 hend =>
    rw [← hc]
    exact .last (by omega) (by omega) hend
  | link h1 h50 hlink hrest =>
    rw [← List.cons_append, ← hc]
    exact .link (by omega) (by omega) hlink hrest

/-- What a non-empty cache of two or more entries holds, less its top. -/
theorem Chain.pop {disk : Daddr → Block} {n : Int} {free : Arr Daddr nicfree} {L : List Daddr}
    (h : Chain disk n free L) (hn : 2 ≤ n) :
    ∃ L', L = free.get (n - 1).toNat :: L' ∧ Chain disk (n - 1) free L' := by
  have hc : cached free n.toNat = free.get (n - 1).toNat :: cached free (n - 1).toNat := by
    obtain ⟨k, rfl⟩ : ∃ k : Nat, n = (k : Int) + 2 := ⟨(n - 2).toNat, by omega⟩
    have h1 : ((k : Int) + 2).toNat = k + 2 := by omega
    have h2 : ((k : Int) + 2 - 1).toNat = k + 1 := by omega
    rw [h1, h2, cached]
  cases h with
  | last h1 h50 hend =>
    exact ⟨cached free (n - 1).toNat, hc, .last (by omega) (by omega) hend⟩
  | @link _ _ L h1 h50 hlink hrest =>
    refine ⟨cached free (n - 1).toNat ++ free.get 0 :: L, ?_,
      .link (by omega) (by omega) hlink hrest⟩
    rw [hc, List.cons_append]

/-- A cache of one entry holds nothing, or its entry is a link block with the rest. -/
theorem Chain.one {disk : Daddr → Block} {free : Arr Daddr nicfree} {L : List Daddr}
    (h : Chain disk 1 free L) :
    (free.get 0 = 0 ∧ L = []) ∨
      ∃ L', L = free.get 0 :: L' ∧
        Chain disk (dfNfree (disk (free.get 0))) (dfFree (disk (free.get 0))) L' := by
  cases h with
  | last _ _ hend => exact Or.inl ⟨hend, rfl⟩
  | link _ _ _ hrest => exact Or.inr ⟨_, rfl, hrest⟩

/-! ## `alloc` pops and `free` pushes -/

theorem InRange.ne_zero {sb : Filsys} {b : Daddr} (h : InRange sb b) (hi : 0 < sb.sIsize.toNat) :
    b ≠ 0 := by
  rintro rfl
  have := h.1
  simp at this
  omega

theorem FreeList.nfree_le {v : Vol} {L : List Daddr} (h : FreeList v L) :
    v.sb.sNfree ≤ nicfree := by
  rcases h.chain with ⟨h0, _⟩ | hc
  · unfold nicfree; omega
  · exact hc.bounds.2

theorem FreeList.getfs_eq {v : Vol} {L : List Daddr} (h : FreeList v L) : getfs v = v := by
  have h1 := h.nfree_le
  have h2 := h.ninode
  unfold getfs
  rw [if_neg (by omega)]

theorem badblock_of_inRange {v : Vol} {b : Daddr} (h : InRange v.sb b) :
    badblock v b = (false, v) := by
  obtain ⟨h1, h2⟩ := h
  unfold badblock
  rw [if_neg (by omega)]

/-- One round of the loop takes the top entry, when it is a block of the volume. -/
theorem allocLoop_top (v : Vol) (k : Nat) (h1 : 1 ≤ v.sb.sNfree) (h50 : v.sb.sNfree ≤ nicfree)
    (h0 : v.sb.sFree.get (v.sb.sNfree - 1).toNat ≠ 0)
    (hr : InRange v.sb (v.sb.sFree.get (v.sb.sNfree - 1).toNat)) :
    allocLoop (k + 1) v = (some (v.sb.sFree.get (v.sb.sNfree - 1).toNat),
      { v with sb := { v.sb with sNfree := v.sb.sNfree - 1 } }) := by
  have hbad : badblock { v with sb := { v.sb with sNfree := v.sb.sNfree - 1 } }
      (v.sb.sFree.get (v.sb.sNfree - 1).toNat) = (false, _) := badblock_of_inRange hr
  rw [allocLoop_succ, if_neg (by omega), if_neg (by omega)]
  dsimp only at hbad ⊢
  rw [if_neg h0, hbad]

/-- The loop stops with nothing when the cache is at the end of the list. -/
theorem allocLoop_end (v : Vol) (k : Nat)
    (h : v.sb.sNfree ≤ 0 ∨ (v.sb.sNfree = 1 ∧ v.sb.sFree.get 0 = 0)) :
    ∃ n, allocLoop (k + 1) v = (none, { v with sb := { v.sb with sNfree := n } }) := by
  rcases h with h | ⟨h1, h0⟩
  · exact ⟨v.sb.sNfree, by rw [allocLoop_succ, if_pos h]⟩
  · refine ⟨0, ?_⟩
    rw [allocLoop_succ, if_neg (by omega), if_neg (by unfold nicfree; omega)]
    simp [h1, h0]

/-- More rounds than `nicfree + 1` change nothing. -/
theorem allocLoop_fuel (j k : Nat) (v : Vol) (hj : v.sb.sNfree ≤ nicfree → v.sb.sNfree < j)
    (hk : v.sb.sNfree ≤ nicfree → v.sb.sNfree < k) (hj0 : 0 < j) (hk0 : 0 < k) :
    allocLoop j v = allocLoop k v := by
  induction j generalizing k v with
  | zero => omega
  | succ j ih =>
    obtain ⟨k, rfl⟩ : ∃ k', k = k' + 1 := ⟨k - 1, by omega⟩
    rw [allocLoop_succ, allocLoop_succ]
    by_cases h0 : v.sb.sNfree ≤ 0
    · rw [if_pos h0, if_pos h0]
    rw [if_neg h0, if_neg h0]
    by_cases h50 : v.sb.sNfree > nicfree
    · rw [if_pos h50, if_pos h50]
    have hj' := hj (by omega)
    have hk' := hk (by omega)
    rw [if_neg h50, if_neg h50]
    dsimp only [badblock, Vol.prdev]
    split
    · rfl
    split
    · next hbad =>
      split at hbad
      · cases hbad
        exact ih k _ (by dsimp only; omega) (by dsimp only; omega) (by omega) (by omega)
      · simp at hbad
    · rfl

theorem alloc_nil {v : Vol} (h : FreeList v []) :
    ∃ sb, alloc v = (none, { v with
        sb := sb, uError := some .enospc, console := "no space" :: v.console }) ∧
      FreeList { v with sb := sb, uError := some .enospc, console := "no space" :: v.console } [] ∧
      sb.sIsize = v.sb.sIsize ∧ sb.sFsize = v.sb.sFsize := by
  have hend : v.sb.sNfree ≤ 0 ∨ (v.sb.sNfree = 1 ∧ v.sb.sFree.get 0 = 0) := by
    rcases h.chain with ⟨h0, _⟩ | hc
    · exact Or.inl h0
    · right
      by_cases h2 : 2 ≤ v.sb.sNfree
      · obtain ⟨L', hL, _⟩ := hc.pop h2
        simp at hL
      · have h1 : v.sb.sNfree = 1 := by have := hc.bounds; omega
        rw [h1] at hc
        rcases hc.one with ⟨h0, _⟩ | ⟨L', hL, _⟩
        · exact ⟨h1, h0⟩
        · simp at hL
  obtain ⟨n, hn⟩ := allocLoop_end v nicfree hend
  refine ⟨{ v.sb with sNfree := 0 }, ?_, ?_, rfl, rfl⟩
  · unfold alloc
    rw [h.getfs_eq, hn]
    rfl
  · exact ⟨Or.inl ⟨Int.le_refl 0, rfl⟩, h.ninode, h.isize, by simp, List.nodup_nil⟩

theorem alloc_cons {v : Vol} {b : Daddr} {L : List Daddr} (h : FreeList v (b :: L)) :
    ∃ sb, alloc v = (some ⟨b, Bytes.zero⟩, { v with sb := sb }) ∧
      FreeList { v with sb := sb } L ∧ sb.sIsize = v.sb.sIsize ∧ sb.sFsize = v.sb.sFsize := by
  have hb : InRange v.sb b := h.valid b (by simp)
  have hb0 : b ≠ 0 := hb.ne_zero h.isize
  have hc : Chain v.disk v.sb.sNfree v.sb.sFree (b :: L) := by
    rcases h.chain with ⟨_, hL⟩ | hc
    · simp at hL
    · exact hc
  have hn := hc.bounds
  have hrest : ∀ c ∈ L, InRange v.sb c := fun c hcL => h.valid c (by simp [hcL])
  have hnd := (List.nodup_cons.mp h.nodup).2
  by_cases h2 : 2 ≤ v.sb.sNfree
  · -- the top entry of the cache, with more below it
    obtain ⟨L', hL, hpop⟩ := hc.pop h2
    simp only [List.cons.injEq] at hL
    obtain ⟨rfl, rfl⟩ := hL
    refine ⟨{ v.sb with sNfree := v.sb.sNfree - 1, sFmod := true }, ?_, ?_, rfl, rfl⟩
    · unfold alloc
      rw [h.getfs_eq, allocLoop_top v nicfree hn.1 hn.2 hb0 hb]
      dsimp only
      rw [if_neg (by omega)]
    · exact ⟨Or.inr hpop, h.ninode, h.isize, hrest, hnd⟩
  · -- the last entry: a link block, whose contents become the cache
    have h1 : v.sb.sNfree = 1 := by omega
    rw [h1] at hc
    rcases hc.one with ⟨_, hL⟩ | ⟨L', hL, hlink⟩
    · simp at hL
    · simp only [List.cons.injEq] at hL
      obtain ⟨rfl, rfl⟩ := hL
      have htop := allocLoop_top v nicfree hn.1 hn.2 (by rw [h1]; exact hb0) (by rw [h1]; exact hb)
      refine ⟨{ v.sb with
        sNfree := dfNfree (v.disk (v.sb.sFree.get 0))
        sFree := dfFree (v.disk (v.sb.sFree.get 0))
        sFmod := true }, ?_, ?_, rfl, rfl⟩
      · unfold alloc
        rw [h.getfs_eq, htop]
        have := hlink.bounds
        simp only [h1, Int.sub_self, Int.le_refl, if_true, Int.toNat_zero]
        rw [if_neg (by omega)]
      · exact ⟨Or.inr hlink, h.ninode, h.isize, hrest, hnd⟩

/-- `free` into a cache that is neither empty nor full. -/
theorem free_push {v : Vol} {b : Daddr} {L : List Daddr} (h : FreeList v L)
    (hb : InRange v.sb b) (stale : Block) (h1 : 1 ≤ v.sb.sNfree) (h50 : v.sb.sNfree < nicfree) :
    free v b stale = { v with sb := { v.sb with
      sFree := v.sb.sFree.put v.sb.sNfree.toNat b
      sNfree := v.sb.sNfree + 1
      sFmod := true } } := by
  have hbad : badblock { v with sb := { v.sb with sFmod := true } } b = (false, _) :=
    badblock_of_inRange hb
  unfold free
  rw [h.getfs_eq]
  dsimp only at hbad ⊢
  have h1' : ¬ v.sb.sNfree ≤ 0 := by omega
  have h50' : ¬ v.sb.sNfree ≥ nicfree := by omega
  simp only [hbad, h1', h50', if_false]

/-- `free` into an empty cache first puts the end mark there. -/
theorem free_empty {v : Vol} {b : Daddr} {L : List Daddr} (h : FreeList v L)
    (hb : InRange v.sb b) (stale : Block) (h0 : v.sb.sNfree ≤ 0) :
    free v b stale = { v with sb := { v.sb with
      sFree := (v.sb.sFree.put 0 0).put 1 b
      sNfree := 2
      sFmod := true } } := by
  have hbad : badblock { v with sb := { v.sb with sFmod := true } } b = (false, _) :=
    badblock_of_inRange hb
  unfold free
  rw [h.getfs_eq]
  dsimp only at hbad ⊢
  have h50 : ¬ (1 : Int) ≥ nicfree := by decide
  simp only [hbad, h0, h50, if_true, if_false]
  rfl

/-- `free` with a full cache spills it into the block being freed. -/
theorem free_spill {v : Vol} {b : Daddr} {L : List Daddr} (h : FreeList v L)
    (hb : InRange v.sb b) (stale : Block) (h50 : v.sb.sNfree = nicfree) :
    free v b stale = { v with
      sb := { v.sb with sFree := v.sb.sFree.put 0 b, sNfree := 1, sFmod := true }
      disk := Function.update v.disk b (putFblk stale nicfree v.sb.sFree) } := by
  have hbad : badblock { v with sb := { v.sb with sFmod := true } } b = (false, _) :=
    badblock_of_inRange hb
  unfold free
  rw [h.getfs_eq]
  dsimp only at hbad ⊢
  have h1 : ¬ (nicfree : Int) ≤ 0 := by decide
  rw [h50] at hbad
  simp only [hbad, h50, h1, ge_iff_le, Int.le_refl, if_true, if_false]
  rfl

theorem free_cons {v : Vol} {b : Daddr} {L : List Daddr} (h : FreeList v L)
    (hb : InRange v.sb b) (hnew : b ∉ L) (stale : Block) :
    ∃ sb blk, free v b stale = { v with sb := sb, disk := Function.update v.disk b blk } ∧
      FreeList (free v b stale) (b :: L) ∧
      sb.sIsize = v.sb.sIsize ∧ sb.sFsize = v.sb.sFsize := by
  have hvalid : ∀ c ∈ b :: L, InRange v.sb c := by
    intro c hc
    rcases List.mem_cons.mp hc with rfl | hc
    · exact hb
    · exact h.valid c hc
  have hnd : (b :: L).Nodup := List.nodup_cons.mpr ⟨hnew, h.nodup⟩
  have hle := h.nfree_le
  rcases h.chain with ⟨h0, rfl⟩ | hc
  · rw [free_empty h hb stale h0]
    refine ⟨{ v.sb with sFree := (v.sb.sFree.put 0 0).put 1 b, sNfree := 2, sFmod := true },
      v.disk b, by rw [Function.update_eq_self],
      ⟨Or.inr ?_, h.ninode, h.isize, hvalid, hnd⟩, rfl, rfl⟩
    have hend : Chain v.disk 1 (v.sb.sFree.put 0 0) [] :=
      .last (Int.le_refl 1) (by decide) (Arr.get_put_self _ _ _ (by decide))
    have := (hend.put (k := 1) b (Int.le_refl 1)).push (by decide)
    rwa [show (1 : Int).toNat = 1 from rfl, Arr.get_put_self _ _ _ (by decide)] at this
  · have hn := hc.bounds
    by_cases h50 : v.sb.sNfree = nicfree
    · rw [free_spill h hb stale h50]
      refine ⟨_, _, rfl, ⟨Or.inr ?_, h.ninode, h.isize, hvalid, hnd⟩, rfl, rfl⟩
      -- the old cache is now behind the freed block, which is not on the old list
      have hold : Chain (Function.update v.disk b (putFblk stale nicfree v.sb.sFree))
          v.sb.sNfree v.sb.sFree L :=
        hc.congr_disk fun c hcL => Function.update_of_ne (ne_of_mem_of_not_mem hcL hnew) _ _
      have hget : (v.sb.sFree.put 0 b).get 0 = b := Arr.get_put_self _ _ _ (by decide)
      have hcount : dfNfree (putFblk stale nicfree v.sb.sFree) = nicfree :=
        dfNfree_putFblk stale nicfree v.sb.sFree (by omega) (by omega)
      have hlink : Chain (Function.update v.disk b (putFblk stale nicfree v.sb.sFree)) 1
          (v.sb.sFree.put 0 b) ([] ++ (v.sb.sFree.put 0 b).get 0 :: L) := by
        refine .link (Int.le_refl 1) (by decide) ?_ ?_
        · rw [hget]
          exact hb.ne_zero h.isize
        · rw [h50] at hold
          rw [hget, Function.update_self, hcount, dfFree_putFblk]
          exact hold
      rwa [hget] at hlink
    · have hlt : v.sb.sNfree < nicfree := by omega
      rw [free_push h hb stale hn.1 hlt]
      refine ⟨{ v.sb with
          sFree := v.sb.sFree.put v.sb.sNfree.toNat b, sNfree := v.sb.sNfree + 1, sFmod := true },
        v.disk b, by rw [Function.update_eq_self],
        ⟨Or.inr ?_, h.ninode, h.isize, hvalid, hnd⟩, rfl, rfl⟩
      have := (hc.put (k := v.sb.sNfree.toNat) b (by omega)).push hlt
      rwa [Arr.get_put_self _ _ _ (by unfold nicfree at hlt ⊢; omega)] at this

/-! ## Sequences of calls -/

/-- A call of the allocator, or a write to the contents of a block. -/
inductive Op where
  | alloc
  | free (b : Daddr) (stale : Block)
  | write (b : Daddr) (data : Block)

/-- What a call returns; for `alloc`, with the error left in `u_error`. -/
inductive Ret where
  | alloced (bp : Option Buf) (err : Option Errno)
  | done

def step (v : Vol) : Op → Vol × Ret
  | .alloc =>
    let r := alloc { v with uError := none }
    (r.2, .alloced r.1 r.2.uError)
  | .free b stale => (free v b stale, .done)
  | .write b data => (v.bwrite ⟨b, data⟩, .done)

/-- The abstract allocator: a stack of free blocks. -/
def stackStep (L : List Daddr) : Op → List Daddr × Ret
  | .alloc =>
    match L with
    | [] => ([], .alloced none (some .enospc))
    | b :: L => (L, .alloced (some ⟨b, Bytes.zero⟩) none)
  | .free b _ => (b :: L, .done)
  | .write _ _ => (L, .done)

/-- A freed block is a data block of the volume that is not free, and only blocks that are
    not free are written. -/
def Permitted (sb : Filsys) (L : List Daddr) : Op → Prop
  | .alloc => True
  | .free b _ => InRange sb b ∧ b ∉ L
  | .write b _ => b ∉ L

/-- The volume holds the stack `L` and has the size it started with. -/
def OnVolume (sb : Filsys) (v : Vol) (L : List Daddr) : Prop :=
  FreeList v L ∧ v.sb.sIsize = sb.sIsize ∧ v.sb.sFsize = sb.sFsize

theorem inRange_congr {sb sb' : Filsys} (hi : sb'.sIsize = sb.sIsize)
    (hf : sb'.sFsize = sb.sFsize) (b : Daddr) : InRange sb' b ↔ InRange sb b := by
  unfold InRange
  rw [hi, hf]

/-- Writing a block that is not on the list does not disturb the list. -/
theorem FreeList.bwrite {v : Vol} {L : List Daddr} (h : FreeList v L) (bp : Buf)
    (hb : bp.bBlkno ∉ L) : FreeList (v.bwrite bp) L := by
  refine ⟨?_, h.ninode, h.isize, h.valid, h.nodup⟩
  rcases h.chain with h0 | hc
  · exact Or.inl h0
  · exact Or.inr (hc.congr_disk fun c hcL =>
      Function.update_of_ne (ne_of_mem_of_not_mem hcL hb) _ _)

/-- Clearing `u_error` leaves the free list alone. -/
theorem FreeList.clearError {v : Vol} {L : List Daddr} (h : FreeList v L) (e : Option Errno) :
    FreeList { v with uError := e } L :=
  ⟨h.chain, h.ninode, h.isize, h.valid, h.nodup⟩

theorem step_refines (sb : Filsys) (v : Vol) (L : List Daddr) (op : Op) (h : OnVolume sb v L)
    (hop : Permitted sb L op) :
    (step v op).2 = (stackStep L op).2 ∧ OnVolume sb (step v op).1 (stackStep L op).1 := by
  obtain ⟨hl, hi, hf⟩ := h
  cases op with
  | alloc =>
    have hl' := hl.clearError none
    cases L with
    | nil =>
      obtain ⟨sb', he, hl'', hi', hf'⟩ := alloc_nil hl'
      simp only [step, stackStep, he]
      exact ⟨trivial, hl'', hi'.trans hi, hf'.trans hf⟩
    | cons b L =>
      obtain ⟨sb', he, hl'', hi', hf'⟩ := alloc_cons hl'
      simp only [step, stackStep, he]
      exact ⟨trivial, hl'', hi'.trans hi, hf'.trans hf⟩
  | free b stale =>
    obtain ⟨sb', blk, he, hl', hi', hf'⟩ :=
      free_cons hl ((inRange_congr hi hf b).mpr hop.1) hop.2 stale
    refine ⟨rfl, hl', ?_, ?_⟩
    · simp only [step, he, hi', hi]
    · simp only [step, he, hf', hf]
  | write b data => exact ⟨rfl, hl.bwrite ⟨b, data⟩ hop, hi, hf⟩

/-- Return value `i` of a run is a buffer for block `b`. -/
def HandsOut (outs : List Ret) (i : Nat) (b : Daddr) : Prop :=
  ∃ data err, outs[i]? = some (.alloced (some ⟨b, data⟩) err)

/-- A block that is not free is not handed out before it is freed. -/
theorem handsOut_of_not_mem (sb : Filsys) (b : Daddr) (L : List Daddr) (ops : List Op)
    (hb : b ∉ L) (hok : Allowed stackStep (Permitted sb) L ops) (j : Nat)
    (hj : HandsOut (exec stackStep L ops).2 j b) :
    ∃ k stale, k < j ∧ ops[k]? = some (.free b stale) := by
  induction ops generalizing L j with
  | nil =>
    obtain ⟨_, _, h⟩ := hj
    simp at h
  | cons op ops ih =>
    obtain ⟨data, err, h⟩ := hj
    rw [exec_cons] at h
    by_cases hfree : ∃ stale, op = .free b stale
    · obtain ⟨stale, rfl⟩ := hfree
      cases j with
      | zero => simp [stackStep] at h
      | succ j => exact ⟨0, stale, by omega, rfl⟩
    · -- after any other operation the block is still not free
      have hb' : b ∉ (stackStep L op).1 := by
        cases op with
        | alloc =>
          cases L with
          | nil => exact hb
          | cons c L => exact fun hm => hb (List.mem_cons_of_mem _ hm)
        | free c stale =>
          intro hm
          rcases List.mem_cons.mp hm with rfl | hm
          · exact hfree ⟨stale, rfl⟩
          · exact hb hm
        | write c data => exact hb
      cases j with
      | zero =>
        exfalso
        cases op with
        | alloc =>
          cases L with
          | nil => simp [stackStep] at h
          | cons c L =>
            simp only [stackStep, List.getElem?_cons_zero, Option.some.injEq, Ret.alloced.injEq,
              Buf.mk.injEq] at h
            exact hb (by simp [h.1.1])
        | free c stale => simp [stackStep] at h
        | write c data => simp [stackStep] at h
      | succ j =>
        obtain ⟨k, stale, hk, hget⟩ := ih _ hb' hok.2 j ⟨data, err, by simpa using h⟩
        exact ⟨k + 1, stale, by omega, by simpa using hget⟩

/-- Between two hand-outs of one block the block was freed. -/
theorem handsOut_twice (sb : Filsys) (b : Daddr) (L : List Daddr) (ops : List Op)
    (hnd : L.Nodup) (hok : Allowed stackStep (Permitted sb) L ops) (i j : Nat) (hij : i < j)
    (hi : HandsOut (exec stackStep L ops).2 i b) (hj : HandsOut (exec stackStep L ops).2 j b) :
    ∃ k stale, i < k ∧ k < j ∧ ops[k]? = some (.free b stale) := by
  induction ops generalizing L i j with
  | nil =>
    obtain ⟨_, _, h⟩ := hi
    simp at h
  | cons op ops ih =>
    obtain ⟨j, rfl⟩ : ∃ j', j = j' + 1 := ⟨j - 1, by omega⟩
    obtain ⟨data, err, hjv⟩ := hj
    rw [exec_cons, List.getElem?_cons_succ] at hjv
    obtain ⟨data', err', hiv⟩ := hi
    rw [exec_cons] at hiv
    cases i with
    | zero =>
      -- `op` hands out `b`, which is then off the stack
      have hb : b ∉ (stackStep L op).1 := by
        cases op with
        | alloc =>
          cases L with
          | nil => simp [stackStep] at hiv
          | cons c L =>
            simp only [stackStep, List.getElem?_cons_zero, Option.some.injEq, Ret.alloced.injEq,
              Buf.mk.injEq] at hiv
            rw [← hiv.1.1]
            exact (List.nodup_cons.mp hnd).1
        | free c stale => simp [stackStep] at hiv
        | write c data => simp [stackStep] at hiv
      obtain ⟨k, stale, hk, hget⟩ :=
        handsOut_of_not_mem sb b _ ops hb hok.2 j ⟨data, err, hjv⟩
      exact ⟨k + 1, stale, by omega, by omega, by simpa using hget⟩
    | succ i =>
      have hnd' : (stackStep L op).1.Nodup := by
        cases op with
        | alloc =>
          cases L with
          | nil => exact hnd
          | cons c L => exact (List.nodup_cons.mp hnd).2
        | free c stale => exact List.nodup_cons.mpr ⟨hok.1.2, hnd⟩
        | write c data => exact hnd
      obtain ⟨k, stale, h1, h2, hget⟩ := ih _ hnd' hok.2 i j (by omega)
        ⟨data', err', by simpa using hiv⟩ ⟨data, err, hjv⟩
      exact ⟨k + 1, stale, by omega, by omega, by simpa using hget⟩

/-- **The block allocator is a stack.** From a well-formed free list, every sequence of calls
    whose frees are of allocated data blocks returns what the stack returns: `alloc` the most
    recently freed block, zero-filled, or `ENOSPC` exactly on the empty stack. The list stays
    well formed, and no block is handed out twice without a `free` of it in between. -/
theorem alloc_free_refines_stack (v : Vol) (L : List Daddr) (ops : List Op) (hv : FreeList v L)
    (hok : Allowed stackStep (Permitted v.sb) L ops) :
    (exec step v ops).2 = (exec stackStep L ops).2 ∧
      FreeList (exec step v ops).1 (exec stackStep L ops).1 ∧
      ∀ b i j, i < j → HandsOut (exec step v ops).2 i b → HandsOut (exec step v ops).2 j b →
        ∃ k stale, i < k ∧ k < j ∧ ops[k]? = some (.free b stale) := by
  obtain ⟨hout, hfin⟩ := exec_refines (step_refines v.sb) v L ops ⟨hv, rfl, rfl⟩ hok
  refine ⟨hout, hfin.1, ?_⟩
  intro b i j hij hi hj
  rw [hout] at hi hj
  exact handsOut_twice v.sb b L ops hv.nodup hok i j hij hi hj

/-- A volume of 100 blocks with an i-list of two and an empty free list. -/
def emptyVol : Vol where
  sb := ⟨2, 100, 1, fun _ => 0, 0, false⟩
  disk := fun _ => Bytes.zero
  uError := none
  console := []
  rablock := 0

theorem freeList_emptyVol : FreeList emptyVol [] := by
  refine ⟨Or.inr ?_, by decide, by decide, by simp, List.nodup_nil⟩
  exact .last (Int.le_refl 1) (by decide) (by decide)

theorem alloc_free_refines_stack_emptyVol :
    FreeList emptyVol [] ∧
      (exec step emptyVol [.free 5 Bytes.zero, .write 7 Bytes.zero, .alloc, .alloc]).2 =
        [.done, .done, .alloced (some ⟨5, Bytes.zero⟩) none, .alloced none (some .enospc)] := by
  refine ⟨freeList_emptyVol, ?_⟩
  have hok : Allowed stackStep (Permitted emptyVol.sb) []
      [.free 5 Bytes.zero, .write 7 Bytes.zero, .alloc, .alloc] := by
    refine ⟨⟨by decide, by simp⟩, ?_, trivial, trivial, trivial⟩
    change (7 : Daddr) ∉ [5]
    decide
  exact (alloc_free_refines_stack emptyVol [] _ freeList_emptyVol hok).1

end Venix.Fs
