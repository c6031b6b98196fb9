/-
  `itrunc` and `tloop` (`iget.c`): all blocks of a file go back to the free list, the last ones first
  and an indirect block after the blocks that it points to.

  There are no I/O errors. `tloop` holds the buffer of an indirect block while it frees data blocks
  and lets go of it while it is in a deeper level; other blocks that are freed do not touch it. The
  calls of `free` are kept in order, the last one first. `tloop` calls itself two levels deep at
  most, so three are enough (`tloop_frees`).
-/
import Venix.Lib.PtrNodes
import Venix.Fs.BmapTree

namespace Venix.Fs

open Venix.Lib Venix.Lib.PtrTree

/-- The volume, and the blocks that `free` has been called for. -/
structure Freeing where
  v : Vol
  calls : List Daddr

/-- A call of `free`. -/
def Freeing.free (stale : Daddr → Block) (bno : Daddr) (s : Freeing) : Freeing :=
  { v := Fs.free s.v bno (stale bno)
    calls := bno :: s.calls }

/-- The loop of `tloop` for the slots below `i`; `deeper` is what it calls where `f1` is set. -/
def tloopTurns (stale : Daddr → Block) (deeper : Daddr → Freeing → Freeing) (f1 : Bool)
    (bn : Daddr) : Nat → Option Block → Freeing → Freeing
  | 0, _, s => s
  | i + 1, bp, s =>
    let bap := bp.getD (s.v.disk bn)
    let nb := bap.getLong (4 * i)
    if nb = 0 then tloopTurns stale deeper f1 bn i (some bap) s
    else if f1 then tloopTurns stale deeper f1 bn i none (deeper nb s)
    else tloopTurns stale deeper f1 bn i (some bap) (s.free stale nb)

def tloop (stale : Daddr → Block) : Nat → Daddr → Bool → Bool → Freeing → Freeing
  | 0, _, _, _, s => s
  | k + 1, bn, f1, f2, s =>
    (tloopTurns stale (fun nb => tloop stale k nb f2 false) f1 bn nindir none s).free stale bn

/-- What `itrunc` does with the block in slot `i` of the inode. -/
def itruncSlot (stale : Daddr → Block) (i : Nat) (bn : Daddr) (s : Freeing) : Freeing :=
  if i = naddr - 3 then tloop stale 3 bn false false s
  else if i = naddr - 2 then tloop stale 3 bn true false s
  else if i = naddr - 1 then tloop stale 3 bn true true s
  else s.free stale bn

/-- The loop of `itrunc` for the slots below `i`. -/
def itruncLoop (stale : Daddr → Block) : Nat → Freeing × Inode → Freeing × Inode
  | 0, r => r
  | i + 1, r =>
    let bn := r.2.iAddr.get i
    if bn = 0 then itruncLoop stale i r
    else
      let ip := { r.2 with iAddr := r.2.iAddr.put i 0 }
      itruncLoop stale i (itruncSlot stale i bn r.1, ip)

def itrunc (stale : Daddr → Block) (s : Freeing) (ip : Inode) : Freeing × Inode :=
  if ip.iType ≠ .ifreg ∧ ip.iType ≠ .ifdir then (s, ip)
  else
    let r := itruncLoop stale naddr (s, ip)
    (r.1, { r.2 with iSize := 0, iFlag := r.2.iFlag ||| (ichg ||| iupd) })

/-! ## One call of `free` -/

/-- `free` writes the block that it frees, and no other one. -/
theorem free_disk (v : Vol) {bno a : Daddr} (stale : Block) (h : a ≠ bno) :
    (free v bno stale).disk a = v.disk a := by
  have hgetfs : (getfs v).disk a = v.disk a := by
    unfold getfs
    split
    · rfl
    · rfl
  have hbad : ∀ w : Vol, (badblock w bno).2.disk = w.disk := by
    intro w
    unfold badblock
    split
    · rfl
    · rfl
  unfold free
  dsimp only
  split
  · next w hw =>
    have hdisk := hbad { getfs v with sb := { (getfs v).sb with sFmod := true } }
    rw [hw] at hdisk
    dsimp only at hdisk
    rw [hdisk, hgetfs]
  · next w hw =>
    have hdisk := hbad { getfs v with sb := { (getfs v).sb with sFmod := true } }
    rw [hw] at hdisk
    dsimp only at hdisk
    rw [← hgetfs, ← hdisk]
    split
    · split
      · exact Function.update_of_ne h _ _
      · rfl
    · split
      · exact Function.update_of_ne h _ _
      · rfl

/-! ## What is freed -/

/-- What slot `i` of an indirect block points to. -/
def slotOf (disk : Daddr → Block) (a : Daddr) (i : Nat) : Daddr := (disk a).getLong (4 * i)

/-- The slots below `i`, the last one first. -/
def slotsDown (i : Nat) : List Nat := (List.range i).reverse

/-- The blocks at and under `a`, in the order in which they are freed. -/
def blocksBelow (disk : Daddr → Block) (n : Nat) (a : Daddr) : List Daddr :=
  below 0 (slotOf disk) (slotsDown nindir) n a

/-- The blocks under the slots of `a` below `i`. -/
def underSlots (disk : Daddr → Block) (n i : Nat) (a : Daddr) : List Daddr :=
  (slotsDown i).flatMap fun k => if slotOf disk a k = 0 then [] else blocksBelow disk n (slotOf disk a k)

theorem blocksBelow_succ (disk : Daddr → Block) (n : Nat) (a : Daddr) :
    blocksBelow disk (n + 1) a = underSlots disk n nindir a ++ [a] := rfl

theorem underSlots_succ (disk : Daddr → Block) (n i : Nat) (a : Daddr) :
    underSlots disk n (i + 1) a =
      (if slotOf disk a i = 0 then [] else blocksBelow disk n (slotOf disk a i)) ++
        underSlots disk n i a := by
  unfold underSlots slotsDown
  rw [List.range_succ, List.reverse_append, List.reverse_singleton, List.singleton_append,
    List.flatMap_cons]

/-- `act` frees the blocks `l`, in this order, and leaves the others as they are. -/
structure Frees (l : List Daddr) (s s' : Freeing) : Prop where
  calls : s'.calls = l.reverse ++ s.calls
  disk : ∀ a, a ∉ l → s'.v.disk a = s.v.disk a

theorem Frees.append {l l' : List Daddr} {s s' s'' : Freeing} (h : Frees l s s')
    (h' : Frees l' s' s'') : Frees (l ++ l') s s'' := by
  refine ⟨?_, fun a ha => ?_⟩
  · rw [h'.calls, h.calls, List.reverse_append, List.append_assoc]
  · rw [List.mem_append, not_or] at ha
    rw [h'.disk a ha.2, h.disk a ha.1]

theorem free_frees (stale : Daddr → Block) (bno : Daddr) (s : Freeing) :
    Frees [bno] s (s.free stale bno) :=
  ⟨rfl, fun _ ha => free_disk s.v _ fun h => ha (List.mem_singleton.2 h)⟩

/-- The blocks `l` are as they are in `disk`. -/
def Agrees (disk : Daddr → Block) (l : List Daddr) (s : Freeing) : Prop :=
  ∀ a ∈ l, s.v.disk a = disk a

/-- `act` frees the tree of height `n` under a block, if it finds it as it is in `disk`. -/
def FreesTree (disk : Daddr → Block) (n : Nat) (act : Daddr → Freeing → Freeing) : Prop :=
  ∀ bn s, Agrees disk (blocksBelow disk n bn) s → (blocksBelow disk n bn).Nodup →
    Frees (blocksBelow disk n bn) s (act bn s)

theorem free_tree (disk stale : Daddr → Block) :
    FreesTree disk 0 fun bn s => s.free stale bn :=
  fun bn s _ _ => free_frees stale bn s

theorem Agrees.after {disk : Daddr → Block} {l l' : List Daddr} {s s' : Freeing}
    (h : Agrees disk (l ++ l') s) (hfrees : Frees l s s') (hdup : (l ++ l').Nodup) :
    Agrees disk l' s' := by
  intro a ha
  have hnot : a ∉ l := fun hl => (List.nodup_append.1 hdup).2.2 a hl a ha rfl
  rw [hfrees.disk a hnot, h a (List.mem_append_right l ha)]

variable {disk stale : Daddr → Block} {deeper : Daddr → Freeing → Freeing} {n : Nat} {bn : Daddr}

/-- The loop of `tloop` frees what is under the slots. The buffer of the block, where it is held,
is what is on the disk. -/
theorem tloopTurns_frees (f1 : Bool)
    (hdeeper : FreesTree disk n fun nb s => if f1 then deeper nb s else s.free stale nb) (i : Nat)
    {bp : Option Block} (hbp : bp = none ∨ bp = some (disk bn)) {s : Freeing}
    (hagree : Agrees disk (underSlots disk n i bn ++ [bn]) s)
    (hdup : (underSlots disk n i bn ++ [bn]).Nodup) :
    Frees (underSlots disk n i bn) s (tloopTurns stale deeper f1 bn i bp s) := by
  induction i generalizing bp s with
  | zero => exact ⟨rfl, fun _ _ => rfl⟩
  | succ i ih =>
    have hbap : bp.getD (s.v.disk bn) = disk bn := by
      rcases hbp with rfl | rfl
      · exact hagree bn (List.mem_append_right _ (List.mem_singleton.2 rfl))
      · rfl
    rw [underSlots_succ] at hagree hdup ⊢
    unfold tloopTurns
    dsimp only
    rw [hbap]
    change Frees _ s (if slotOf disk bn i = 0 then _ else _)
    by_cases hnull : slotOf disk bn i = 0
    · rw [if_pos hnull, List.nil_append] at hagree hdup ⊢
      rw [if_pos hnull]
      exact ih (Or.inr rfl) hagree hdup
    · rw [if_neg hnull, List.append_assoc] at hagree hdup
      rw [if_neg hnull, if_neg hnull]
      have hdup' := List.nodup_append.1 hdup
      have hone : Frees (blocksBelow disk n (slotOf disk bn i)) s
          (if f1 then deeper (slotOf disk bn i) s else s.free stale (slotOf disk bn i)) :=
        hdeeper (slotOf disk bn i) s (fun a ha => hagree a (List.mem_append_left _ ha)) hdup'.1
      have hrest := hagree.after hone hdup
      cases f1 with
      | true =>
        rw [if_pos rfl] at hone hrest
        rw [if_pos rfl]
        exact hone.append (ih (Or.inl rfl) hrest hdup'.2.1)
      | false =>
        rw [if_neg (by decide)] at hone hrest
        rw [if_neg (by decide)]
        exact hone.append (ih (Or.inr rfl) hrest hdup'.2.1)

/-- One level of `tloop`. -/
theorem tloop_level {f1 f2 : Bool} {k : Nat}
    (hdeeper : FreesTree disk n fun nb s =>
      if f1 then tloop stale k nb f2 false s else s.free stale nb) :
    FreesTree disk (n + 1) fun bn s => tloop stale (k + 1) bn f1 f2 s := by
  intro bn s hagree hdup
  rw [blocksBelow_succ] at hagree hdup ⊢
  exact (tloopTurns_frees f1 hdeeper nindir (Or.inl rfl) hagree hdup).append
    (free_frees stale bn _)

theorem tloop_single (k : Nat) :
    FreesTree disk 1 fun bn s => tloop stale (k + 1) bn false false s :=
  tloop_level (free_tree disk stale)

theorem tloop_double (k : Nat) :
    FreesTree disk 2 fun bn s => tloop stale (k + 2) bn true false s :=
  tloop_level (tloop_single k)

theorem tloop_triple (k : Nat) :
    FreesTree disk 3 fun bn s => tloop stale (k + 3) bn true true s :=
  tloop_level (tloop_double k)

theorem itruncSlot_frees {i : Nat} (hi : i < naddr) :
    FreesTree disk (i - 9) fun bn s => itruncSlot stale i bn s := by
  intro bn s hagree hdup
  unfold naddr at hi
  unfold itruncSlot naddr
  dsimp only
  split
  · next h =>
    subst h
    exact tloop_single 2 bn s hagree hdup
  · split
    · next h =>
      subst h
      exact tloop_double 1 bn s hagree hdup
    · split
      · next h =>
        subst h
        exact tloop_triple 0 bn s hagree hdup
      · rw [show i - 9 = 0 by omega] at hagree hdup ⊢
        exact free_tree disk stale bn s hagree hdup

/-- The blocks under the slots of an inode below `i`. -/
def fileBlocks (disk : Daddr → Block) (iAddr : Arr Daddr naddr) (i : Nat) : List Daddr :=
  (slotsDown i).flatMap fun k => if iAddr.get k = 0 then [] else blocksBelow disk (k - 9) (iAddr.get k)

theorem fileBlocks_succ (disk : Daddr → Block) (iAddr : Arr Daddr naddr) (i : Nat) :
    fileBlocks disk iAddr (i + 1) =
      (if iAddr.get i = 0 then [] else blocksBelow disk (i - 9) (iAddr.get i)) ++
        fileBlocks disk iAddr i := by
  unfold fileBlocks slotsDown
  rw [List.range_succ, List.reverse_append, List.reverse_singleton, List.singleton_append,
    List.flatMap_cons]

theorem fileBlocks_put (disk : Daddr → Block) (iAddr : Arr Daddr naddr) {i j : Nat} (h : i ≤ j)
    (a : Daddr) : fileBlocks disk (iAddr.put j a) i = fileBlocks disk iAddr i := by
  unfold fileBlocks
  refine List.flatMap_congr fun k hk => ?_
  have hlt : k < i := List.mem_range.1 (List.mem_reverse.1 hk)
  rw [Arr.get_put_ne _ _ (by omega)]

/-- The inode after the loop of `itrunc`. -/
structure Cleared (i : Nat) (ip ip' : Inode) : Prop where
  below : ∀ k < i, ip'.iAddr.get k = 0
  above : ∀ k, i ≤ k → ip'.iAddr.get k = ip.iAddr.get k

theorem itruncLoop_frees {i : Nat} (hi : i ≤ naddr) {s : Freeing} {ip : Inode}
    (hagree : Agrees disk (fileBlocks disk ip.iAddr i) s)
    (hdup : (fileBlocks disk ip.iAddr i).Nodup) :
    Frees (fileBlocks disk ip.iAddr i) s (itruncLoop stale i (s, ip)).1 ∧
      Cleared i ip (itruncLoop stale i (s, ip)).2 := by
  induction i generalizing s ip with
  | zero =>
    exact ⟨⟨rfl, fun _ _ => rfl⟩, fun k hk => absurd hk (Nat.not_lt_zero k), fun _ _ => rfl⟩
  | succ i ih =>
    rw [fileBlocks_succ] at hagree hdup ⊢
    unfold itruncLoop
    dsimp only
    by_cases hnull : ip.iAddr.get i = 0
    · rw [if_pos hnull, List.nil_append] at hagree hdup ⊢
      rw [if_pos hnull]
      obtain ⟨hfrees, hclear⟩ := ih (by omega) hagree hdup
      refine ⟨hfrees, fun k hk => ?_, fun k hk => hclear.above k (by omega)⟩
      rcases Nat.lt_succ_iff_lt_or_eq.1 hk with hlt | rfl
      · exact hclear.below k hlt
      · rw [hclear.above k (le_refl k), hnull]
    · rw [if_neg hnull] at hagree hdup ⊢
      rw [if_neg hnull]
      have hdup' := List.nodup_append.1 hdup
      have hone : Frees _ s (itruncSlot stale i (ip.iAddr.get i) s) :=
        itruncSlot_frees (by omega : i < naddr) (ip.iAddr.get i) s
          (fun a ha => hagree a (List.mem_append_left _ ha)) hdup'.1
      have hrest := hagree.after hone hdup
      have hput := fileBlocks_put disk ip.iAddr (le_refl i) 0
      have hrest' : Agrees disk
          (fileBlocks disk ({ ip with iAddr := ip.iAddr.put i 0 } : Inode).iAddr i)
          (itruncSlot stale i (ip.iAddr.get i) s) := by
        rw [hput]
        exact hrest
      obtain ⟨hfrees, hclear⟩ := ih (by omega) hrest' (by rw [hput]; exact hdup'.2.1)
      dsimp only at hfrees
      rw [hput] at hfrees
      refine ⟨hone.append hfrees, fun k hk => ?_, fun k hk => ?_⟩
      · rcases Nat.lt_succ_iff_lt_or_eq.1 hk with hlt | rfl
        · exact hclear.below k hlt
        · rw [hclear.above k (le_refl k)]
          exact Arr.get_put_self _ _ _ (by omega)
      · rw [hclear.above k (by omega)]
        exact Arr.get_put_ne _ _ (by omega)

/-! ## The blocks of the file -/

/-- A block of the file: one that a path of slots leads to. -/
def Reached (v : Vol) (ip : Inode) (a : Daddr) : Prop :=
  a ≠ 0 ∧ ∃ s p, OkPath s p ∧ addrAt v ip s p = a

theorem addrAt_eq_walk (v : Vol) (ip : Inode) (s : Nat) (p : List Nat) :
    addrAt v ip s p = walk 0 (slotOf v.disk) (ip.iAddr.get s) p := by
  induction p with
  | nil => rfl
  | cons k p ih =>
    unfold addrAt walk at ih ⊢
    simp only [lookup, ih]
    rfl

theorem okPath_iff {s : Nat} (hs : s < naddr) (p : List Nat) :
    OkPath s p ↔ PtrTree.Within (slotsDown nindir) (s - 9) p := by
  unfold OkPath PtrTree.Within slotsDown
  simp only [List.mem_reverse, List.mem_range]
  exact ⟨fun h => h.2, fun h => ⟨hs, h⟩⟩

theorem mem_fileBlocks (v : Vol) (ip : Inode) (a : Daddr) :
    a ∈ fileBlocks v.disk ip.iAddr naddr ↔ Reached v ip a := by
  unfold fileBlocks Reached slotsDown
  rw [List.mem_flatMap]
  simp only [List.mem_reverse, List.mem_range]
  constructor
  · rintro ⟨s, hs, ha⟩
    split at ha
    · exact absurd ha List.not_mem_nil
    · next hne =>
      obtain ⟨p, hp, hw, ha0⟩ := (mem_below hne).1 ha
      exact ⟨ha0, s, p, (okPath_iff hs p).2 hp, (addrAt_eq_walk v ip s p).trans hw⟩
  · rintro ⟨ha0, s, p, hp, hw⟩
    rw [addrAt_eq_walk] at hw
    refine ⟨s, hp.1, ?_⟩
    by_cases hne : ip.iAddr.get s = 0
    · rw [hne, walk_null] at hw
      exact absurd hw.symm ha0
    · rw [if_neg hne]
      exact (mem_below hne).2 ⟨p, (okPath_iff hp.1 p).1 hp, hw, ha0⟩

theorem fileBlocks_nodup {v : Vol} {ip : Inode} (hsep : Separate 0 OkPath (addrAt v ip)) :
    (fileBlocks v.disk ip.iAddr naddr).Nodup := by
  have hslots : ∀ n, (slotsDown n).Nodup := fun n => List.nodup_reverse.2 List.nodup_range
  have hpath : ∀ {s x}, s ∈ slotsDown naddr →
      x ∈ (if ip.iAddr.get s = 0 then [] else blocksBelow v.disk (s - 9) (ip.iAddr.get s)) →
      ∃ p, OkPath s p ∧ addrAt v ip s p = x ∧ x ≠ 0 := by
    intro s x hs hx
    have hlt : s < naddr := List.mem_range.1 (List.mem_reverse.1 hs)
    split at hx
    · exact absurd hx List.not_mem_nil
    · next hne =>
      obtain ⟨p, hp, hw, hx0⟩ := (mem_below hne).1 hx
      exact ⟨p, (okPath_iff hlt p).2 hp, (addrAt_eq_walk v ip s p).trans hw, hx0⟩
  refine List.nodup_flatMap.2 ⟨fun s hs => ?_, ?_⟩
  · have hlt : s < naddr := List.mem_range.1 (List.mem_reverse.1 hs)
    split
    · exact List.nodup_nil
    · next hne =>
      refine below_nodup (hslots nindir) hne fun p q hp hq hp0 heq => ?_
      rw [← addrAt_eq_walk] at hp0 heq
      rw [← addrAt_eq_walk] at heq
      exact (hsep s p s q ((okPath_iff hlt p).2 hp) ((okPath_iff hlt q).2 hq) hp0 heq).2
  · refine (hslots naddr).imp_of_mem fun {s t} hs ht hne x hx hx' => ?_
    obtain ⟨p, hp, hw, hx0⟩ := hpath hs hx
    obtain ⟨q, hq, hw', -⟩ := hpath ht hx'
    exact hne (hsep s p t q hp hq (by rw [hw]; exact hx0) (hw.trans hw'.symm)).1

/-- `itrunc` frees each block of a file once, and no other block, and leaves the inode empty. -/
theorem itrunc_frees (stale : Daddr → Block) (v : Vol) (ip : Inode)
    (htype : ip.iType = .ifreg ∨ ip.iType = .ifdir)
    (hsep : Separate 0 OkPath (addrAt v ip)) :
    (∀ a, Reached v ip a → (itrunc stale ⟨v, []⟩ ip).1.calls.count a = 1) ∧
      (∀ a, ¬Reached v ip a → a ∉ (itrunc stale ⟨v, []⟩ ip).1.calls) ∧
      (itrunc stale ⟨v, []⟩ ip).2.iSize = 0 ∧
      ∀ i, i < naddr → (itrunc stale ⟨v, []⟩ ip).2.iAddr.get i = 0 := by
  have hdup := fileBlocks_nodup hsep
  have hloop : Frees _ ⟨v, []⟩ (itruncLoop stale naddr (⟨v, []⟩, ip)).1 ∧
      Cleared naddr ip (itruncLoop stale naddr (⟨v, []⟩, ip)).2 :=
    itruncLoop_frees (le_refl naddr) (fun _ _ => rfl) hdup
  obtain ⟨hfrees, hclear⟩ := hloop
  have hrun : itrunc stale ⟨v, []⟩ ip =
      ((itruncLoop stale naddr (⟨v, []⟩, ip)).1,
        { (itruncLoop stale naddr (⟨v, []⟩, ip)).2 with
          iSize := 0
          iFlag := (itruncLoop stale naddr (⟨v, []⟩, ip)).2.iFlag ||| (ichg ||| iupd) }) := by
    unfold itrunc
    rw [if_neg]
    rintro ⟨hreg, hdir⟩
    exact htype.elim hreg hdir
  have hcalls := hfrees.calls
  rw [List.append_nil] at hcalls
  rw [hrun]
  dsimp only
  rw [hcalls]
  refine ⟨fun a ha => ?_, fun a ha hmem => ?_, rfl, hclear.below⟩
  · rw [List.count_reverse]
    exact List.count_eq_one_of_mem hdup ((mem_fileBlocks v ip a).2 ha)
  · exact ha ((mem_fileBlocks v ip a).1 (List.mem_reverse.1 hmem))

/-- A file with a direct block, 5, and an indirect block, 6, which points to one block, 7. -/
def smallFile : Vol × Inode :=
  ({ emptyVol with
    disk := Function.update emptyVol.disk 6 (Bytes.zero.putLong 12 7) },
  { iFlag := 0
    iType := .ifreg
    iSize := 0
    iAddr := (Arr.put (fun _ => 0) 0 5).put 10 6
    iLastr := 0 })

theorem smallFile_root {s : Nat} (hs : s < naddr) : smallFile.2.iAddr.get s =
    if s = 0 then 5 else if s = 10 then 6 else 0 := by
  unfold smallFile
  dsimp only
  by_cases h10 : s = 10
  · subst h10
    rfl
  · rw [Arr.get_put_ne _ _ h10, if_neg h10]
    by_cases h0 : s = 0
    · subst h0
      rfl
    · rw [Arr.get_put_ne _ _ h0, if_neg h0]
      exact Arr.get_const 0 hs

theorem smallFile_addr {s : Nat} {p : List Nat} (h : OkPath s p) :
    addrAt smallFile.1 smallFile.2 s p =
      if s = 0 then 5 else if s = 10 then (if p = [] then 6 else if p = [3] then 7 else 0) else 0 := by
  obtain ⟨hs, hlen, hslots⟩ := h
  rw [addrAt_eq_walk, smallFile_root hs]
  by_cases h0 : s = 0
  · subst h0
    rw [List.length_eq_zero_iff.1 (Nat.le_zero.1 hlen)]
    rfl
  · rw [if_neg h0, if_neg h0]
    by_cases h10 : s = 10
    · subst h10
      rw [if_pos rfl, if_pos rfl]
      match p, hlen with
      | [], _ => rfl
      | [k], _ =>
        change (if (6 : Daddr) = 0 then 0 else (Bytes.putLong (n := 512) Bytes.zero 12 7).getLong (4 * k)) = _
        by_cases hk : k = 3
        · subst hk
          rw [if_neg (by decide), if_neg (by simp), if_pos rfl]
          exact Bytes.getLong_putLong_self _ _ _ (by decide)
        · rw [if_neg (by decide), if_neg (by simp), if_neg (by simpa using hk),
            Bytes.getLong_putLong_ne _ _ (by omega), Bytes.getLong_zero]
    · rw [if_neg h10, if_neg h10]
      exact walk_null p

theorem smallFile_path {s : Nat} {p : List Nat} (h : OkPath s p)
    (hne : addrAt smallFile.1 smallFile.2 s p ≠ 0) :
    (s = 0 ∧ p = [] ∧ addrAt smallFile.1 smallFile.2 s p = 5) ∨
      (s = 10 ∧ p = [] ∧ addrAt smallFile.1 smallFile.2 s p = 6) ∨
      (s = 10 ∧ p = [3] ∧ addrAt smallFile.1 smallFile.2 s p = 7) := by
  have haddr := smallFile_addr h
  rw [haddr] at hne ⊢
  split at hne
  · next h0 =>
    subst h0
    exact Or.inl ⟨rfl, List.length_eq_zero_iff.1 (Nat.le_zero.1 h.2.1), rfl⟩
  · split at hne
    · next h10 =>
      subst h10
      split at hne
      · next hp => exact Or.inr (Or.inl ⟨rfl, hp, by rw [hp]; rfl⟩)
      · split at hne
        · next hp => exact Or.inr (Or.inr ⟨rfl, hp, by rw [hp]; rfl⟩)
        · exact absurd rfl hne
    · exact absurd rfl hne

theorem itrunc_frees_smallFile :
    Separate 0 OkPath (addrAt smallFile.1 smallFile.2) ∧
      (itrunc (fun _ => Bytes.zero) ⟨smallFile.1, []⟩ smallFile.2).1.calls.count 7 = 1 := by
  have hsep : Separate 0 OkPath (addrAt smallFile.1 smallFile.2) := by
    intro s p t q hp hq hne heq
    have hne' := hne
    rw [heq] at hne'
    rcases smallFile_path hp hne with ⟨rfl, rfl, h⟩ | ⟨rfl, rfl, h⟩ | ⟨rfl, rfl, h⟩
    all_goals
      rcases smallFile_path hq hne' with ⟨rfl, rfl, h'⟩ | ⟨rfl, rfl, h'⟩ | ⟨rfl, rfl, h'⟩
      all_goals
        first
        | exact ⟨rfl, rfl⟩
        | exact absurd (h.symm.trans (heq.trans h')) (by decide)
  refine ⟨hsep, ?_⟩
  have h7 : Reached smallFile.1 smallFile.2 7 := by
    have hok : OkPath 10 [3] := ⟨by decide, by decide, by decide⟩
    exact ⟨by decide, 10, [3], hok, (smallFile_addr hok).trans rfl⟩
  exact (itrunc_frees _ smallFile.1 smallFile.2 (Or.inl rfl) hsep).1 7 h7

end Venix.Fs
