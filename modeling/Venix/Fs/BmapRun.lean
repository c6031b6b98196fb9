/-
  `bmap` over sequences of calls on one file.

  `mapping st bn` is what a `B_READ` call returns; it is `-1` where the block is not mapped.
  `BmapSound` collects what holds at a state of a file: no sharing between logical blocks or
  with indirect blocks, what a write and a read leave alone, and what a write that runs out of
  space leaves behind. `bmap_sequence`: it holds after every sequence of calls on a file that
  started empty on a well-formed free list.
-/
import Venix.Fs.BmapTree

namespace Venix.Fs

open Venix.Lib

/-- A file on its volume. -/
abbrev File := Vol × Inode

structure BmapCall where
  bn : Int
  rw : Rwflg

/-- The volume at the start of a system call. -/
def Vol.clearError (v : Vol) : Vol := { v with uError := none }

/-- One call, with `u_error` clear before it. -/
def bmapStep (st : File) (c : BmapCall) : File × Daddr :=
  let r := bmap st.1.clearError st.2 c.bn c.rw
  ((r.2.1, r.2.2), r.1)

/-- What a `B_READ` call returns. -/
def mapping (st : File) (bn : Nat) : Daddr := (bmapStep st ⟨bn, .bRead⟩).2

/-- `b` is a block of the file, at some path of the tree. -/
def Reachable (st : File) (b : Daddr) : Prop :=
  b ≠ 0 ∧ ∃ s p, OkPath s p ∧ addrAt st.1 st.2 s p = b

/-- `b` is an indirect block of the file. -/
def Indirect (st : File) (b : Daddr) : Prop :=
  b ≠ 0 ∧ ∃ s p, OkPath s p ∧ p.length < s - 9 ∧ addrAt st.1 st.2 s p = b

/-- An inode with no blocks. -/
def EmptyFile (ip : Inode) : Prop :=
  (ip.iType = .ifreg ∨ ip.iType = .ifdir) ∧ ∀ s, s < naddr → ip.iAddr.get s = 0

structure BmapSound (st : File) : Prop where
  /-- Distinct mapped logical blocks are distinct blocks. -/
  distinct : ∀ b c, b < maxBn → c < maxBn → mapping st b ≠ -1 → mapping st b = mapping st c →
    b = c
  /-- and none of them is an indirect block. -/
  notIndirect : ∀ b, b < maxBn → mapping st b ≠ -1 → ¬ Indirect st (mapping st b)
  /-- What a write returns a read then finds. -/
  writeRead : ∀ b, b < maxBn → (bmapStep st ⟨b, .bWrite⟩).2 ≠ -1 →
    mapping (bmapStep st ⟨b, .bWrite⟩).1 b = (bmapStep st ⟨b, .bWrite⟩).2
  /-- A write leaves every other logical block alone. -/
  others : ∀ b c, b < maxBn → c < maxBn → c ≠ b →
    mapping (bmapStep st ⟨b, .bWrite⟩).1 c = mapping st c
  /-- A read returns `-1` exactly where the tree has no block, -/
  unmapped : ∀ b, b < maxBn → ((bmapStep st ⟨b, .bRead⟩).2 = -1 ↔ blockOf st.1 st.2 b = 0)
  /-- and changes neither the inode nor any block. -/
  readOnly : ∀ b, b < maxBn → (bmapStep st ⟨b, .bRead⟩).1.2 = st.2 ∧
    (bmapStep st ⟨b, .bRead⟩).1.1.disk = st.1.disk
  /-- A write without space leaves all mappings alone, and what it took is in the file. -/
  nospace : ∀ b, b < maxBn → (bmapStep st ⟨b, .bWrite⟩).1.1.uError = some .enospc →
    (bmapStep st ⟨b, .bWrite⟩).2 = -1 ∧
    (∀ c, c < maxBn → mapping (bmapStep st ⟨b, .bWrite⟩).1 c = mapping st c) ∧
    ∀ L L', FreeList st.1 L → FreeList (bmapStep st ⟨b, .bWrite⟩).1.1 L' →
      ∀ a ∈ L, a ∉ L' → Reachable (bmapStep st ⟨b, .bWrite⟩).1 a

/-! ## One call -/

theorem Chain.unique {disk : Daddr → Block} {n : Int} {free : Arr Daddr nicfree}
    {L L' : List Daddr} (h : Chain disk n free L) (h' : Chain disk n free L') : L = L' := by
  induction h generalizing L' with
  | last h1 h50 hend =>
    cases h' with
    | last => rfl
    | link _ _ hlink _ => exact absurd hend hlink
  | link h1 h50 hlink hrest ih =>
    cases h' with
    | last _ _ hend => exact absurd hend hlink
    | link _ _ _ hrest' => rw [ih hrest']

/-- The free list is a function of the volume. -/
theorem FreeList.unique {v : Vol} {L L' : List Daddr} (h : FreeList v L) (h' : FreeList v L') :
    L = L' := by
  rcases h.chain with ⟨h0, rfl⟩ | hc <;> rcases h'.chain with ⟨h0', rfl⟩ | hc'
  · rfl
  · have := hc'.bounds; omega
  · have := hc.bounds; omega
  · exact hc.unique hc'

theorem Mapped.clearError {v : Vol} {ip : Inode} {L : List Daddr} (h : Mapped v ip L) (s : Nat)
    (t : List Nat) : Grown v ip L v.clearError ip L s t :=
  Grown.of_same_disk h v.clearError rfl rfl s t

theorem neg_one_not_inRange {sb : Filsys} : ¬ InRange sb (-1) := by
  intro h
  have := h.1
  simp at this
  omega

/-- `mapping` is the block of the tree, with `-1` for an empty slot. -/
theorem mapping_eq (st : File) {bn : Nat} (hbn : bn < maxBn) :
    mapping st bn = if blockOf st.1 st.2 bn = 0 then -1 else blockOf st.1 st.2 bn := by
  obtain ⟨r, hr⟩ := bmap_read st.1.clearError st.2 hbn
  unfold mapping bmapStep
  dsimp only
  rw [hr]
  rfl

theorem mapping_of_ne {st : File} {bn : Nat} (hbn : bn < maxBn) (h : blockOf st.1 st.2 bn ≠ 0) :
    mapping st bn = blockOf st.1 st.2 bn := by
  rw [mapping_eq st hbn, if_neg h]

theorem blockOf_of_mapped {st : File} {bn : Nat} (hbn : bn < maxBn) (h : mapping st bn ≠ -1) :
    blockOf st.1 st.2 bn ≠ 0 := by
  intro h0
  exact h (by rw [mapping_eq st hbn, if_pos h0])

theorem mapping_congr {st st' : File} {bn : Nat} (hbn : bn < maxBn)
    (h : blockOf st'.1 st'.2 bn = blockOf st.1 st.2 bn) : mapping st' bn = mapping st bn := by
  rw [mapping_eq st hbn, mapping_eq st' hbn, h]

/-- A block of the tree is never `-1`. -/
theorem Mapped.blockOf_ne {v : Vol} {ip : Inode} {L : List Daddr} (h : Mapped v ip L) {bn : Nat}
    (hbn : bn < maxBn) : blockOf v ip bn ≠ -1 := by
  intro he
  by_cases h0 : blockOf v ip bn = 0
  · rw [h0] at he
    exact absurd he (by decide)
  · have := (h.busy _ _ (bmapPath_ok hbn).1 h0).1
    unfold blockOf at he
    rw [he] at this
    exact neg_one_not_inRange this

/-- Other logical blocks are not on the way to `bn`. -/
theorem Grown.blockOf_eq {v v' : Vol} {ip ip' : Inode} {L L' : List Daddr} {b c : Nat}
    (hb : b < maxBn) (hc : c < maxBn) (hne : c ≠ b)
    (h : Grown v ip L v' ip' L' (bmapPath b).1 (bmapPath b).2) :
    blockOf v' ip' c = blockOf v ip c := by
  refine h.off _ _ (bmapPath_ok hc).1 ?_
  rintro ⟨hs, hsuf⟩
  have hlen : (bmapPath c).2.length = (bmapPath b).2.length := by
    rw [(bmapPath_ok hb).2, (bmapPath_ok hc).2, hs]
  exact hne (bmapPath_inj hc hb (Prod.ext hs (hsuf.eq_of_length hlen)))

/-- Every call, with any block number, keeps the invariant. -/
theorem bmapStep_mapped {st : File} {L : List Daddr} (h : Mapped st.1 st.2 L) (c : BmapCall) :
    ∃ L', Mapped (bmapStep st c).1.1 (bmapStep st c).1.2 L' := by
  by_cases hbn : c.bn < 0 ∨ maxBn ≤ c.bn
  · obtain ⟨r, hr⟩ := bmap_efbig st.1.clearError st.2 c.rw hbn
    unfold bmapStep
    rw [hr]
    exact ⟨L, (Grown.of_same_disk h
      { st.1.clearError with uError := some .efbig, rablock := r } rfl rfl 0 []).mapped⟩
  obtain ⟨n, hn⟩ : ∃ n : Nat, c.bn = n := ⟨c.bn.toNat, by omega⟩
  have hn' : n < maxBn := by omega
  unfold bmapStep
  rw [hn]
  cases hrw : c.rw with
  | bRead =>
    obtain ⟨r, hr⟩ := bmap_read st.1.clearError st.2 hn'
    rw [hr]
    exact ⟨L, (Grown.of_same_disk h { st.1.clearError with rablock := r } rfl rfl 0 []).mapped⟩
  | bWrite =>
    obtain ⟨a, v', ip', L', hr, hg, _⟩ := bmap_write (h.clearError 0 []).mapped hn'
    rw [hr]
    exact ⟨L', hg.mapped⟩

theorem Mapped.sound {st : File} {L : List Daddr} (h : Mapped st.1 st.2 L) : BmapSound st := by
  have hw : ∀ b, b < maxBn → ∃ a v' ip' L',
      bmapStep st ⟨b, .bWrite⟩ = ((v', ip'), a) ∧
      Grown st.1 st.2 L v' ip' L' (bmapPath b).1 (bmapPath b).2 ∧
      ((a = blockOf v' ip' b ∧ a ≠ 0 ∧ v'.uError = none) ∨
        (a = -1 ∧ blockOf v' ip' b = 0 ∧ v'.uError = some .enospc)) := by
    intro b hb
    obtain ⟨a, v', ip', L', hr, hg, hres⟩ := bmap_write (h.clearError 0 []).mapped hb
    exact ⟨a, v', ip', L', by unfold bmapStep; rw [hr], (h.clearError _ _).trans hg, hres⟩
  constructor
  · intro b c hb hc hm he
    have h0 := blockOf_of_mapped hb hm
    have h0' := blockOf_of_mapped hc (he ▸ hm)
    rw [mapping_of_ne hb h0, mapping_of_ne hc h0'] at he
    obtain ⟨e1, e2⟩ := h.sep _ _ _ _ (bmapPath_ok hb).1 (bmapPath_ok hc).1 h0 he
    exact bmapPath_inj hb hc (Prod.ext e1 e2)
  · rintro b hb hm ⟨_, s, p, hp, hlen, he⟩
    have h0 := blockOf_of_mapped hb hm
    rw [mapping_of_ne hb h0] at he
    obtain ⟨e1, e2⟩ := h.sep _ _ _ _ (bmapPath_ok hb).1 hp h0 he.symm
    have := (bmapPath_ok hb).2
    rw [e1, e2] at this
    omega
  · intro b hb hne
    obtain ⟨a, v', ip', L', hr, hg, hres⟩ := hw b hb
    rw [hr] at hne ⊢
    rcases hres with ⟨ha, h0, _⟩ | ⟨ha, _, _⟩
    · rw [ha] at h0
      rw [mapping_of_ne hb h0]
      exact ha.symm
    · exact absurd ha hne
  · intro b c hb hc hne
    obtain ⟨a, v', ip', L', hr, hg, hres⟩ := hw b hb
    rw [hr]
    exact mapping_congr hc (hg.blockOf_eq hb hc hne)
  · intro b hb
    change mapping st b = -1 ↔ _
    rw [mapping_eq st hb]
    split
    · next h0 => exact ⟨fun _ => h0, fun _ => rfl⟩
    · next h0 => exact ⟨fun he => absurd he (h.blockOf_ne hb), fun he => absurd he h0⟩
  · intro b hb
    obtain ⟨r, hr⟩ := bmap_read st.1.clearError st.2 hb
    unfold bmapStep
    rw [hr]
    exact ⟨rfl, rfl⟩
  · intro b hb hu
    obtain ⟨a, v', ip', L', hr, hg, hres⟩ := hw b hb
    rw [hr] at hu ⊢
    rcases hres with ⟨_, _, hu'⟩ | ⟨ha, h0, _⟩
    · rw [hu'] at hu
      exact absurd hu (by simp)
    refine ⟨ha, ?_, ?_⟩
    · intro c hc
      by_cases hcb : c = b
      · -- the block was not mapped before either, or the call would have kept it
        subst hcb
        refine mapping_congr hc (h0.trans ?_)
        by_contra hne
        exact (Ne.symm hne) ((hg.keep _ _ (bmapPath_ok hc).1 (Ne.symm hne)).symm.trans h0)
      · exact mapping_congr hc (hg.blockOf_eq hb hc hcb)
    · intro K K' hK hK' x hx hx'
      obtain rfl : K = L := hK.unique h.free
      obtain rfl : K' = L' := hK'.unique hg.mapped.free
      obtain ⟨T, hT, hin⟩ := hg.taken
      rw [hT] at hx
      rcases List.mem_append.mp hx with hx | hx
      · obtain ⟨hx0, q, hq, hqx⟩ := hin x hx
        exact ⟨hx0, _, q, hq, hqx⟩
      · exact absurd hx hx'

/-! ## Sequences of calls -/

theorem EmptyFile.addrAt_eq_zero {ip : Inode} (hip : EmptyFile ip) (v : Vol) {s : Nat}
    {p : List Nat} (hp : OkPath s p) : addrAt v ip s p = 0 := by
  have hroot : addrAt v ip s [] = 0 := hip.2 s hp.1
  have := PtrTree.lookup_append_eq_zero p hroot
  rwa [List.append_nil] at this

theorem EmptyFile.mapped {v : Vol} {ip : Inode} {L : List Daddr} (hv : FreeList v L)
    (hip : EmptyFile ip) : Mapped v ip L := by
  refine ⟨hv, ?_, ?_⟩
  · intro s p s' p' hp _ hne
    exact absurd (hip.addrAt_eq_zero v hp) hne
  · intro s p hp hne
    exact absurd (hip.addrAt_eq_zero v hp) hne

/-- **The block map of a file.** After every sequence of `bmap` calls on a file that was empty
    at the start, with any block numbers, the properties of `BmapSound` hold. -/
theorem bmap_sequence (v : Vol) (ip : Inode) (L : List Daddr) (calls : List BmapCall)
    (hv : FreeList v L) (hip : EmptyFile ip) :
    BmapSound (exec bmapStep (v, ip) calls).1 := by
  have hstep : ∀ (st : File) (c : BmapCall), (∃ L', Mapped st.1 st.2 L') →
      ∃ L', Mapped (bmapStep st c).1.1 (bmapStep st c).1.2 L' := by
    rintro st c ⟨L', h⟩
    exact bmapStep_mapped h c
  obtain ⟨L', h⟩ := exec_inv hstep (v, ip) calls ⟨L, hip.mapped hv⟩
  exact h.sound

/-- A regular file without blocks. -/
def emptyInode : Inode := ⟨0, .ifreg, 0, fun _ => 0, 0⟩

theorem emptyFile_emptyInode : EmptyFile emptyInode :=
  ⟨Or.inl rfl, fun _ hs => Arr.get_const 0 hs⟩

theorem freeList_oneBlock : FreeList (free emptyVol 5 Bytes.zero) [5] := by
  obtain ⟨_, _, _, h, _, _⟩ := free_cons freeList_emptyVol (b := 5) (by decide) (by simp) Bytes.zero
  exact h

/-- With one free block, a direct block is added and a double indirect one is not. -/
theorem bmap_sequence_oneBlock :
    FreeList (free emptyVol 5 Bytes.zero) [5] ∧ EmptyFile emptyInode ∧
      BmapSound (exec bmapStep (free emptyVol 5 Bytes.zero, emptyInode)
        [⟨3, .bWrite⟩, ⟨3, .bRead⟩, ⟨2000, .bWrite⟩]).1 :=
  ⟨freeList_oneBlock, emptyFile_emptyInode,
    bmap_sequence _ _ _ _ freeList_oneBlock emptyFile_emptyInode⟩

end Venix.Fs
