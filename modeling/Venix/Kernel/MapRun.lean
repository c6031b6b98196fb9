/-
  The size of the kernel's resource maps.

  A map of `CMAPSIZ` or `SMAPSIZ` entries serves the images of the processes, the text segments and
  the arguments of `exec`. A `mfree` of space that touches no free entry takes one more entry, and
  nothing checks that there is one. `Room` is the condition that there is; a run whose releases all
  have room never leaves the table (`map_capacity`), and the 101 images of `alternateImages`,
  fewer than `NPROC`, drive one past its end.
-/
import Venix.Lib.Run
import Venix.Kernel.MapSound
import Venix.Kernel.Text

namespace Venix.Kernel

open Venix.Lib

/-! ## What the kernel does with a map -/

/-- `CMAPSIZ` and `SMAPSIZ`, which are the same. -/
abbrev mapsiz : Nat := 50

/-- What a region of a map is for: a process image, a text segment, the arguments of an `exec`,
    or the test of `fork` that there is swap space. -/
inductive Owner where
  | image
  | text
  | args
  | probe
  deriving DecidableEq, Repr

/-- How many regions of the kind are outstanding at most. -/
def Owner.limit : Owner → Nat
  | image => nproc
  | text => ntext
  | args => nproc
  | probe => 1

structure Held where
  owner : Owner
  size : BitVec 16
  addr : BitVec 16
  deriving DecidableEq, Repr

/-- A map and the regions that are outstanding. -/
structure MapUse where
  tab : List MapEnt
  held : List Held
  deriving DecidableEq, Repr

/-- The table before `startup`. -/
def emptyMap : List MapEnt := List.replicate mapsiz ⟨0, 0⟩

/-- The table after `startup`: one entry for the arena. -/
def startMap (base n : Nat) : List MapEnt :=
  ⟨BitVec.ofNat 16 n, BitVec.ofNat 16 base⟩ :: List.replicate (mapsiz - 1) ⟨0, 0⟩

/-- The loop of `startup` that frees `n` clicks of core from `i` on, one at a time. -/
def freeCore : Nat → BitVec 16 → List MapEnt → Option (List MapEnt)
  | 0, _, tab => some tab
  | n + 1, i, tab =>
    match mfree 1 i tab with
    | none => none
    | some tab => freeCore n (i + 1) tab

inductive MapAct where
  /-- A call of `malloc`. -/
  | alloc (o : Owner) (size : BitVec 16)
  /-- A `mfree` of a whole region. -/
  | release (i : Nat)
  /-- The `mfree` of `expand`, where an image gets smaller. -/
  | shrink (i : Nat) (newsize : BitVec 16)
  deriving DecidableEq, Repr

inductive MapStop where
  /-- A loop left the table. -/
  | overrun
  /-- The kernel makes no such call. -/
  | refused
  deriving DecidableEq, Repr

def mapStep (s : MapUse) : MapAct → Except MapStop (MapUse × BitVec 16)
  | .alloc o size =>
    if 0 < size.toInt ∧ s.held.countP (·.owner = o) < o.limit then
      match malloc size s.tab with
      | none => .error .overrun
      | some (a, tab) =>
        if a = 0 then .ok ({ s with tab := tab }, 0)
        else .ok ({ s with tab := tab, held := ⟨o, size, a⟩ :: s.held }, a)
    else .error .refused
  | .release i =>
    match s.held[i]? with
    | none => .error .refused
    | some r =>
      match mfree r.size r.addr s.tab with
      | none => .error .overrun
      | some tab => .ok ({ s with tab := tab, held := s.held.eraseIdx i }, 0)
  | .shrink i newsize =>
    match s.held[i]? with
    | none => .error .refused
    | some r =>
      if r.owner = .image ∧ 0 < newsize.toInt ∧ newsize ≤ r.size then
        match mfree (r.size - newsize) (r.addr + newsize) s.tab with
        | none => .error .overrun
        | some tab =>
          .ok ({ s with tab := tab, held := s.held.set i { r with size := newsize } }, 0)
      else .error .refused

/-- There is room in the table for a space: it is empty, it touches a free entry, or there are an
    entry for it and one of size 0 to end the table. -/
def Room (tab : List MapEnt) (size a : BitVec 16) : Prop :=
  size = 0 ∨ (∃ s ∈ entries tab, s.hi = a.toNat ∨ a.toNat + size.toNat = s.lo) ∨
    (entries tab).length + 2 ≤ tab.length

instance (tab : List MapEnt) (size a : BitVec 16) : Decidable (Room tab size a) := by
  unfold Room
  infer_instance

/-- A `mfree` has room for the space. -/
def ReleaseFits (s : MapUse) : MapAct → Prop
  | .alloc _ _ => True
  | .release i => ∀ r ∈ s.held[i]?, Room s.tab r.size r.addr
  | .shrink i newsize => ∀ r ∈ s.held[i]?, Room s.tab (r.size - newsize) (r.addr + newsize)

instance (s : MapUse) : ∀ act, Decidable (ReleaseFits s act)
  | .alloc _ _ => .isTrue trivial
  | .release i =>
    match h : s.held[i]? with
    | none => .isTrue (by simp [ReleaseFits, h])
    | some r => decidable_of_iff (Room s.tab r.size r.addr) (by simp [ReleaseFits, h])
  | .shrink i newsize =>
    match h : s.held[i]? with
    | none => .isTrue (by simp [ReleaseFits, h])
    | some r => decidable_of_iff (Room s.tab (r.size - newsize) (r.addr + newsize))
        (by simp [ReleaseFits, h])

/-! ## `startup` -/

/-- A space freed into an empty table. -/
theorem startMap_first (size a : BitVec 16) (hne : size ≠ 0) :
    mfree size a emptyMap = some (⟨size, a⟩ :: List.replicate (mapsiz - 1) ⟨0, 0⟩) := by
  unfold emptyMap mapsiz mfree
  rw [List.replicate_succ, findPlace, if_neg (by simp)]
  dsimp only
  rw [mfreeAt, mfreeApart, if_neg (by simp), if_pos hne, insertEnt, if_neg (by simp)]
  rfl

theorem ofNat_ne_zero {n : Nat} (hn : 0 < n) (hmax : n < 65536) : BitVec.ofNat 16 n ≠ 0 := by
  intro h
  have := congrArg BitVec.toNat h
  simp only [BitVec.toNat_ofNat, BitVec.ofNat_eq_ofNat] at this
  omega

/-- `mfree(swapmap, nswap, 1)`. -/
theorem startMap_swap (n : Nat) (hn : 0 < n) (hmax : n ≤ 32767) :
    mfree (BitVec.ofNat 16 n) 1 emptyMap = some (startMap 1 n) :=
  startMap_first _ _ (ofNat_ne_zero hn (by omega))

/-- A click after the arena so far. -/
theorem startMap_next {base k : Nat} (hk : 0 < k) (hend : base + k < 65536) :
    mfree 1 (BitVec.ofNat 16 (base + k)) (startMap base k) = some (startMap base (k + 1)) := by
  have hne := ofNat_ne_zero hk (by omega)
  have hle : BitVec.ofNat 16 base ≤ BitVec.ofNat 16 (base + k) := by
    rw [BitVec.le_def, BitVec.toNat_ofNat, BitVec.toNat_ofNat]
    omega
  have hsum : BitVec.ofNat 16 base + BitVec.ofNat 16 k = BitVec.ofNat 16 (base + k) :=
    (BitVec.ofNat_add base k).symm
  have hone : BitVec.ofNat 16 k + 1 = BitVec.ofNat 16 (k + 1) := (BitVec.ofNat_add k 1).symm
  unfold startMap mapsiz mfree
  rw [findPlace, if_pos ⟨hle, hne⟩, List.replicate_succ, findPlace, if_neg (by simp)]
  dsimp only
  rw [mfreeAt, if_pos hsum, hone]
  dsimp only
  split
  · rw [shiftDown_zero _ _ rfl, BitVec.ofNat_eq_ofNat, BitVec.add_zero]
    rfl
  · rfl

theorem freeCore_startMap (m : Nat) : ∀ base k, 0 < k → base + k + m ≤ 65536 →
    freeCore m (BitVec.ofNat 16 (base + k)) (startMap base k) = some (startMap base (k + m)) := by
  induction m with
  | zero => exact fun base k _ _ => rfl
  | succ m ih =>
    intro base k hk hkm
    have hnext : BitVec.ofNat 16 (base + k) + 1 = BitVec.ofNat 16 (base + (k + 1)) :=
      (BitVec.ofNat_add (base + k) 1).symm
    rw [freeCore, startMap_next hk (by omega)]
    dsimp only
    rw [hnext, ih base (k + 1) (by omega) (by omega), Nat.add_assoc k 1 m, Nat.add_comm 1 m]

/-- The calls `mfree(coremap, 1, i)` of `startup`. -/
theorem startMap_core (base n : Nat) (hn : 0 < n) (hend : base + n ≤ 65536) :
    freeCore n (BitVec.ofNat 16 base) emptyMap = some (startMap base n) := by
  obtain ⟨m, rfl⟩ : ∃ m, n = m + 1 := ⟨n - 1, by omega⟩
  have hnext : BitVec.ofNat 16 base + 1 = BitVec.ofNat 16 (base + 1) :=
    (BitVec.ofNat_add base 1).symm
  rw [freeCore, startMap_first _ _ (by decide)]
  dsimp only
  rw [hnext, Nat.add_comm m 1]
  exact freeCore_startMap m base 1 (by decide) (by omega)

/-! ## The invariant -/

def Held.space (r : Held) : Set Nat := Kernel.space r.size r.addr

/-- The regions of `l` are within `out` and have no unit in common. -/
structure Owned (out : Set Nat) (l : List Held) : Prop where
  pos : ∀ r ∈ l, 0 < r.size.toInt
  sub : ∀ r ∈ l, r.space ⊆ out
  apart : l.Pairwise fun r r' => Disjoint r.space r'.space

theorem Owned.perm {out : Set Nat} {l l' : List Held} (h : Owned out l) (hp : l.Perm l') :
    Owned out l' := by
  refine ⟨fun r hr => h.pos r (hp.mem_iff.mpr hr), fun r hr => h.sub r (hp.mem_iff.mpr hr), ?_⟩
  exact (hp.pairwise_iff fun hd => hd.symm).mp h.apart

theorem owned_cons {out : Set Nat} {r : Held} {l : List Held} :
    Owned out (r :: l) ↔ 0 < r.size.toInt ∧ r.space ⊆ out ∧ Owned (out \ r.space) l := by
  constructor
  · rintro ⟨hpos, hsub, hap⟩
    obtain ⟨hr, hap⟩ := List.pairwise_cons.mp hap
    refine ⟨hpos r (by simp), hsub r (by simp), fun x hx => hpos x (by simp [hx]), ?_, hap⟩
    exact fun x hx => Set.subset_sdiff.mpr ⟨hsub x (by simp [hx]), (hr x hx).symm⟩
  · rintro ⟨hpos, hsub, hl⟩
    refine ⟨List.forall_mem_cons.mpr ⟨hpos, hl.pos⟩, List.forall_mem_cons.mpr ⟨hsub, ?_⟩,
      List.pairwise_cons.mpr ⟨?_, hl.apart⟩⟩
    · exact fun x hx => (hl.sub x hx).trans Set.sdiff_subset
    · exact fun x hx => (Set.subset_sdiff.mp (hl.sub x hx)).2.symm

theorem Owned.mono {out out' : Set Nat} {l : List Held} (h : Owned out l) (hsub : out ⊆ out') :
    Owned out' l :=
  ⟨h.pos, fun r hr => (h.sub r hr).trans hsub, h.apart⟩

/-- The map is sound, and what is held is outstanding. -/
def UseInv (base n : Nat) (s : MapUse) : Prop :=
  ∃ T out, MapInv base n s.tab T out ∧ Owned out s.held

section Arena

variable {base n : Nat}

theorem start_inv (hn : 0 < n) (hmax : n ≤ 32767) (hb : base < 65536) :
    UseInv base n ⟨startMap base n, []⟩ := by
  have hspan : MapEnt.span ⟨BitVec.ofNat 16 n, BitVec.ofNat 16 base⟩ = ⟨base, n⟩ := by
    unfold MapEnt.span
    rw [BitVec.toNat_ofNat, BitVec.toNat_ofNat, Nat.mod_eq_of_lt hb, Nat.mod_eq_of_lt (by omega)]
  refine ⟨[⟨BitVec.ofNat 16 n, BitVec.ofNat 16 base⟩], ∅, ⟨⟨?_, ⟨0, 0⟩, List.replicate 48 ⟨0, 0⟩,
    rfl, by simp⟩, ?_, Set.empty_subset _⟩, by simp, by simp, List.Pairwise.nil⟩
  · rw [List.map_singleton, hspan, Span.spaced_cons]
    exact ⟨hn, by simp, Span.spaced_nil⟩
  · rw [List.map_singleton, hspan, Span.units_cons, Span.units_nil, Set.union_empty, Set.sdiff_empty]
    rfl

/-- What `malloc` takes was not outstanding. -/
theorem MapInv.alloc_apart {tab T : List MapEnt} {out : Set Nat} (h : MapInv base n tab T out)
    {e : MapEnt} (he : e ∈ T) {size : BitVec 16} (hle : size.toNat ≤ e.span.len) :
    Disjoint out (space size e.mAddr) := by
  rw [Set.disjoint_right]
  rintro x ⟨h1, h2⟩ hx
  have hin : x ∈ Span.units (T.map MapEnt.span) := by
    refine ⟨e.span, List.mem_map_of_mem he, h1, ?_⟩
    unfold Span.hi
    have : e.span.lo = e.mAddr.toNat := rfl
    omega
  rw [h.units] at hin
  exact hin.2 hx

/-- `mfree` of nothing changes nothing. -/
theorem mfree_zero {tab T : List MapEnt} (h : Table tab T) (a : BitVec 16) :
    mfree 0 a tab = some tab := by
  obtain ⟨z, zs, rfl, hz⟩ := h.split
  obtain ⟨T1, T2, rfl, h1, h2, hf⟩ := findPlace_eq a z zs (hz z List.mem_cons_self) T [] h.spaced
  obtain ⟨bp, rest, hbp⟩ : ∃ bp rest, bp :: rest = T2 ++ z :: zs := by
    cases T2 with
    | nil => exact ⟨z, zs, rfl⟩
    | cons q M => exact ⟨q, M ++ z :: zs, rfl⟩
  -- only an entry of size 0 can be at `a`, since the search stops past `a`
  have hat : a + 0 = bp.mAddr → bp.mSize = 0 := by
    intro heq
    cases T2 with
    | nil =>
      cases hbp
      exact hz z List.mem_cons_self
    | cons q M =>
      cases hbp
      have hlt := h2 bp List.mem_cons_self
      rw [BitVec.ofNat_eq_ofNat, BitVec.add_zero] at heq
      exact absurd (congrArg BitVec.toNat heq) (Nat.ne_of_lt hlt)
  have hapart : ∀ before : List MapEnt, mfreeApart 0 a before bp rest =
      some (before.reverse ++ bp :: rest) := by
    intro before
    rw [mfreeApart, if_neg (fun hc => hc.2 (hat hc.1)), if_neg (not_not.mpr rfl)]
  unfold mfree
  rw [hf, ← hbp, List.append_nil]
  dsimp only
  rw [List.append_assoc, ← hbp]
  rcases T1.eq_nil_or_concat' with rfl | ⟨K, p, rfl⟩
  · exact hapart []
  · rw [List.reverse_append, List.reverse_singleton, List.singleton_append, mfreeAt]
    split
    · dsimp only
      split
      · next heq =>
        rw [shiftDown_zero bp rest (hat heq), hat heq]
        simp
      · simp
    · rw [hapart]
      simp

/-- Room as `mfree_spec` has it. -/
theorem Room.table {tab T : List MapEnt} (h : Table tab T) {size a : BitVec 16}
    (hroom : Room tab size a) (hsize : size ≠ 0) :
    T.length + 2 ≤ tab.length ∨
      ∃ e ∈ T, e.span.hi = a.toNat ∨ a.toNat + size.toNat = e.span.lo := by
  unfold Room at hroom
  rw [h.entries_eq, List.length_map] at hroom
  rcases hroom with h0 | ⟨s, hs, htouch⟩ | hlen
  · exact absurd h0 hsize
  · obtain ⟨e, he, rfl⟩ := List.mem_map.mp hs
    exact Or.inr ⟨e, he, htouch⟩
  · exact Or.inl hlen

/-- A `mfree` with room of outstanding units stays within the table. -/
theorem MapInv.mfree_room {tab T : List MapEnt} {out : Set Nat} (h : MapInv base n tab T out)
    (hbase : 0 < base) (hn : n ≤ 32767) (hend : base + n ≤ 65536) {size a : BitVec 16}
    (hsize : size.toNat < 32768) (hout : space size a ⊆ out) (hroom : Room tab size a) :
    ∃ tab' T', Kernel.mfree size a tab = some tab' ∧
      MapInv base n tab' T' (out \ space size a) := by
  by_cases h0 : size = 0
  · subst h0
    refine ⟨tab, T, mfree_zero h.table a, ?_⟩
    have hempty : space 0 a = ∅ := by
      unfold space
      simp
    rw [hempty, Set.sdiff_empty]
    exact h
  · have hpos : 0 < size.toInt := by
      rw [toInt_eq hsize]
      have : size.toNat ≠ 0 := fun hc => h0 (BitVec.eq_of_toNat_eq hc)
      omega
    obtain ⟨tab', hcall, hinv, hrm⟩ := h.mfree hbase hn hend hpos hout
    obtain ⟨T', hT'⟩ := hinv (hrm (hroom.table h.table h0))
    exact ⟨tab', T', hcall, hT'⟩

theorem held_perm {l : List Held} {i : Nat} {r : Held} (h : l[i]? = some r) :
    l.Perm (r :: l.eraseIdx i) := by
  obtain ⟨hi, rfl⟩ := List.getElem?_eq_some_iff.mp h
  exact (List.getElem_cons_eraseIdx_perm hi).symm

theorem held_set_perm {l : List Held} {i : Nat} {r r' : Held} (h : l[i]? = some r) :
    (l.set i r').Perm (r' :: l.eraseIdx i) := by
  obtain ⟨hi, rfl⟩ := List.getElem?_eq_some_iff.mp h
  exact List.set_perm_cons_eraseIdx hi r'

theorem step_alloc {s : MapUse} (hs : UseInv base n s) (hbase : 0 < base) (hn : n ≤ 32767)
    (hend : base + n ≤ 65536) (o : Owner) (size : BitVec 16) :
    mapStep s (.alloc o size) = .error .refused ∨
      ∃ s' a, mapStep s (.alloc o size) = .ok (s', a) ∧ UseInv base n s' := by
  obtain ⟨T, out, hT, hheld⟩ := hs
  rw [mapStep]
  by_cases hcall : 0 < size.toInt ∧ s.held.countP (·.owner = o) < o.limit
  · right
    rw [if_pos hcall]
    rcases hT.malloc hn hend hcall.1 with
      ⟨T1, e, T2, tab', T', rfl, _, hlarge, hres, hinv⟩ | ⟨_, hres⟩
    · have hap := hT.alloc_apart (e := e) (by simp) hlarge
      rw [hres]
      dsimp only
      rw [if_neg (hT.addr_ne hbase e (by simp))]
      refine ⟨_, _, rfl, T', _, hinv, owned_cons.mpr ⟨hcall.1, Set.subset_union_right, ?_⟩⟩
      refine hheld.mono (Set.subset_sdiff.mpr ⟨Set.subset_union_left, ?_⟩)
      exact hap
    · rw [hres]
      dsimp only
      rw [if_pos rfl]
      exact ⟨_, _, rfl, T, out, hT, hheld⟩
  · left
    rw [if_neg hcall]

theorem step_release {s : MapUse} (hs : UseInv base n s) (hbase : 0 < base) (hn : n ≤ 32767)
    (hend : base + n ≤ 65536) (i : Nat) (hfit : ReleaseFits s (.release i)) :
    mapStep s (.release i) = .error .refused ∨
      ∃ s' a, mapStep s (.release i) = .ok (s', a) ∧ UseInv base n s' := by
  obtain ⟨T, out, hT, hheld⟩ := hs
  unfold ReleaseFits at hfit
  rw [mapStep]
  cases hi : s.held[i]? with
  | none => exact Or.inl rfl
  | some r =>
    right
    obtain ⟨hpos, hsub, hrest⟩ := owned_cons.mp (hheld.perm (held_perm hi))
    obtain ⟨tab', T', hres, hinv⟩ := hT.mfree_room hbase hn hend (toNat_of_pos hpos).2.2 hsub
      (hfit r hi)
    dsimp only
    rw [hres]
    exact ⟨_, _, rfl, T', _, hinv, hrest⟩

/-- A region is its front and its back. -/
theorem space_split {r : Held} {newsize : BitVec 16} (hle : newsize ≤ r.size)
    (hend : r.addr.toNat + r.size.toNat ≤ 65536) :
    space newsize r.addr ⊆ r.space ∧ space (r.size - newsize) (r.addr + newsize) ⊆ r.space ∧
      Disjoint (space newsize r.addr) (space (r.size - newsize) (r.addr + newsize)) := by
  have hsub : (r.size - newsize).toNat = r.size.toNat - newsize.toNat := BitVec.toNat_sub_of_le hle
  have hle' : newsize.toNat ≤ r.size.toNat := hle
  have hfront : space newsize r.addr ⊆ r.space := Set.Ico_subset_Ico_right (by omega)
  by_cases hlt : newsize.toNat < r.size.toNat
  · have hadd : (r.addr + newsize).toNat = r.addr.toNat + newsize.toNat :=
      BitVec.toNat_add_of_lt (by omega)
    refine ⟨hfront, ?_, ?_⟩
    · unfold Held.space space
      rw [hsub, hadd]
      exact Set.Ico_subset_Ico (by omega) (by omega)
    · unfold space
      rw [hsub, hadd, Set.Ico_disjoint_Ico]
      omega
  · have hempty : space (r.size - newsize) (r.addr + newsize) = ∅ := by
      unfold space
      rw [hsub, Set.Ico_eq_empty]
      omega
    rw [hempty]
    exact ⟨hfront, Set.empty_subset _, Set.disjoint_empty _⟩

theorem step_shrink {s : MapUse} (hs : UseInv base n s) (hbase : 0 < base) (hn : n ≤ 32767)
    (hend : base + n ≤ 65536) (i : Nat) (newsize : BitVec 16)
    (hfit : ReleaseFits s (.shrink i newsize)) :
    mapStep s (.shrink i newsize) = .error .refused ∨
      ∃ s' a, mapStep s (.shrink i newsize) = .ok (s', a) ∧ UseInv base n s' := by
  obtain ⟨T, out, hT, hheld⟩ := hs
  unfold ReleaseFits at hfit
  rw [mapStep]
  cases hi : s.held[i]? with
  | none => exact Or.inl rfl
  | some r =>
    dsimp only
    by_cases hcall : r.owner = .image ∧ 0 < newsize.toInt ∧ newsize ≤ r.size
    · right
      have hnew := hcall.2.1
      have hle := hcall.2.2
      obtain ⟨hpos, hsub, hrest⟩ := owned_cons.mp (hheld.perm (held_perm hi))
      obtain ⟨_, hp, hlt⟩ := toNat_of_pos hpos
      have hlast : r.addr.toNat + r.size.toNat - 1 ∈ Set.Ico base (base + n) :=
        hT.arena (hsub ⟨by omega, by omega⟩)
      obtain ⟨_, hlast⟩ := hlast
      obtain ⟨hfront, hback, hap⟩ := space_split hle (by omega)
      have hsize : (r.size - newsize).toNat < 32768 := by
        rw [BitVec.toNat_sub_of_le hle]
        omega
      obtain ⟨tab', T', hres, hinv⟩ := hT.mfree_room hbase hn hend hsize (hback.trans hsub)
        (hfit r hi)
      rw [if_pos hcall, hres]
      refine ⟨_, _, rfl, T', _, hinv, Owned.perm ?_ (held_set_perm hi).symm⟩
      refine owned_cons.mpr ⟨hnew, Set.subset_sdiff.mpr ⟨hfront.trans hsub, hap⟩, ?_⟩
      refine hrest.mono fun x hx => ?_
      exact ⟨⟨hx.1, fun hb => hx.2 (hback hb)⟩, fun hf => hx.2 (hfront hf)⟩
    · left
      rw [if_neg hcall]

theorem step_fits {s : MapUse} (hs : UseInv base n s) (hbase : 0 < base) (hn : n ≤ 32767)
    (hend : base + n ≤ 65536) (act : MapAct) (hfit : ReleaseFits s act) :
    mapStep s act = .error .refused ∨ ∃ s' a, mapStep s act = .ok (s', a) ∧ UseInv base n s' := by
  cases act with
  | alloc o size => exact step_alloc hs hbase hn hend o size
  | release i => exact step_release hs hbase hn hend i hfit
  | shrink i newsize => exact step_shrink hs hbase hn hend i newsize hfit

end Arena

/-- **Map capacity.** With the arena not at address 0, a run of the kernel's calls whose `mfree`s
    all have room stays within the table. -/
theorem map_capacity (base n : Nat) (hbase : 0 < base) (hpos : 0 < n) (hn : n ≤ 32767)
    (hend : base + n ≤ 65536) (acts : List MapAct)
    (hfits : Meets mapStep ReleaseFits ⟨startMap base n, []⟩ acts) :
    runs mapStep ⟨startMap base n, []⟩ acts ≠ .error .overrun := by
  refine runs_ne_error ?_ ?_ (start_inv hpos hn (by omega)) hfits
  · intro s i s' o hs hfit hstep
    rcases step_fits hs hbase hn hend i hfit with herr | ⟨s₁, a, hok, hinv⟩
    · rw [herr] at hstep
      cases hstep
    · rw [hok] at hstep
      cases hstep
      exact hinv
  · intro s i hs hfit hstep
    rcases step_fits hs hbase hn hend i hfit with herr | ⟨s₁, a, hok, _⟩
    · rw [herr] at hstep
      cases hstep
    · rw [hok] at hstep
      cases hstep

/-- Two images of three blocks, and the first of them released and a part of the second. -/
theorem map_capacity_two :
    runs mapStep ⟨startMap 1 100, []⟩
      [.alloc .image 3, .alloc .image 3, .release 1, .shrink 0 2] ≠ .error .overrun :=
  map_capacity 1 100 (by decide) (by decide) (by decide) (by decide) _ (by decide)

/-- 101 images of three blocks each fill the arena. Every second one after the first is released
    from the front on, and then the first one. -/
def alternateImages : List MapAct :=
  List.replicate 101 (.alloc .image 3) ++
    (List.range 50).map (fun k => .release (98 - 2 * k)) ++ [.release 50]

/-- The released spaces do not touch, and the last one is the 51st entry. -/
theorem alternateImages_overrun :
    runs mapStep ⟨startMap 1 303, []⟩ alternateImages = .error .overrun := by
  decide +kernel

end Venix.Kernel
