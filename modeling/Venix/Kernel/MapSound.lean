/-
  The kernel's resource maps stay sorted and coalesced.

  `entries` reads a map up to its terminator. `MapSound`: the entries are spaced, they are the
  arena less what is outstanding, and only entries of size 0 follow them. `malloc_spec` and
  `mfree_spec` say what the two operations do to the entries; `map_reachable` is the result for
  every sequence of calls that does not overflow the table.
-/
import Venix.Lib.Spans
import Venix.Kernel.Map

namespace Venix.Kernel

open Venix.Lib

/-! ## The entries of a map -/

def MapEnt.span (e : MapEnt) : Span := ⟨e.mAddr.toNat, e.mSize.toNat⟩

/-- The entries before the first one of size 0. -/
def entries (tab : List MapEnt) : List Span :=
  (tab.takeWhile fun e => e.mSize ≠ 0).map MapEnt.span

/-- `tab` holds the entries `T`, ended by an entry of size 0, and nothing after that. -/
structure Table (tab T : List MapEnt) : Prop where
  spaced : Span.Spaced (T.map MapEnt.span)
  split : ∃ z zs, tab = T ++ z :: zs ∧ ∀ e ∈ z :: zs, e.mSize = 0

theorem size_ne_zero {e : MapEnt} : e.mSize ≠ 0 ↔ 0 < e.span.len := by
  unfold MapEnt.span
  rw [Nat.pos_iff_ne_zero, not_iff_not, ← BitVec.toNat_inj]
  rfl

theorem Table.size_ne {tab T : List MapEnt} (h : Table tab T) : ∀ e ∈ T, e.mSize ≠ 0 := by
  intro e he
  exact size_ne_zero.mpr (h.spaced.1 _ (List.mem_map_of_mem he))

theorem Table.entries_eq {tab T : List MapEnt} (h : Table tab T) :
    entries tab = T.map MapEnt.span := by
  obtain ⟨z, zs, rfl, hz⟩ := h.split
  unfold entries
  rw [List.takeWhile_append_of_pos (by simpa using h.size_ne), List.takeWhile_cons_of_neg]
  · rw [List.append_nil]
  · simpa using hz z List.mem_cons_self

/-! ## The loops -/

theorem closeGap_eq (z : MapEnt) (zs : List MapEnt) (hz : z.mSize = 0) (T : List MapEnt) :
    ∀ bp : MapEnt, (∀ e ∈ T, e.mSize ≠ 0) →
    closeGap (bp :: (T ++ z :: zs)) = some (T ++ z :: z :: zs) := by
  induction T with
  | nil =>
    intro bp _
    rw [List.nil_append, closeGap, if_neg (not_not.mpr hz)]
    rfl
  | cons e T ih =>
    intro bp hT
    rw [List.cons_append, closeGap, if_pos (hT e List.mem_cons_self),
      ih e (fun x hx => hT x (List.mem_cons_of_mem _ hx))]
    rfl

theorem shiftDown_zero (z : MapEnt) (zs : List MapEnt) (hz : z.mSize = 0) :
    shiftDown (z :: zs) = some (z :: zs) := by
  cases zs <;> simp [shiftDown, hz]

theorem shiftDown_eq (z : MapEnt) (zs : List MapEnt) (hz : z.mSize = 0) (T : List MapEnt) :
    ∀ bp : MapEnt, bp.mSize ≠ 0 → (∀ e ∈ T, e.mSize ≠ 0) →
    shiftDown (bp :: (T ++ z :: zs)) = some (T ++ z :: z :: zs) := by
  induction T with
  | nil =>
    intro bp hbp _
    rw [List.nil_append, shiftDown, if_pos hbp, shiftDown_zero z zs hz]
    rfl
  | cons e T ih =>
    intro bp hbp hT
    have he := hT e List.mem_cons_self
    rw [List.cons_append, shiftDown, if_pos hbp, ih e he (fun x hx => hT x (List.mem_cons_of_mem _ hx))]
    rfl

theorem insertEnt_eq (z : MapEnt) (zs : List MapEnt) (hz : z.mSize = 0) (T : List MapEnt) :
    ∀ size a : BitVec 16, (∀ e ∈ T, e.mSize ≠ 0) →
    insertEnt size a (T ++ z :: zs) = some (⟨size, a⟩ :: T ++ zs) := by
  induction T with
  | nil =>
    intro size a _
    rw [List.nil_append, insertEnt, if_neg (not_not.mpr hz)]
    rfl
  | cons e T ih =>
    intro size a hT
    rw [List.cons_append, insertEnt, if_pos (hT e List.mem_cons_self),
      ih _ _ (fun x hx => hT x (List.mem_cons_of_mem _ hx))]
    rfl

theorem findPlace_eq (a : BitVec 16) (z : MapEnt) (zs : List MapEnt) (hz : z.mSize = 0)
    (T : List MapEnt) : ∀ before : List MapEnt, Span.Spaced (T.map MapEnt.span) →
    ∃ T1 T2, T = T1 ++ T2 ∧ (∀ e ∈ T1, e.span.lo ≤ a.toNat) ∧ (∀ e ∈ T2, a.toNat < e.span.lo) ∧
      findPlace a before (T ++ z :: zs) = some (T1.reverse ++ before, T2 ++ z :: zs) := by
  induction T with
  | nil =>
    intro before _
    refine ⟨[], [], rfl, by simp, by simp, ?_⟩
    rw [List.nil_append, findPlace, if_neg (fun h => h.2 hz)]
    rfl
  | cons e T ih =>
    intro before hs
    rw [List.map_cons, Span.spaced_cons] at hs
    obtain ⟨hlen, hlt, hs⟩ := hs
    by_cases hle : e.mAddr ≤ a
    · obtain ⟨T1, T2, rfl, h1, h2, hf⟩ := ih (e :: before) hs
      refine ⟨e :: T1, T2, rfl, ?_, h2, ?_⟩
      · intro x hx
        rcases List.mem_cons.mp hx with rfl | hx
        · exact hle
        · exact h1 x hx
      · rw [List.cons_append, findPlace, if_pos ⟨hle, size_ne_zero.mpr hlen⟩, hf,
          List.reverse_cons, List.append_assoc]
        rfl
    · have hlo : a.toNat < e.span.lo := BitVec.not_le.mp hle
      refine ⟨[], e :: T, rfl, by simp, ?_, ?_⟩
      · intro x hx
        rcases List.mem_cons.mp hx with rfl | hx
        · exact hlo
        · have := hlt _ (List.mem_map_of_mem hx)
          unfold Span.hi at this
          omega
      · rw [List.cons_append, findPlace, if_neg (fun h => hle h.1)]
        rfl

/-! ## `malloc` -/

/-- Sizes fit in a `short` and spaces end at or below the last address. -/
def Fits (T : List MapEnt) : Prop := ∀ e ∈ T, e.span.len < 32768 ∧ e.span.hi ≤ 65536

theorem toInt_eq {size : BitVec 16} (h : size.toNat < 32768) : size.toInt = size.toNat := by
  rw [BitVec.toInt_eq_toNat_cond, if_pos (by omega)]

theorem toNat_of_pos {size : BitVec 16} (h : 0 < size.toInt) :
    size.toInt = size.toNat ∧ 0 < size.toNat ∧ size.toNat < 32768 := by
  rw [BitVec.toInt_eq_toNat_cond] at h ⊢
  have := size.isLt
  split at h <;> omega

/-- Entries that are too small are passed over. -/
theorem malloc_skip {size : BitVec 16} (hsize : 0 < size.toInt) (T1 rest : List MapEnt)
    (h : ∀ e ∈ T1, e.mSize ≠ 0 ∧ e.span.len < size.toNat) :
    malloc size (T1 ++ rest) = (malloc size rest).map fun r => (r.1, T1 ++ r.2) := by
  obtain ⟨hi, hpos, hlt⟩ := toNat_of_pos hsize
  induction T1 with
  | nil => simp
  | cons e T1 ih =>
    obtain ⟨hne, hlen⟩ := h e List.mem_cons_self
    have hsmall : ¬ e.mSize.toInt ≥ size.toInt := by
      unfold MapEnt.span at hlen
      dsimp only at hlen
      rw [toInt_eq (by omega)]
      omega
    rw [List.cons_append, malloc, if_pos hne, if_neg hsmall,
      ih (fun x hx => h x (List.mem_cons_of_mem _ hx)), Option.map_map]
    rfl

/-- `malloc` takes the front of the first entry that is large enough. -/
theorem malloc_spec {tab T1 T2 : List MapEnt} {e : MapEnt} (h : Table tab (T1 ++ e :: T2))
    (hfit : Fits (T1 ++ e :: T2)) {size : BitVec 16} (hsize : 0 < size.toInt)
    (hsmall : ∀ x ∈ T1, x.span.len < size.toNat) (hlarge : size.toNat ≤ e.span.len) :
    ∃ tab' T', malloc size tab = some (e.mAddr, tab') ∧ Table tab' T' ∧
      Span.units (T'.map MapEnt.span) = Span.units ((T1 ++ e :: T2).map MapEnt.span) \
        Set.Ico e.span.lo (e.span.lo + size.toNat) := by
  obtain ⟨hi, hpos, hlt⟩ := toNat_of_pos hsize
  have hne := h.size_ne
  obtain ⟨z, zs, rfl, hz⟩ := h.split
  obtain ⟨hel, heh⟩ := hfit e (by simp)
  have hspaced := h.spaced
  rw [List.map_append, List.map_cons] at hspaced ⊢
  obtain ⟨hs0, hs1, hunits⟩ := hspaced.remove_front hlarge
  rw [List.append_assoc, List.cons_append, malloc_skip hsize _ _
    (fun x hx => ⟨hne x (by simp [hx]), hsmall x hx⟩)]
  have hge : e.mSize.toInt ≥ size.toInt := by
    unfold MapEnt.span at hel hlarge
    dsimp only at hel hlarge
    rw [toInt_eq hel]
    omega
  rw [malloc, if_pos (hne e (by simp)), if_pos hge]
  dsimp only
  by_cases hexact : e.mSize - size = 0
  · have hlen : e.span.len = size.toNat := by
      have : e.mSize = 0#16 + size := BitVec.sub_eq_iff_eq_add.mp hexact
      rw [BitVec.zero_add] at this
      unfold MapEnt.span
      rw [this]
    rw [if_pos hexact, closeGap_eq z zs (hz z List.mem_cons_self) T2 _
      (fun x hx => hne x (by simp [hx]))]
    refine ⟨_, T1 ++ T2, rfl, ⟨by rwa [List.map_append], z, z :: zs, by simp, ?_⟩, ?_⟩
    · simpa using hz
    · rw [← hunits, hlen, Nat.sub_self, List.map_append, Span.units_append, Span.units_append,
        Span.units_cons, Span.hi]
      simp
  · have hlt' : size.toNat < e.span.len := by
      refine Nat.lt_of_le_of_ne hlarge (fun he => hexact ?_)
      rw [BitVec.eq_of_toNat_eq he]
      exact BitVec.sub_self _
    have hspan : MapEnt.span ⟨e.mSize - size, e.mAddr + size⟩ =
        ⟨e.span.lo + size.toNat, e.span.len - size.toNat⟩ := by
      unfold MapEnt.span Span.hi at *
      dsimp only at *
      rw [BitVec.toNat_sub_of_le hlarge, BitVec.toNat_add_of_lt (by omega)]
    rw [if_neg hexact]
    refine ⟨_, T1 ++ ⟨e.mSize - size, e.mAddr + size⟩ :: T2, rfl, ⟨?_, z, zs, by simp, hz⟩, ?_⟩
    · rw [List.map_append, List.map_cons, hspan]
      exact hs1 hlt'
    · rw [List.map_append, List.map_cons, hspan, hunits]

theorem malloc_none {tab T : List MapEnt} (h : Table tab T) {size : BitVec 16}
    (hsize : 0 < size.toInt) (hsmall : ∀ x ∈ T, x.span.len < size.toNat) :
    malloc size tab = some (0, tab) := by
  have hne := h.size_ne
  obtain ⟨z, zs, rfl, hz⟩ := h.split
  rw [malloc_skip hsize T _ (fun x hx => ⟨hne x hx, hsmall x hx⟩), malloc,
    if_neg (not_not.mpr (hz z List.mem_cons_self))]
  rfl

/-! ## `mfree` -/

/-- A table after `mfree`: full, where it is out of entries of size 0. -/
structure TableFull (tab T : List MapEnt) : Prop where
  spaced : Span.Spaced (T.map MapEnt.span)
  split : ∃ zs, tab = T ++ zs ∧ ∀ e ∈ zs, e.mSize = 0

theorem TableFull.table {tab T : List MapEnt} (h : TableFull tab T) (hz : ∃ e ∈ tab, e.mSize = 0) :
    Table tab T := by
  refine ⟨h.spaced, ?_⟩
  obtain ⟨zs, rfl, hzs⟩ := h.split
  cases zs with
  | cons z zs => exact ⟨z, zs, rfl, hzs⟩
  | nil =>
    obtain ⟨e, he, h0⟩ := hz
    rw [List.append_nil] at he
    exact absurd h0 (size_ne_zero.mpr (h.spaced.1 _ (List.mem_map_of_mem he)))

section Mfree

variable {T1 T2 : List MapEnt} {size a : BitVec 16} {z : MapEnt} {zs : List MapEnt}

/-- What `mfree` knows after the search: the space is between `T1` and `T2`. -/
structure Place (T1 T2 : List MapEnt) (size a : BitVec 16) : Prop where
  spaced : Span.Spaced (T1.map MapEnt.span ++ T2.map MapEnt.span)
  size_pos : 0 < size.toNat
  addr_pos : 0 < a.toNat
  fits : a.toNat + size.toNat ≤ 65536
  before : ∀ e ∈ T1, 0 < e.span.lo ∧ e.span.hi ≤ a.toNat
  after : ∀ e ∈ T2, a.toNat + size.toNat ≤ e.span.lo ∧ e.span.hi ≤ 65536

theorem addr_eq_iff {x y : BitVec 16} {e : MapEnt} (h : x.toNat + y.toNat ≤ e.span.lo) :
    x + y = e.mAddr ↔ x.toNat + y.toNat = e.span.lo := by
  have := e.mAddr.isLt
  rw [← BitVec.toNat_inj, BitVec.toNat_add_of_lt (Nat.lt_of_le_of_lt h this)]
  rfl

/-- Entries after one that begins past `n` begin past `n`. -/
theorem lt_lo_of_head {q : MapEnt} {M : List MapEnt} {n : Nat}
    (hs : Span.Spaced ((q :: M).map MapEnt.span)) (hq : n < q.span.lo) :
    ∀ e ∈ q :: M, n < e.span.lo := by
  intro e he
  rcases List.mem_cons.mp he with rfl | he
  · exact hq
  · have := ((Span.spaced_cons _ _).mp hs).2.1 _ (List.mem_map_of_mem he)
    unfold Span.hi at this
    omega

/-- No entry to the right is touched, or the first one is and takes the space. -/
theorem Place.right (h : Place T1 T2 size a) (hz : z.mSize = 0) {bp : MapEnt}
    {rest : List MapEnt} (hbp : bp :: rest = T2 ++ z :: zs) :
    (¬ (a + size = bp.mAddr ∧ bp.mSize ≠ 0) ∧ ∀ e ∈ T2, a.toNat + size.toNat < e.span.lo) ∨
      ∃ M, T2 = bp :: M ∧ rest = M ++ z :: zs ∧ a + size = bp.mAddr ∧ bp.mSize ≠ 0 ∧
        a.toNat + size.toNat = bp.span.lo := by
  obtain ⟨_, hs2, _⟩ := (Span.spaced_append _ _).mp h.spaced
  cases T2 with
  | nil =>
    rw [List.nil_append, List.cons.injEq] at hbp
    left
    exact ⟨fun hc => hc.2 (hbp.1 ▸ hz), by simp⟩
  | cons q M =>
    rw [List.cons_append, List.cons.injEq] at hbp
    obtain ⟨rfl, rfl⟩ := hbp
    have hle := (h.after bp List.mem_cons_self).1
    have hne : bp.mSize ≠ 0 := size_ne_zero.mpr (hs2.1 _ (by simp))
    by_cases heq : a.toNat + size.toNat = bp.span.lo
    · exact Or.inr ⟨M, rfl, rfl, (addr_eq_iff hle).mpr heq, hne, heq⟩
    · left
      exact ⟨fun hc => heq ((addr_eq_iff hle).mp hc.1), lt_lo_of_head hs2 (by omega)⟩

theorem mfreeApart_spec (h : Place T1 T2 size a) (hz : ∀ e ∈ z :: zs, e.mSize = 0)
    (hapart : ∀ e ∈ T1, e.span.hi < a.toNat) {bp : MapEnt} {rest : List MapEnt}
    (hbp : bp :: rest = T2 ++ z :: zs) :
    ∃ tab' T', mfreeApart size a T1.reverse bp rest = some tab' ∧ TableFull tab' T' ∧
      Span.units (T'.map MapEnt.span) = Span.units (T1.map MapEnt.span ++ T2.map MapEnt.span) ∪
        Set.Ico a.toNat (a.toNat + size.toNat) ∧
      (zs ≠ [] ∨ (∃ e ∈ T2, a.toNat + size.toNat = e.span.lo) → ∃ e ∈ tab', e.mSize = 0) := by
  obtain ⟨hs1, hs2, h12⟩ := (Span.spaced_append _ _).mp h.spaced
  have hpos := h.size_pos
  unfold mfreeApart
  rw [List.reverse_reverse]
  rcases h.right (hz z List.mem_cons_self) hbp with ⟨hno, hlt⟩ | ⟨M, rfl, rfl, heq, hne, hlo⟩
  · have hne : ∀ e ∈ T2, e.mSize ≠ 0 := by
      intro e he
      exact size_ne_zero.mpr (hs2.1 _ (List.mem_map_of_mem he))
    have hsize : size ≠ 0 := by
      rintro rfl
      exact absurd hpos (by decide)
    rw [if_neg hno, if_pos hsize, hbp, insertEnt_eq z zs (hz z List.mem_cons_self) T2 _ _ hne]
    refine ⟨_, T1 ++ ⟨size, a⟩ :: T2, rfl, ⟨?_, zs, by simp, fun e he => hz e (by simp [he])⟩,
      ?_, ?_⟩
    · rw [List.map_append, List.map_cons]
      refine Span.Spaced.insert hs1 hs2 hpos ?_ ?_
      · intro t ht
        obtain ⟨e, he, rfl⟩ := List.mem_map.mp ht
        exact hapart e he
      · intro t ht
        obtain ⟨e, he, rfl⟩ := List.mem_map.mp ht
        exact hlt e he
    · ext x
      simp only [List.map_append, List.map_cons, Span.units_append, Span.units_cons, MapEnt.span,
        Span.hi, Set.mem_union]
      tauto
    · rintro (hzs | ⟨e, he, hlo⟩)
      · obtain ⟨y, ys, rfl⟩ := List.exists_cons_of_ne_nil hzs
        exact ⟨y, by simp, hz y (by simp)⟩
      · exact absurd hlo (Nat.ne_of_lt (hlt e he))
  · obtain ⟨hq, hqM, hsM⟩ := (Span.spaced_cons _ _).mp hs2
    obtain ⟨_, hhi⟩ := h.after bp List.mem_cons_self
    have hspan : MapEnt.span ⟨bp.mSize + size, bp.mAddr - size⟩ =
        ⟨a.toNat, size.toNat + bp.span.len⟩ := by
      have ha := h.addr_pos
      unfold MapEnt.span Span.hi at *
      dsimp only at *
      rw [BitVec.toNat_add_of_lt (by omega), BitVec.toNat_sub_of_le (BitVec.le_def.mpr (by omega)),
        ← hlo, Nat.add_sub_cancel, Nat.add_comm]
    rw [if_pos ⟨heq, hne⟩]
    refine ⟨_, T1 ++ ⟨bp.mSize + size, bp.mAddr - size⟩ :: M, rfl,
      ⟨?_, z :: zs, by simp, hz⟩, ?_, fun _ => ⟨z, by simp, hz z List.mem_cons_self⟩⟩
    · rw [List.map_append, List.map_cons, hspan]
      refine Span.Spaced.insert hs1 hsM (by dsimp only; omega) ?_ ?_
      · intro t ht
        obtain ⟨e, he, rfl⟩ := List.mem_map.mp ht
        exact hapart e he
      · intro t ht
        have := hqM t ht
        unfold Span.hi at this ⊢
        dsimp only
        omega
    · have hIco : Set.Ico a.toNat (a.toNat + (size.toNat + bp.span.len)) =
          Set.Ico a.toNat (a.toNat + size.toNat) ∪ Set.Ico bp.span.lo bp.span.hi := by
        unfold Span.hi
        rw [← hlo, Set.Ico_union_Ico_eq_Ico (by omega) (by omega), Nat.add_assoc]
      ext x
      simp only [List.map_append, List.map_cons, hspan, Span.units_append, Span.units_cons]
      simp only [Span.hi] at hIco ⊢
      rw [hIco]
      simp only [Set.mem_union]
      tauto

/-- An entry grown to the right by `n` units. -/
theorem grow_right {K M : List Span} {p : Span} {n : Nat}
    (h : Span.Spaced (K ++ [p])) (hM : Span.Spaced M) (hpM : ∀ t ∈ M, p.hi + n < t.lo) :
    Span.Spaced (K ++ ⟨p.lo, p.len + n⟩ :: M) ∧
      Span.units (K ++ ⟨p.lo, p.len + n⟩ :: M) =
        Span.units (K ++ [p]) ∪ Set.Ico p.hi (p.hi + n) ∪ Span.units M := by
  obtain ⟨hsK, hsp, hKp⟩ := (Span.spaced_append _ _).mp h
  have hlen := hsp.1 p List.mem_cons_self
  constructor
  · refine Span.Spaced.insert hsK hM (by dsimp only; omega) ?_ ?_
    · intro t ht
      exact hKp t ht p List.mem_cons_self
    · intro t ht
      have := hpM t ht
      unfold Span.hi at this ⊢
      dsimp only
      omega
  · have hIco : Set.Ico p.lo (p.lo + (p.len + n)) =
        Set.Ico p.lo p.hi ∪ Set.Ico p.hi (p.hi + n) := by
      rw [Set.Ico_union_Ico_eq_Ico (by unfold Span.hi; omega) (by omega), Span.hi, Nat.add_assoc]
    simp only [Span.units_append, Span.units_cons, Span.units_nil, Set.union_empty]
    rw [show Span.hi ⟨p.lo, p.len + n⟩ = p.lo + (p.len + n) from rfl, hIco]
    simp only [Set.union_assoc]

/-- The entry before the space takes it, and the entry after it if that is touched too. -/
theorem mfreeAt_left {K : List MapEnt} {p : MapEnt} (h : Place (K ++ [p]) T2 size a)
    (hz : ∀ e ∈ z :: zs, e.mSize = 0) (htouch : p.span.hi = a.toNat) {bp : MapEnt}
    {rest : List MapEnt} (hbp : bp :: rest = T2 ++ z :: zs) :
    ∃ tab' T', mfreeAt size a (K ++ [p]).reverse bp rest = some tab' ∧ TableFull tab' T' ∧
      Span.units (T'.map MapEnt.span) =
        Span.units ((K ++ [p]).map MapEnt.span ++ T2.map MapEnt.span) ∪
          Set.Ico a.toNat (a.toNat + size.toNat) ∧ ∃ e ∈ tab', e.mSize = 0 := by
  obtain ⟨hs1, hs2, _⟩ := (Span.spaced_append _ _).mp h.spaced
  rw [List.map_append, List.map_singleton] at hs1 ⊢
  obtain ⟨hp0, _⟩ := h.before p (by simp)
  have hfits := h.fits
  have hsum : p.mAddr + p.mSize = a := by
    have ha := a.isLt
    apply BitVec.eq_of_toNat_eq
    rw [BitVec.toNat_add_of_lt (by unfold MapEnt.span Span.hi at htouch; dsimp only at htouch; omega)]
    exact htouch
  have hspan : ∀ n : BitVec 16, p.span.hi + n.toNat ≤ 65536 →
      MapEnt.span ⟨p.mSize + n, p.mAddr⟩ = ⟨p.span.lo, p.span.len + n.toNat⟩ := by
    intro n hn
    unfold MapEnt.span Span.hi at *
    dsimp only at *
    rw [BitVec.toNat_add_of_lt (by omega)]
  rw [List.reverse_append, List.reverse_singleton, List.singleton_append, mfreeAt, if_pos hsum]
  dsimp only
  rw [List.reverse_reverse]
  rcases h.right (hz z List.mem_cons_self) hbp with ⟨hno, hlt⟩ | ⟨M, rfl, rfl, heq, hne, hlo⟩
  · -- a terminator at the end of the space adds nothing
    have hres : (if a + size = bp.mAddr then
          (shiftDown (bp :: rest)).map (K ++ ⟨p.mSize + size + bp.mSize, p.mAddr⟩ :: ·)
        else some (K ++ ⟨p.mSize + size, p.mAddr⟩ :: bp :: rest)) =
        some (K ++ ⟨p.mSize + size, p.mAddr⟩ :: bp :: rest) := by
      split
      · next he =>
        have h0 : bp.mSize = 0#16 := not_not.mp (fun hc => hno ⟨he, hc⟩)
        rw [shiftDown_zero bp rest h0, h0, BitVec.add_zero]
        rfl
      · rfl
    obtain ⟨hsp, hun⟩ := grow_right hs1 hs2 (n := size.toNat) (by
      intro t ht
      obtain ⟨e, he, rfl⟩ := List.mem_map.mp ht
      rw [htouch]
      exact hlt e he)
    refine ⟨_, K ++ ⟨p.mSize + size, p.mAddr⟩ :: T2, hres, ⟨?_, z :: zs, by simp [hbp], hz⟩, ?_,
      z, by simp [hbp], hz z List.mem_cons_self⟩
    · rw [List.map_append, List.map_cons, hspan size (by omega)]
      exact hsp
    · rw [List.map_append, List.map_cons, hspan size (by omega), hun, htouch,
        Span.units_append (K.map MapEnt.span ++ [p.span]), Set.union_right_comm]
  · obtain ⟨hq, hqM, hsM⟩ := (Span.spaced_cons _ _).mp hs2
    obtain ⟨_, hhi⟩ := h.after bp List.mem_cons_self
    have hlen : (size + bp.mSize).toNat = size.toNat + bp.span.len := by
      have ha := h.addr_pos
      unfold MapEnt.span Span.hi at *
      dsimp only at *
      rw [BitVec.toNat_add_of_lt (by omega)]
    have hfit : p.span.hi + (size + bp.mSize).toNat ≤ 65536 := by
      rw [hlen, htouch, ← Nat.add_assoc, hlo]
      exact hhi
    obtain ⟨hsp, hun⟩ := grow_right hs1 hsM (n := (size + bp.mSize).toNat) (by
      intro t ht
      have := hqM t ht
      unfold Span.hi at this htouch ⊢
      omega)
    rw [if_pos heq, shiftDown_eq z zs (hz z List.mem_cons_self) M bp hne
      (fun e he => size_ne_zero.mpr (hsM.1 _ (List.mem_map_of_mem he))), BitVec.add_assoc]
    refine ⟨_, K ++ ⟨p.mSize + (size + bp.mSize), p.mAddr⟩ :: M, rfl,
      ⟨?_, z :: z :: zs, by simp, by simpa using hz⟩, ?_, z, by simp, hz z List.mem_cons_self⟩
    · rw [List.map_append, List.map_cons, hspan _ hfit]
      exact hsp
    · have hIco : Set.Ico a.toNat (a.toNat + (size.toNat + bp.span.len)) =
          Set.Ico a.toNat (a.toNat + size.toNat) ∪ Set.Ico bp.span.lo bp.span.hi := by
        unfold Span.hi
        rw [← hlo, Set.Ico_union_Ico_eq_Ico (by omega) (by omega), Nat.add_assoc]
      rw [List.map_append, List.map_cons, hspan _ hfit, hun, htouch, hlen, hIco, List.map_cons,
        Span.units_append (K.map MapEnt.span ++ [p.span]), Span.units_cons]
      ext x
      simp only [Set.mem_union]
      tauto

/-- With no entry touched before it, room for the space is after it. -/
theorem Place.room_after (h : Place T1 T2 size a) (hapart : ∀ e ∈ T1, e.span.hi < a.toNat)
    (hroom : (T1 ++ T2).length + 2 ≤ (T1 ++ T2 ++ z :: zs).length ∨
      ∃ e ∈ T1 ++ T2, e.span.hi = a.toNat ∨ a.toNat + size.toNat = e.span.lo) :
    zs ≠ [] ∨ ∃ e ∈ T2, a.toNat + size.toNat = e.span.lo := by
  have hpos := h.size_pos
  rcases hroom with hlen | ⟨e, he, htouch⟩
  · left
    rintro rfl
    simp only [List.length_append, List.length_singleton] at hlen
    omega
  · right
    rcases List.mem_append.mp he with he | he
    · have := hapart e he
      unfold Span.hi at this htouch
      omega
    · have := (h.after e he).1
      refine ⟨e, he, ?_⟩
      unfold Span.hi at htouch
      omega

/-- What the search of `mfree` finds for a space outside the map. -/
theorem mfree_place {tab T : List MapEnt} (h : Table tab T) (hfit : Fits T)
    (h0 : ∀ e ∈ T, 0 < e.span.lo) (hsize : 0 < size.toInt) (ha : 0 < a.toNat)
    (hend : a.toNat + size.toNat ≤ 65536)
    (hdisj : Disjoint (Set.Ico a.toNat (a.toNat + size.toNat)) (Span.units (T.map MapEnt.span))) :
    ∃ T1 T2 z zs bp rest, T = T1 ++ T2 ∧ tab = T ++ z :: zs ∧ (∀ e ∈ z :: zs, e.mSize = 0) ∧
      bp :: rest = T2 ++ z :: zs ∧ Place T1 T2 size a ∧
      mfree size a tab = mfreeAt size a T1.reverse bp rest := by
  obtain ⟨_, hpos, _⟩ := toNat_of_pos hsize
  obtain ⟨z, zs, rfl, hz⟩ := h.split
  obtain ⟨T1, T2, rfl, h1, h2, hf⟩ := findPlace_eq a z zs (hz z List.mem_cons_self) T [] h.spaced
  have hspaced := h.spaced
  rw [List.map_append] at hspaced hdisj
  have hout : a.toNat ∉ Span.units (T1.map MapEnt.span ++ T2.map MapEnt.span) :=
    Set.disjoint_left.mp hdisj ⟨Nat.le_refl _, by omega⟩
  have hplace : Place T1 T2 size a := by
    refine ⟨hspaced, hpos, ha, hend, ?_, ?_⟩
    · intro e he
      refine ⟨h0 e (by simp [he]), Span.hi_le (s := e.span) ?_ hout (h1 e he)⟩
      exact List.mem_append_left _ (List.mem_map_of_mem he)
    · intro e he
      refine ⟨hspaced.le_lo (s := e.span) ?_ hdisj (h2 e he), (hfit e (by simp [he])).2⟩
      exact List.mem_append_right _ (List.mem_map_of_mem he)
  obtain ⟨bp, rest, hbp⟩ : ∃ bp rest, bp :: rest = T2 ++ z :: zs := by
    cases T2 with
    | nil => exact ⟨z, zs, rfl⟩
    | cons q M => exact ⟨q, M ++ z :: zs, rfl⟩
  refine ⟨T1, T2, z, zs, bp, rest, rfl, rfl, hz, hbp, hplace, ?_⟩
  unfold mfree
  rw [hf, ← hbp, List.append_nil]

/-- `mfree` adds a space outside the map to it. -/
theorem mfree_spec {tab T : List MapEnt} (h : Table tab T) (hfit : Fits T)
    (h0 : ∀ e ∈ T, 0 < e.span.lo) (hsize : 0 < size.toInt) (ha : 0 < a.toNat)
    (hend : a.toNat + size.toNat ≤ 65536)
    (hdisj : Disjoint (Set.Ico a.toNat (a.toNat + size.toNat)) (Span.units (T.map MapEnt.span))) :
    ∃ tab' T', mfree size a tab = some tab' ∧ TableFull tab' T' ∧
      Span.units (T'.map MapEnt.span) = Span.units (T.map MapEnt.span) ∪
        Set.Ico a.toNat (a.toNat + size.toNat) ∧
      (T.length + 2 ≤ tab.length ∨
        (∃ e ∈ T, e.span.hi = a.toNat ∨ a.toNat + size.toNat = e.span.lo) →
        ∃ e ∈ tab', e.mSize = 0) := by
  obtain ⟨T1, T2, z, zs, bp, rest, rfl, rfl, hz, hbp, hplace, hcall⟩ :=
    mfree_place h hfit h0 hsize ha hend hdisj
  have hspaced := hplace.spaced
  rw [hcall, List.map_append]
  rcases T1.eq_nil_or_concat' with rfl | ⟨K, p, rfl⟩
  · obtain ⟨tab', T', hres, hfull, hunits, hroom⟩ := mfreeApart_spec hplace hz (by simp) hbp
    exact ⟨tab', T', hres, hfull, hunits, fun h => hroom (hplace.room_after (by simp) h)⟩
  by_cases htouch : p.span.hi = a.toNat
  · obtain ⟨tab', T', hres, hfull, hunits, hend⟩ := mfreeAt_left hplace hz htouch hbp
    exact ⟨tab', T', hres, hfull, hunits, fun _ => hend⟩
  · have hle := (hplace.before p (by simp)).2
    have hno : ¬ p.mAddr + p.mSize = a := by
      intro hc
      apply htouch
      have hlt := a.isLt
      rw [← hc, BitVec.toNat_add_of_lt]
      · rfl
      · exact Nat.lt_of_le_of_lt hle hlt
    have hapart : ∀ e ∈ K ++ [p], e.span.hi < a.toNat := by
      intro e he
      rcases List.mem_append.mp he with hK | hp
      · obtain ⟨hs1, _, _⟩ := (Span.spaced_append _ _).mp hspaced
        rw [List.map_append, Span.spaced_append] at hs1
        have := hs1.2.2 _ (List.mem_map_of_mem hK) p.span (by simp)
        unfold Span.hi at this hle ⊢
        omega
      · rw [List.mem_singleton.mp hp]
        omega
    obtain ⟨tab', T', hres, hfull, hunits, hroom⟩ := mfreeApart_spec hplace hz hapart hbp
    refine ⟨tab', T', ?_, hfull, hunits, fun h => hroom (hplace.room_after hapart h)⟩
    rw [← hres, List.reverse_append, List.reverse_singleton, List.singleton_append, mfreeAt,
      if_neg hno]

end Mfree

/-! ## Sequences of calls -/

/-- The units from `a` on, `size` of them. -/
def space (size a : BitVec 16) : Set Nat := Set.Ico a.toNat (a.toNat + size.toNat)

/-- The states of a map over the arena of `n` units from `base` on, with the units that are
    outstanding, that calls of positive sizes lead to. At the start the table is empty and the
    whole arena is outstanding. A `mfree` is of outstanding units, and leaves the table with an
    entry of size 0, that is, does not overflow it. -/
inductive Reached (base n : Nat) : KMap → Set Nat → Prop
  | start {m : KMap} (hne : m.tab ≠ []) (hzero : ∀ e ∈ m.tab, e.mSize = 0) :
      Reached base n m (Set.Ico base (base + n))
  | mfree {m : KMap} {out : Set Nat} {size a : BitVec 16} {tab : List MapEnt}
      (h : Reached base n m out) (hsize : 0 < size.toInt) (hout : space size a ⊆ out)
      (hcall : mfree size a m.tab = some tab) (hroom : ∃ e ∈ tab, e.mSize = 0) :
      Reached base n { wakeSched m with tab := tab } (out \ space size a)
  | malloc {m : KMap} {out : Set Nat} {size a : BitVec 16} {tab : List MapEnt}
      (h : Reached base n m out) (hsize : 0 < size.toInt)
      (hcall : malloc size m.tab = some (a, tab)) :
      Reached base n { m with tab := tab } (if a = 0 then out else out ∪ space size a)

/-- What holds of a map with the units `out` outstanding. -/
structure MapSound (base n : Nat) (tab : List MapEnt) (out : Set Nat) : Prop where
  /-- Sorted by address, no entry of size 0, no two that overlap or touch. -/
  spaced : Span.Spaced (entries tab)
  ended : ∃ e ∈ tab, e.mSize = 0
  units : Span.units (entries tab) = Set.Ico base (base + n) \ out
  malloc_fits : ∀ size : BitVec 16, 0 < size.toInt → ∃ a tab', malloc size tab = some (a, tab') ∧
    (a = 0 ↔ ∀ s ∈ entries tab, s.len < size.toNat) ∧
    (a ≠ 0 → ∃ s ∈ entries tab, s.lo = a.toNat ∧ size.toNat ≤ s.len ∧
      ∀ t ∈ entries tab, size.toNat ≤ t.len → s.lo ≤ t.lo)
  mfree_returns : ∀ size a : BitVec 16, 0 < size.toInt → space size a ⊆ out →
    mfree size a tab ≠ none

section Arena

variable {base n : Nat} {tab T : List MapEnt} {out : Set Nat}

/-- The invariant of a run. -/
structure MapInv (base n : Nat) (tab T : List MapEnt) (out : Set Nat) : Prop where
  table : Table tab T
  units : Span.units (T.map MapEnt.span) = Set.Ico base (base + n) \ out
  arena : out ⊆ Set.Ico base (base + n)

theorem MapInv.bounds (h : MapInv base n tab T out) :
    ∀ e ∈ T, base ≤ e.span.lo ∧ e.span.hi ≤ base + n := by
  intro e he
  have hlen := h.table.spaced.1 _ (List.mem_map_of_mem he)
  have hin : ∀ x, e.span.lo ≤ x → x < e.span.hi → x ∈ Set.Ico base (base + n) := by
    intro x h1 h2
    have : x ∈ Span.units (T.map MapEnt.span) := ⟨e.span, List.mem_map_of_mem he, h1, h2⟩
    rw [h.units] at this
    exact this.1
  have h1 := hin e.span.lo (Nat.le_refl _) (by unfold Span.hi; omega)
  have h2 := hin (e.span.hi - 1) (by unfold Span.hi; omega) (by unfold Span.hi; omega)
  unfold Span.hi at h2 ⊢
  exact ⟨h1.1, by have := h2.2; omega⟩

theorem MapInv.addr_ne (h : MapInv base n tab T out) (hbase : 0 < base) :
    ∀ e ∈ T, e.mAddr ≠ 0 := by
  intro e he h0
  have hlo : base ≤ e.mAddr.toNat := (h.bounds e he).1
  rw [h0] at hlo
  simp at hlo
  omega

theorem MapInv.fits (h : MapInv base n tab T out) (hn : n ≤ 32767) (hend : base + n ≤ 65536) :
    Fits T := by
  intro e he
  obtain ⟨h1, h2⟩ := h.bounds e he
  refine ⟨?_, by omega⟩
  unfold Span.hi at h2
  omega

/-- `malloc` serves from the first entry that is large enough, or finds none. -/
theorem MapInv.malloc (h : MapInv base n tab T out) (hn : n ≤ 32767) (hend : base + n ≤ 65536)
    {size : BitVec 16} (hsize : 0 < size.toInt) :
    (∃ T1 e T2 tab' T', T = T1 ++ e :: T2 ∧ (∀ x ∈ T1, x.span.len < size.toNat) ∧
      size.toNat ≤ e.span.len ∧ malloc size tab = some (e.mAddr, tab') ∧
      MapInv base n tab' T' (out ∪ space size e.mAddr)) ∨
    ((∀ x ∈ T, x.span.len < size.toNat) ∧ malloc size tab = some (0, tab)) := by
  cases hf : T.find? (fun x => decide (size.toNat ≤ x.span.len)) with
  | none =>
    right
    have hall : ∀ x ∈ T, x.span.len < size.toNat := by
      intro x hx
      simpa using List.find?_eq_none.mp hf x hx
    exact ⟨hall, malloc_none h.table hsize hall⟩
  | some e =>
    left
    obtain ⟨hlarge, T1, T2, rfl, hsmall⟩ := List.find?_eq_some_iff_append.mp hf
    simp only [decide_eq_true_eq, Bool.not_eq_eq_eq_not, Bool.not_true, decide_eq_false_iff_not,
      Nat.not_le] at hlarge hsmall
    obtain ⟨tab', T', hcall, htab, hunits⟩ :=
      malloc_spec h.table (h.fits hn hend) hsize hsmall hlarge
    refine ⟨T1, e, T2, tab', T', rfl, hsmall, hlarge, hcall, htab, ?_, ?_⟩
    · rw [hunits, h.units, Set.sdiff_sdiff]
      rfl
    · obtain ⟨hlo, hhi⟩ := h.bounds e (by simp)
      rintro x (hx | ⟨h1, h2⟩)
      · exact h.arena hx
      · have hlo' : base ≤ e.mAddr.toNat := hlo
        have hhi' : e.mAddr.toNat + e.mSize.toNat ≤ base + n := hhi
        have hlarge' : size.toNat ≤ e.mSize.toNat := hlarge
        exact ⟨by omega, by omega⟩

/-- A `mfree` of outstanding units returns, and gives them back. -/
theorem MapInv.mfree (h : MapInv base n tab T out) (hbase : 0 < base) (hn : n ≤ 32767)
    (hend : base + n ≤ 65536) {size a : BitVec 16} (hsize : 0 < size.toInt)
    (hout : space size a ⊆ out) :
    ∃ tab', mfree size a tab = some tab' ∧
      ((∃ e ∈ tab', e.mSize = 0) → ∃ T', MapInv base n tab' T' (out \ space size a)) ∧
      (T.length + 2 ≤ tab.length ∨
        (∃ e ∈ T, e.span.hi = a.toNat ∨ a.toNat + size.toNat = e.span.lo) →
        ∃ e ∈ tab', e.mSize = 0) := by
  obtain ⟨_, hpos, _⟩ := toNat_of_pos hsize
  have harena : space size a ⊆ Set.Ico base (base + n) := hout.trans h.arena
  have ha : a.toNat ∈ Set.Ico base (base + n) := harena ⟨Nat.le_refl _, by omega⟩
  have hlast : a.toNat + size.toNat - 1 ∈ Set.Ico base (base + n) :=
    harena ⟨by omega, by omega⟩
  obtain ⟨hb, _⟩ := ha
  obtain ⟨_, hl⟩ := hlast
  have hdisj : Disjoint (space size a) (Span.units (T.map MapEnt.span)) := by
    rw [h.units, Set.disjoint_left]
    intro x hx hx'
    exact hx'.2 (hout hx)
  obtain ⟨tab', T', hcall, htab, hunits, hrm⟩ := mfree_spec h.table (h.fits hn hend)
    (fun e he => by have := (h.bounds e he).1; omega) hsize (by omega) (by omega) hdisj
  refine ⟨tab', hcall, fun hroom => ⟨T', htab.table hroom, ?_, fun x hx => h.arena hx.1⟩, hrm⟩
  rw [hunits, h.units]
  ext x
  have h1 := @hout x
  have h2 := @harena x
  unfold space at *
  simp only [Set.mem_union, Set.mem_sdiff]
  tauto

theorem Reached.inv (hbase : 0 < base) (hn : n ≤ 32767) (hend : base + n ≤ 65536) {m : KMap}
    (h : Reached base n m out) : ∃ T, MapInv base n m.tab T out := by
  induction h with
  | @start m hne hzero =>
    obtain ⟨z, zs, hz⟩ := List.exists_cons_of_ne_nil hne
    refine ⟨[], ⟨Span.spaced_nil, z, zs, hz, fun e he => hzero e (hz ▸ he)⟩, ?_, subset_rfl⟩
    rw [List.map_nil, Span.units_nil, Set.sdiff_self]
  | mfree _ hsize hout hcall hroom ih =>
    obtain ⟨T, hT⟩ := ih
    obtain ⟨tab', hcall', hinv, _⟩ := hT.mfree hbase hn hend hsize hout
    rw [hcall, Option.some_inj] at hcall'
    subst hcall'
    exact hinv hroom
  | @malloc m out size a tab _ hsize hcall ih =>
    obtain ⟨T, hT⟩ := ih
    rcases hT.malloc hn hend hsize with
      ⟨T1, e, T2, tab', T', rfl, _, _, hcall', hinv⟩ | ⟨_, hcall'⟩
    · rw [hcall, Option.some_inj, Prod.mk.injEq] at hcall'
      obtain ⟨rfl, rfl⟩ := hcall'
      rw [if_neg (hT.addr_ne hbase e (by simp))]
      exact ⟨T', hinv⟩
    · rw [hcall, Option.some_inj, Prod.mk.injEq] at hcall'
      obtain ⟨rfl, rfl⟩ := hcall'
      rw [if_pos rfl]
      exact ⟨T, hT⟩

theorem MapInv.sound (h : MapInv base n tab T out) (hbase : 0 < base) (hn : n ≤ 32767)
    (hend : base + n ≤ 65536) : MapSound base n tab out := by
  have hent := h.table.entries_eq
  refine ⟨?_, ?_, ?_, ?_, ?_⟩
  · rw [hent]
    exact h.table.spaced
  · obtain ⟨z, zs, rfl, hz⟩ := h.table.split
    exact ⟨z, by simp, hz z List.mem_cons_self⟩
  · rw [hent]
    exact h.units
  · intro size hsize
    rw [hent]
    rcases h.malloc hn hend hsize with
      ⟨T1, e, T2, tab', T', rfl, hsmall, hlarge, hcall, _⟩ | ⟨hall, hcall⟩
    · have hne := h.addr_ne hbase e (by simp)
      refine ⟨e.mAddr, tab', hcall, ⟨fun h0 => absurd h0 hne, fun hall => ?_⟩, fun _ => ?_⟩
      · have := hall e.span (by simp)
        omega
      · refine ⟨e.span, by simp, rfl, hlarge, ?_⟩
        -- the entries before the one taken are too small, the ones after it are above it
        intro t ht hlarge'
        have hsp := h.table.spaced
        rw [List.map_append, List.map_cons] at ht hsp
        rcases List.mem_append.mp ht with ht | ht
        · obtain ⟨x, hx, rfl⟩ := List.mem_map.mp ht
          have := hsmall x hx
          omega
        · rcases List.mem_cons.mp ht with rfl | ht
          · exact Nat.le_refl _
          · obtain ⟨_, hc, _⟩ := (Span.spaced_append _ _).mp hsp
            have := ((Span.spaced_cons _ _).mp hc).2.1 t ht
            unfold Span.hi at this
            omega
    · refine ⟨0, tab, hcall, ⟨fun _ s hs => ?_, fun _ => rfl⟩, fun hc => absurd rfl hc⟩
      obtain ⟨x, hx, rfl⟩ := List.mem_map.mp hs
      exact hall x hx
  · intro size a hsize hout
    obtain ⟨tab', hcall, _⟩ := h.mfree hbase hn hend hsize hout
    rw [hcall]
    exact Option.some_ne_none _

end Arena

end Venix.Kernel
