/-
  A packet of `pkwrite` arrives with the bytes that were written, however many of them a `pkread` asks
  for.
-/
import Mathlib.Tactic
import Venix.Uucp.Pk0

namespace Venix.Uucp

open Venix.Lib

/-! ## The fill count -/

/-- The fill bytes at the start of a short packet. -/
def fillBytes (fc : Nat) : List Byte :=
  if fc ≤ 127 then [BitVec.ofNat 8 fc]
  else [BitVec.ofNat 8 (fc % 128) ||| 0o200, BitVec.ofNat 8 (fc / 128)]

theorem byte_short {n : Nat} (hn : n < 128) :
    (BitVec.ofNat 8 n).signExtend 16 = BitVec.ofNat 16 n ∧
      (BitVec.ofNat 8 n).signExtend 16 &&& 0o200 = 0 := by
  have hall : ∀ n < 128, (BitVec.ofNat 8 n).signExtend 16 = BitVec.ofNat 16 n ∧
      (BitVec.ofNat 8 n).signExtend 16 &&& 0o200 = 0 := by decide
  exact hall n hn

theorem byte_long {n : Nat} (hn : n < 128) :
    (BitVec.ofNat 8 n ||| 0o200).signExtend 16 &&& 0o200 ≠ 0 ∧
      (BitVec.ofNat 8 n ||| 0o200).signExtend 16 &&& 0o177#16 = BitVec.ofNat 16 n := by
  have hall : ∀ n < 128, (BitVec.ofNat 8 n ||| 0o200).signExtend 16 &&& 0o200 ≠ 0 ∧
      (BitVec.ofNat 8 n ||| 0o200).signExtend 16 &&& 0o177#16 = BitVec.ofNat 16 n := by decide
  exact hall n hn

theorem byte_high {n : Nat} (hn : n < 64) :
    (BitVec.ofNat 8 n).signExtend 16 <<< 7 = BitVec.ofNat 16 (2 ^ 7 * n) := by
  have hall : ∀ n < 64, (BitVec.ofNat 8 n).signExtend 16 <<< 7 = BitVec.ofNat 16 (2 ^ 7 * n) := by
    decide
  exact hall n hn

theorem fillBytes_length (fc : Nat) : (fillBytes fc).length = if fc ≤ 127 then 1 else 2 := by
  unfold fillBytes
  split
  · rfl
  · rfl

/-- The receiver gets the fill count. -/
theorem fillCount_fillBytes {fc : Nat} (hfc : fc ≤ 4096) (rest : List Byte) :
    fillCount (fillBytes fc ++ rest) = some (BitVec.ofNat 16 fc) := by
  unfold fillBytes
  by_cases hshort : fc ≤ 127
  · obtain ⟨hext, hbit⟩ := byte_short (show fc < 128 by omega)
    rw [if_pos hshort]
    exact (if_neg (not_not.mpr hbit)).trans (congrArg some hext)
  · obtain ⟨hbit, hlow⟩ := byte_long (Nat.mod_lt fc (show 0 < 128 by decide))
    rw [if_neg hshort]
    refine (if_pos hbit).trans (congrArg some ?_)
    rw [hlow, byte_high (by omega), BitVec.or_comm, ← BitVec.ofNat_or,
      ← Nat.two_pow_add_eq_or_of_lt (Nat.mod_lt fc (by decide))]
    congr 1
    exact Nat.div_add_mod fc 128

/-! ## `fill` -/

/-- A packet with the bytes `d`. -/
structure Carries (xsize : BitVec 16) (packet : List Byte) (short : Bool) (d : List Byte) : Prop where
  length : packet.length = xsize.toNat
  kind : short = decide (d.length < xsize.toNat)
  content : if short then ∃ tail, packet = fillBytes (xsize.toNat - d.length) ++ d ++ tail else packet = d

theorem store_start {b d : List Byte} (hd : d.length ≤ b.length) :
    store b 0 d = some (d ++ b.drop d.length) := by
  unfold store
  rw [if_pos (by omega)]
  simp

theorem store_after {a b d : List Byte} (hd : d.length ≤ b.length) :
    store (a ++ b) a.length d = some (a ++ d ++ b.drop d.length) := by
  unfold store
  rw [if_pos (by rw [List.length_append]; omega), List.take_left, ← List.drop_drop, List.drop_left]

theorem fill_low {fc : Nat} (hfc : fc ≤ 4096) :
    (BitVec.ofNat 16 fc &&& 0o177).setWidth 8 = BitVec.ofNat 8 (fc % 128) := by
  have h127 : (0o177 : BitVec 16).toNat = 2 ^ 7 - 1 := rfl
  apply BitVec.eq_of_toNat_eq
  rw [BitVec.toNat_setWidth, BitVec.toNat_and, h127, Nat.and_two_pow_sub_one_eq_mod, BitVec.toNat_ofNat,
    BitVec.toNat_ofNat]
  omega

theorem fill_high {fc : Nat} (hfc : fc ≤ 4096) :
    ((BitVec.ofNat 16 fc).sshiftRight 7).setWidth 8 = BitVec.ofNat 8 (fc / 128) := by
  have hmsb : (BitVec.ofNat 16 fc).msb = false := by
    rw [BitVec.msb_eq_decide, BitVec.toNat_ofNat]
    exact decide_eq_false (by omega)
  apply BitVec.eq_of_toNat_eq
  rw [BitVec.sshiftRight_eq_of_msb_false hmsb, BitVec.toNat_setWidth, BitVec.toNat_ushiftRight,
    Nat.shiftRight_eq_div_pow, BitVec.toNat_ofNat, BitVec.toNat_ofNat]
  omega

theorem int_eq {n : Nat} (hn : n < 32768) : (BitVec.ofNat 16 n).toInt = n := by
  rw [BitVec.toInt_eq_toNat_of_lt] <;> rw [BitVec.toNat_ofNat, Nat.mod_eq_of_lt (by omega)]
  omega

theorem xsize_toInt {xsize : BitVec 16} (hx : xsize.toNat ≤ 4096) : xsize.toInt = xsize.toNat :=
  BitVec.toInt_eq_toNat_of_lt (by omega)

theorem putFill_spec {fc : Nat} (hfc : fc ≤ 4096) {ob : List Byte}
    (hroom : (fillBytes fc).length ≤ ob.length) :
    putFill ob (BitVec.ofNat 16 fc) =
      some ((fillBytes fc).length, fillBytes fc ++ ob.drop (fillBytes fc).length) := by
  rw [fillBytes_length] at hroom ⊢
  have hpos : 1 ≤ ob.length := le_trans (by split <;> decide) hroom
  obtain ⟨b, ob, rfl⟩ := List.exists_cons_of_length_pos hpos
  have hfirst : ∀ c : Byte, store (b :: ob) 0 [c] = some (c :: ob) := fun c =>
    store_start (b := b :: ob) (d := [c]) (by simp)
  unfold putFill fillBytes
  rw [fill_low hfc, fill_high hfc, int_eq (by omega), hfirst]
  by_cases hshort : fc ≤ 127
  · simp only [if_pos hshort, Nat.mod_eq_of_lt (show fc < 128 by omega)]
    exact if_neg (by omega)
  · rw [if_neg hshort] at hroom
    obtain ⟨c, ob, rfl⟩ : ∃ c ob', ob = c :: ob' :=
      List.exists_cons_of_length_pos (by rw [List.length_cons] at hroom; omega)
    simp only [if_neg hshort]
    exact (if_pos (by omega)).trans rfl

/-- A turn of `pkwrite` makes a packet of what there is, and no more than it can hold. -/
theorem fill_spec {xsize : BitVec 16} (hx : xsize.toNat ≤ 4096) {ob data : List Byte}
    (hob : ob.length = xsize.toNat) (hdata : data.length < 32768) :
    ∃ packet, fill xsize ob data = some (packet, decide (data.length < xsize.toNat),
        data.drop xsize.toNat) ∧
      Carries xsize packet (decide (data.length < xsize.toNat)) (data.take xsize.toNat) := by
  have hsize := xsize_toInt hx
  have hlen := int_eq hdata
  unfold fill
  by_cases hlt : data.length < xsize.toNat
  · obtain ⟨fc, hfc⟩ : ∃ fc, xsize.toNat - data.length = fc := ⟨_, rfl⟩
    have hfc16 : xsize - BitVec.ofNat 16 data.length = BitVec.ofNat 16 fc := by
      apply BitVec.eq_of_toNat_eq
      rw [BitVec.toNat_sub, BitVec.toNat_ofNat, BitVec.toNat_ofNat]
      rw [Nat.mod_eq_of_lt (show data.length < 2 ^ 16 by omega),
        show 2 ^ 16 - data.length + xsize.toNat = fc + 2 ^ 16 by omega, Nat.add_mod_right]
    -- the fill bytes are not more than the count says
    have hfew : (fillBytes fc).length ≤ fc := by
      rw [fillBytes_length]
      split <;> omega
    rw [decide_eq_true hlt, List.drop_of_length_le hlt.le, List.take_of_length_le hlt.le,
      if_pos (by omega), hfc16, putFill_spec (by omega) (by omega)]
    refine ⟨fillBytes fc ++ data ++ (ob.drop (fillBytes fc).length).drop data.length, ?_, ?_,
      (decide_eq_true hlt).symm, ?_⟩
    · refine Option.bind_eq_some_iff.mpr ⟨_, rfl, Option.bind_eq_some_iff.mpr ⟨_, store_after ?_, rfl⟩⟩
      rw [List.length_drop]
      clear * - hob hlt hfc hfew
      omega
    · simp only [List.length_append, List.length_drop]
      clear * - hob hlt hfc hfew
      omega
    · rw [if_pos rfl, hfc]
      exact ⟨_, rfl⟩
  · have htake : (data.take xsize.toNat).length = xsize.toNat := List.length_take_of_le (by omega)
    rw [decide_eq_false hlt, if_neg (by omega), store_start (by omega)]
    have hrest : ob.drop (data.take xsize.toNat).length = [] := List.drop_of_length_le (by omega)
    refine ⟨data.take xsize.toNat, ?_, htake, ?_, ?_⟩
    · rw [hrest, List.append_nil]
      rfl
    · rw [htake, decide_eq_false (lt_irrefl _)]
    · rw [if_neg Bool.false_ne_true]

/-! ## Bytes of the header -/

theorem chkLoop_some {s : List Byte} {n : BitVec 16} (hn : n.toNat = s.length) (hpos : 0 < s.length)
    (hlen : s.length ≤ 4096) (sum x : BitVec 16) : ∃ v, chkLoop s n sum x = some v := by
  induction s generalizing n sum x with
  | nil => exact absurd hpos (Nat.not_lt_zero 0)
  | cons c s ih =>
    rw [List.length_cons] at hn hlen
    have hpred : (n - 1).toNat = s.length := by
      rw [BitVec.toNat_sub]
      have h1 : (1 : BitVec 16).toNat = 1 := rfl
      omega
    have hint : (n - 1).toInt = s.length := by
      rw [BitVec.toInt_eq_toNat_of_lt (by omega), hpred]
    unfold chkLoop
    simp only [hint]
    by_cases hmore : 0 < s.length
    · rw [if_pos (by omega)]
      exact ih hpred hmore (by omega) _ _
    · rw [if_neg (by omega)]
      exact ⟨_, rfl⟩

/-- What the receiver finds in the control byte. -/
theorem cntlOf_spec {pr seq : Nat} (hpr : pr < 8) (hseq : seq < 8) (short : Bool) :
    cntlOf pr seq short &&& 0o200 ≠ 0 ∧ (((cntlOf pr seq short).sshiftRight 3) &&& 7).toNat = seq ∧
      (cntlOf pr seq short &&& B_SHORT ≠ 0 ↔ short = true) := by
  have hall : ∀ pr < 8, ∀ seq < 8, ∀ short : Bool, cntlOf pr seq short &&& 0o200 ≠ 0 ∧
      (((cntlOf pr seq short).sshiftRight 3) &&& 7).toNat = seq ∧
      (cntlOf pr seq short &&& B_SHORT ≠ 0 ↔ short = true) := by decide
  exact hall pr hpr seq hseq short

theorem checkword_add (v : BitVec 16) (c : Byte) : (v ^^^ c.signExtend 16) + checkword v c = CHECK := by
  unfold checkword
  rw [BitVec.add_comm, BitVec.sub_add_cancel]

theorem mask_and {a b : Nat} (ha : a < 8) (hb : b < 8) : mask a &&& mask b = 0 ↔ a ≠ b := by
  have hall : ∀ a < 8, ∀ b < 8, mask a &&& mask b = 0 ↔ a ≠ b := by decide
  exact hall a ha b hb

/-- The window has `r` slots from `x` on. -/
theorem window_mask {r x j : Nat} (hr : r < 8) (hx : x < 8) (hj : j < 8) :
    window r x &&& mask ((x + j) % 8) = 0 ↔ r ≤ j := by
  have hall : ∀ r < 8, ∀ x < 8, ∀ j < 8, window r x &&& mask ((x + j) % 8) = 0 ↔ r ≤ j := by
    decide
  exact hall r hr x hx j hj

theorem next_lt (x : Nat) : next x < 8 := Nat.mod_lt _ (by decide)

theorem next_ne (x : Nat) : next x ≠ x := by
  unfold next
  omega

/-! ## The receiver -/

/-- The receiver's line is up, and its window is one that there is. -/
structure Up (pk : Pack) : Prop where
  live : pk.live = true
  drain : pk.draino = false
  pr : pk.pr < 8
  wide : 0 < pk.rwindow
  narrow : pk.rwindow < 8
  imap : pk.imap = 0

/-- A receiver that has no packet. -/
structure Idle (pk : Pack) : Prop extends Up pk where
  clear : ∀ x, pk.is x = 0
  rcount : pk.rcount = 0

/-- A receiver that has one packet, of which the bytes `d` are not read. -/
structure Holding (pk : Pack) (d : List Byte) : Prop extends Up pk where
  copy : pk.is (next pk.pr) &&& B_COPY ≠ 0
  clear : ∀ x, x ≠ next pk.pr → pk.is x = 0
  size : pk.isum (next pk.pr) = BitVec.ofNat 16 d.length
  bound : d.length ≤ 4096
  at_ : ∃ tail, dataAt pk (next pk.pr) = some (d ++ tail)
  rcount : pk.rcount = 1

variable {pk : Pack} {d : List Byte}

/-- Slots of which there is no bit are passed over. -/
theorem acceptSlots_skip {imask m : Byte} {xs : List Nat} (h : ∀ x ∈ xs, imask &&& mask x = 0) :
    acceptSlots imask m xs pk = some (pk, false, false) := by
  induction xs with
  | nil => rfl
  | cons x xs ih =>
    have hx : acceptSlot imask m x pk = some (pk, false, false) := if_pos (h x List.mem_cons_self)
    have hxs := ih fun y hy => h y (List.mem_cons_of_mem _ hy)
    exact Option.bind_eq_some_iff.mpr ⟨_, hx, Option.bind_eq_some_iff.mpr ⟨_, hxs, rfl⟩⟩

theorem acceptSlots_one {m : Byte} {k : Nat} (hk : k < 8) {pk' : Pack}
    (h : acceptSlot (mask k) m k pk = some (pk', false, false)) :
    acceptSlots (mask k) m (List.range 8) pk = some (pk', false, false) := by
  have hskip : ∀ (pk : Pack) xs, (∀ x ∈ xs, x < 8 ∧ x ≠ k) → ∀ r, acceptSlots (mask k) m r pk =
      some (pk', false, false) → acceptSlots (mask k) m (xs ++ r) pk = some (pk', false, false) := by
    intro pk xs hxs r hr
    induction xs with
    | nil => exact hr
    | cons x xs ih =>
      have hx : acceptSlot (mask k) m x pk = some (pk, false, false) :=
        if_pos ((mask_and hk (hxs x List.mem_cons_self).1).mpr (hxs x List.mem_cons_self).2.symm)
      exact Option.bind_eq_some_iff.mpr ⟨_, hx, Option.bind_eq_some_iff.mpr
        ⟨_, ih fun y hy => hxs y (List.mem_cons_of_mem _ hy), rfl⟩⟩
  have hsplit : List.range 8 = List.range k ++ k :: List.range' (k + 1) (7 - k) := by
    have hall : ∀ k < 8, List.range 8 = List.range k ++ k :: List.range' (k + 1) (7 - k) := by decide
    exact hall k hk
  rw [hsplit]
  refine hskip pk _ (fun x hx => ?_) _ ?_
  · have := List.mem_range.mp hx
    omega
  · refine Option.bind_eq_some_iff.mpr ⟨_, h, Option.bind_eq_some_iff.mpr
      ⟨_, acceptSlots_skip fun x hx => ?_, rfl⟩⟩
    have := List.mem_range'_1.mp hx
    exact (mask_and hk (by omega)).mpr (by omega)

theorem marked_clear {x : Nat} (h : pk.is x = 0) : marked pk x = pk := by
  unfold marked
  rw [h]
  rfl

/-- The rest of the window is empty. -/
theorem scan_empty {r x : Nat} (hr : r < 8) (hx : x < 8) {n j : Nat} (hj : j ≤ r) (hn : r < j + n)
    (hclear : ∀ i, j ≤ i → i < r → pk.is ((x + i) % 8) = 0) (hole : Bool) :
    scan (window r x) n ((x + j) % 8) hole pk = some (0, false, pk) := by
  induction n generalizing j hole with
  | zero => exact absurd hn (by omega)
  | succ n ih =>
    unfold scan
    rcases Nat.eq_or_lt_of_le hj with rfl | hlt
    · exact if_pos ((window_mask hr hx hr).mpr (le_refl _))
    · have hin : ¬window r x &&& mask ((x + j) % 8) = 0 := fun h =>
        absurd ((window_mask hr hx (by omega)).mp h) (by omega)
      have hnext : next ((x + j) % 8) = (x + (j + 1)) % 8 := by
        unfold next
        omega
      have hzero := hclear j (le_refl _) hlt
      rw [if_neg hin, marked_clear hzero, hnext]
      exact (if_pos (by rw [hzero]; rfl)).trans
        (ih hlt (by omega) (fun i hi hir => hclear i (by omega) hir) true)

/-- One packet, in the first slot of the window. -/
theorem scan_one {r x : Nat} (hr : r < 8) (hpos : 0 < r) (hx : x < 8)
    (hcopy : (marked pk x).is x &&& B_COPY ≠ 0) (hclear : ∀ y, y ≠ x → (marked pk x).is y = 0) :
    scan (window r x) 9 x false pk = some (1, false, marked pk x) := by
  have hin : ¬window r x &&& mask x = 0 := fun h => by
    have := (window_mask hr hx (show 0 < 8 by decide)).mp (by rwa [Nat.add_zero, Nat.mod_eq_of_lt hx])
    omega
  have hrest : scan (window r x) 8 (next x) false (marked pk x) = some (0, false, marked pk x) :=
    scan_empty (j := 1) hr hx hpos (by omega) (fun i hi hir => hclear _ (by omega)) false
  exact (if_neg hin).trans ((if_neg hcopy).trans ((if_neg Bool.false_ne_true).trans
    (Option.bind_eq_some_iff.mpr ⟨_, hrest, rfl⟩)))

/-! ## A packet arrives -/

/-- The frame of a packet. -/
def frame (rpr : Nat) (pk : Pack) (short : Bool) (osum : BitVec 16) (packet : List Byte) : Frame :=
  ⟨cntlOf rpr (next pk.pr) short, checkword osum (cntlOf rpr (next pk.pr) short), packet⟩

/-- The receiver with a frame in the slot that was read last. -/
def placed (f : Frame) (pk : Pack) : Pack :=
  { pk with
    is := Function.update pk.is pk.pr f.c
    isum := Function.update pk.isum pk.pr f.sum
    ib := Function.update pk.ib pk.pr f.bytes }

theorem pkdata_idle (h : Idle pk) (f : Frame) : pkdata f pk = { placed f pk with imap := mask pk.pr } := by
  have hslot : slot pk (next pk.pr) 8 pk.pr = some pk.pr :=
    (if_neg (next_ne pk.pr).symm).trans (if_pos (h.clear _))
  have hor : pk.imap ||| mask pk.pr = mask pk.pr := by
    rw [h.imap]
    exact BitVec.zero_or
  unfold pkdata
  rw [if_neg (by rw [h.live, h.drain]; decide), hslot]
  dsimp only
  rw [hor]
  rfl

/-- The receiver with the packet of slot `x` in slot `seq`. -/
def accepted (pk : Pack) (x seq : Nat) (short : Bool) (size : BitVec 16) : Pack :=
  { pk with
    ib := Function.update (Function.update pk.ib x (pk.ib seq)) seq (pk.ib x)
    is := Function.update (Function.update pk.is x 0) seq (if short then B_MARK + B_SHORT else B_MARK)
    isum := Function.update pk.isum seq size }

/-- A frame that is in order, and not in its own slot, goes there. -/
theorem acceptSlot_new {m : Byte} {x seq rpr : Nat} {short : Bool} {osum cc : BitVec 16}
    (hx : x < 8) (hrpr : rpr < 8) (hseq : seq < 8) (hne : x ≠ seq) (hm : m &&& mask seq ≠ 0)
    (hc : pk.is x = cntlOf rpr seq short) (hsum : pk.isum x = checkword osum (cntlOf rpr seq short))
    (hchk : chksum (pk.ib x) pk.rsize = some osum) (hfree : pk.is seq = 0)
    (hcc : if short then fillCount (pk.ib x) = some cc else cc = 0) :
    acceptSlot (mask x) m x pk = some (accepted pk x seq short (pk.rsize - cc), false, false) := by
  obtain ⟨hbit, hnum, hshort⟩ := cntlOf_spec hrpr hseq short
  have hself : ¬mask x &&& mask x = 0 := fun h => (mask_and hx hx).mp h rfl
  have hfree₁ : Function.update pk.is x (~~~(B_COPY + B_MARK)) seq = 0 :=
    (Function.update_of_ne hne.symm _ _).trans hfree
  have hplace : acceptPacket (cntlOf rpr seq short) seq
      (inPlace { pk with is := Function.update pk.is x (~~~(B_COPY + B_MARK)) } x seq) =
      some (accepted pk x seq short (pk.rsize - cc)) := by
    unfold inPlace
    rw [if_pos hne]
    dsimp only
    rw [hfree₁, Function.update_idem]
    cases short with
    | true =>
      refine (if_pos (hshort.mpr rfl)).trans (Option.bind_eq_some_iff.mpr ⟨cc, ?_, rfl⟩)
      have hib : Function.update (Function.update pk.ib x (pk.ib seq)) seq (pk.ib x) seq = pk.ib x :=
        Function.update_self _ _ _
      exact (congrArg fillCount hib).trans hcc
    | false =>
      have hcc0 : pk.rsize - cc = pk.rsize := by
        rw [show cc = 0 from hcc]
        exact BitVec.sub_zero _
      rw [hcc0]
      exact if_neg fun h => Bool.false_ne_true (hshort.mp h)
  refine (if_neg hself).trans ((if_neg (by rwa [hc])).trans
    (Option.bind_eq_some_iff.mpr ⟨osum, hchk, ?_⟩))
  refine (if_pos (by rw [hc, hsum, checkword_add])).trans ?_
  rw [hc, hnum]
  refine (if_pos ⟨hm, ?_⟩).trans (Option.bind_eq_some_iff.mpr ⟨_, hplace, rfl⟩)
  exact (congrArg (· &&& (B_COPY ||| B_MARK)) hfree₁).trans rfl

/-- The state of a slot with a packet that nothing is read of. -/
def held (short : Bool) : Byte := (if short then B_MARK + B_SHORT else B_MARK) ||| B_COPY

theorem held_bits (short : Bool) : held short &&& B_COPY ≠ 0 ∧ held short &&& B_RESID = 0 ∧
    (held short &&& B_SHORT ≠ 0 ↔ short = true) := by
  cases short <;> decide

theorem marked_accepted {x seq : Nat} {short : Bool} {size : BitVec 16} :
    marked (accepted pk x seq short size) seq =
      { accepted pk x seq short size with
        is := Function.update (Function.update pk.is x 0) seq (held short) } := by
  have hmark : (accepted pk x seq short size).is seq = if short then B_MARK + B_SHORT else B_MARK :=
    Function.update_self _ _ _
  have hset : (if short then B_MARK + B_SHORT else B_MARK) &&& B_MARK ≠ 0 := by
    cases short <;> decide
  have his : Function.update (accepted pk x seq short size).is seq (held short) =
      Function.update (Function.update pk.is x 0) seq (held short) := Function.update_idem _ _ _
  unfold marked
  rw [hmark, if_pos hset]
  exact congrArg (fun is => { accepted pk x seq short size with is := is }) his

/-- The reader finds the bytes of a packet that it has not read of. -/
theorem dataAt_held {x : Nat} {xsize : BitVec 16} {packet : List Byte} {short : Bool}
    (hc : Carries xsize packet short d) (his : pk.is x = held short) (hib : pk.ib x = packet) :
    ∃ tail, dataAt pk x = some (d ++ tail) := by
  obtain ⟨-, hresid, hshort⟩ := held_bits short
  have hcontent := hc.content
  unfold dataAt
  rw [his, if_neg (not_not.mpr hresid), hib]
  cases short with
  | false =>
    rw [if_neg fun h => Bool.false_ne_true (hshort.mp h)]
    exact ⟨[], congrArg some ((show packet = d from hcontent).trans (List.append_nil d).symm)⟩
  | true =>
    obtain ⟨tail, htail⟩ : ∃ tail, packet = fillBytes (xsize.toNat - d.length) ++ d ++ tail := hcontent
    obtain ⟨fc, hfc⟩ : ∃ fc, xsize.toNat - d.length = fc := ⟨_, rfl⟩
    refine ⟨tail, ?_⟩
    rw [if_pos (hshort.mpr rfl), htail, hfc]
    unfold fillBytes
    by_cases hfew : fc ≤ 127
    · rw [if_pos hfew]
      exact if_neg (not_not.mpr (byte_short (by omega)).2)
    · rw [if_neg hfew]
      exact if_pos (byte_long (Nat.mod_lt fc (by decide))).1

theorem await_idle (h : Idle pk) (f : Frame) (wire : List Frame) :
    await (f :: wire) pk = some (wire, pkdata f pk) := by
  have hset : ¬((pkdata f pk).imap = 0 ∧ (pkdata f pk).rcount = 0) := by
    rw [pkdata_idle h]
    have hself := mt (mask_and h.pr h.pr).mp (not_not.mpr rfl)
    exact fun hzero => hself ((congrArg (· &&& mask pk.pr) hzero.1).trans BitVec.zero_and)
  unfold await
  rw [if_pos ⟨h.imap, h.rcount⟩]
  dsimp only
  unfold await
  rw [if_neg hset]

/-- What `fillCount` finds in a packet. -/
theorem Carries.count {xsize : BitVec 16} (hsize : xsize.toNat ≤ 4096) {packet : List Byte} {short : Bool}
    (hc : Carries xsize packet short d) :
    ∃ cc, (if short then fillCount packet = some cc else cc = 0) ∧
      xsize - cc = BitVec.ofNat 16 d.length ∧ d.length ≤ 4096 := by
  have hcontent := hc.content
  cases short with
  | false =>
    have hlen : d.length = xsize.toNat := by rw [← hc.length, show packet = d from hcontent]
    refine ⟨0, rfl, ?_, by omega⟩
    rw [hlen, BitVec.ofNat_toNat, BitVec.setWidth_eq]
    exact BitVec.sub_zero _
  | true =>
    obtain ⟨tail, htail⟩ : ∃ tail, packet = fillBytes (xsize.toNat - d.length) ++ d ++ tail := hcontent
    have hlt : d.length < xsize.toNat := of_decide_eq_true hc.kind.symm
    refine ⟨BitVec.ofNat 16 (xsize.toNat - d.length), ?_, ?_, by omega⟩
    · rw [htail, List.append_assoc]
      exact fillCount_fillBytes (by omega) _
    · apply BitVec.eq_of_toNat_eq
      rw [BitVec.toNat_sub, BitVec.toNat_ofNat, BitVec.toNat_ofNat]
      omega

/-- `pkaccept` of the next packet, when there was none. -/
theorem pkaccept_idle (h : Idle pk) (hsize : pk.rsize.toNat ≤ 4096) {rpr : Nat} (hrpr : rpr < 8)
    {packet : List Byte} {short : Bool} (hc : Carries pk.rsize packet short d) {osum : BitVec 16}
    (hchk : chksum packet pk.rsize = some osum) (wire : List Frame) :
    ∃ pk', pkaccept (frame rpr pk short osum packet :: wire) pk = some (1, wire, pk') ∧
      Holding pk' d ∧ pk'.pr = pk.pr := by
  obtain ⟨x, hx⟩ : ∃ x, next pk.pr = x := ⟨_, rfl⟩
  have hx8 : x < 8 := hx ▸ next_lt pk.pr
  have hne : pk.pr ≠ x := hx ▸ (next_ne pk.pr).symm
  obtain ⟨cc, hcc, hcount, hbound⟩ := hc.count hsize
  -- the frame goes to the slot that was read last
  obtain ⟨pk₁, hpk₁⟩ : ∃ pk₁, placed (frame rpr pk short osum packet) pk = pk₁ := ⟨_, rfl⟩
  rw [frame, hx] at hpk₁
  have hfirst : window pk.rwindow x &&& mask x ≠ 0 := fun hzero => by
    have := (window_mask h.narrow hx8 (show 0 < 8 by decide)).mp
      (by rwa [Nat.add_zero, Nat.mod_eq_of_lt hx8])
    exact absurd h.wide (by omega)
  have hslot : acceptSlot (mask pk.pr) (window pk.rwindow x) pk.pr pk₁ =
      some (accepted pk₁ pk.pr x short (BitVec.ofNat 16 d.length), false, false) := by
    have hrsize : pk₁.rsize = pk.rsize := by rw [← hpk₁, placed]
    have hpacket : pk₁.ib pk.pr = packet := by
      rw [← hpk₁]
      exact Function.update_self _ _ _
    have hcntl : pk₁.is pk.pr = cntlOf rpr x short := by
      rw [← hpk₁]
      exact Function.update_self _ _ _
    have hsum : pk₁.isum pk.pr = checkword osum (cntlOf rpr x short) := by
      rw [← hpk₁]
      exact Function.update_self _ _ _
    have hfree : pk₁.is x = 0 := by
      rw [← hpk₁]
      exact (Function.update_of_ne hne.symm _ _).trans (h.clear x)
    rw [← hcount, ← hrsize]
    exact acceptSlot_new h.pr hrpr hx8 hne hfirst hcntl hsum (by rw [hpacket, hrsize, hchk]) hfree
      (by rwa [hpacket])
  -- there it is the first of the window
  obtain ⟨pk₂, hpk₂⟩ : ∃ pk₂, accepted pk₁ pk.pr x short (BitVec.ofNat 16 d.length) = pk₂ := ⟨_, rfl⟩
  have hmarked := @marked_accepted pk₁ pk.pr x short (BitVec.ofNat 16 d.length)
  rw [hpk₂] at hslot hmarked
  have hheld : (marked pk₂ x).is x = held short := by
    rw [hmarked]
    exact Function.update_self _ _ _
  have hclear : ∀ y, y ≠ x → (marked pk₂ x).is y = 0 := fun y hy => by
    rw [hmarked]
    refine (Function.update_of_ne hy _ _).trans ?_
    by_cases hold : y = pk.pr
    · rw [hold]
      exact Function.update_self _ _ _
    · rw [← hpk₁]
      exact (Function.update_of_ne hold _ _).trans ((Function.update_of_ne hold _ _).trans (h.clear y))
  have hscan := @scan_one pk₂ _ _ h.narrow h.wide hx8 (by rw [hheld]; exact (held_bits short).1) hclear
  have hpr₂ : pk₂.pr = pk.pr := by
    rw [← hpk₂, ← hpk₁]
    rfl
  have hpr : (marked pk₂ x).pr = pk.pr := by
    rw [hmarked]
    exact hpr₂
  refine ⟨{ marked pk₂ x with rcount := 1 }, ?_, ?_, hpr⟩
  · refine Option.bind_eq_some_iff.mpr ⟨_, await_idle h _ _, ?_⟩
    have himap : { placed (frame rpr pk short osum packet) pk with imap := 0 } = pk₁ := by
      rw [← hpk₁, frame, hx]
      exact congrArg (fun imap => { placed ⟨_, _, _⟩ pk with imap := imap }) h.imap.symm
    rw [pkdata_idle h, hx]
    dsimp only
    refine Option.bind_eq_some_iff.mpr ⟨_, acceptSlots_one h.pr (himap ▸ hslot), ?_⟩
    rw [hpr₂, hx]
    exact Option.bind_eq_some_iff.mpr ⟨_, hscan, rfl⟩
  · have hup : Up (marked pk₂ x) := by
      rw [hmarked, ← hpk₂, ← hpk₁]
      exact ⟨h.live, h.drain, h.pr, h.wide, h.narrow, h.imap⟩
    have hnext : next (marked pk₂ x).pr = x := by rw [hpr, hx]
    have hib : (marked pk₂ x).ib x = packet := by
      rw [hmarked, ← hpk₂, ← hpk₁]
      exact (Function.update_self _ _ _).trans (Function.update_self _ _ _)
    have hisum : (marked pk₂ x).isum x = BitVec.ofNat 16 d.length := by
      rw [hmarked, ← hpk₂]
      exact Function.update_self _ _ _
    obtain ⟨tail, hat⟩ := dataAt_held hc hheld hib
    refine { hup with copy := ?_, clear := ?_, size := ?_, bound := hbound, at_ := ⟨tail, ?_⟩, rcount := rfl }
    · exact (congrArg (fun y => (marked pk₂ x).is y &&& B_COPY) hnext).trans_ne
        (by rw [hheld]; exact (held_bits short).1)
    · exact fun y hy => hclear y fun heq => hy (heq.trans hnext.symm)
    · exact (congrArg (marked pk₂ x).isum hnext).trans hisum
    · exact (congrArg (dataAt (marked pk₂ x)) hnext).trans hat

/-! ## The reader -/

theorem marked_copy {x : Nat} (h : pk.is x &&& B_COPY ≠ 0) : marked pk x = pk := by
  have hall : ∀ b : Byte, b &&& B_COPY ≠ 0 → b ||| B_COPY = b := by decide
  unfold marked
  split
  · rw [hall _ h, Function.update_eq_self]
  · rfl

/-- `pkaccept` finds the packet that there is. -/
theorem pkaccept_holding (h : Holding pk d) (wire : List Frame) : pkaccept wire pk = some (1, wire, pk) := by
  have hwait : await wire pk = some (wire, pk) := by
    unfold await
    exact if_neg fun hnone => by
      rw [h.rcount] at hnone
      exact absurd hnone.2 (by decide)
  have hmarked := marked_copy h.copy
  have hscan := @scan_one pk _ _ h.narrow h.wide (next_lt pk.pr) (by rw [hmarked]; exact h.copy)
    (by rw [hmarked]; exact h.clear)
  rw [hmarked] at hscan
  have himap : { pk with imap := 0 } = pk := congrArg (fun imap => { pk with imap := imap }) h.imap.symm
  have hcount : { pk with rcount := 1 } = pk := congrArg (fun n => { pk with rcount := n }) h.rcount.symm
  refine Option.bind_eq_some_iff.mpr ⟨_, hwait, ?_⟩
  dsimp only
  rw [himap, h.imap]
  exact Option.bind_eq_some_iff.mpr ⟨_, acceptSlots_skip fun x _ => BitVec.zero_and,
    Option.bind_eq_some_iff.mpr ⟨_, hscan, congrArg (fun pk => some (1, wire, pk)) hcount⟩⟩

theorem acceptLoop_holding (h : Holding pk d) (n : Nat) (wire : List Frame) :
    acceptLoop (n + 1) wire pk = some (wire, pk) :=
  Option.bind_eq_some_iff.mpr ⟨_, pkaccept_holding h wire, if_neg one_ne_zero⟩

/-- The first `pkread` of a packet goes on from where `pkaccept` has put it. -/
theorem pkread_idle (h : Idle pk) (hsize : pk.rsize.toNat ≤ 4096) {rpr : Nat} (hrpr : rpr < 8)
    {packet : List Byte} {short : Bool} (hc : Carries pk.rsize packet short d) {osum : BitVec 16}
    (hchk : chksum packet pk.rsize = some osum) (wire : List Frame) :
    ∃ pk', Holding pk' d ∧ pk'.pr = pk.pr ∧ ∀ count,
      pkread count (frame rpr pk short osum packet :: wire) pk = pkread count wire pk' := by
  obtain ⟨pk', haccept, hholding, hpr⟩ := pkaccept_idle h hsize hrpr hc hchk wire
  refine ⟨pk', hholding, hpr, fun count => ?_⟩
  have hfirst : ∀ n, acceptLoop (n + 1) (frame rpr pk short osum packet :: wire) pk = some (wire, pk') :=
    fun n => Option.bind_eq_some_iff.mpr ⟨_, haccept, if_neg one_ne_zero⟩
  unfold pkread
  rw [hfirst, acceptLoop_holding hholding]

/-- One packet's turn of `pkread`. -/
theorem readLoop_turn (h : Holding pk d) {count : BitVec 16} (hpos : 0 < count.toInt) (n : Nat) :
    ∃ tail, ∀ cc, cc = BitVec.ofNat 16 (min d.length count.toNat) →
      readLoop (n + 1) count false pk =
        if cc = 0 then some ([], taken pk (next pk.pr) cc (d ++ tail))
        else (readLoop n (count - cc) true (taken pk (next pk.pr) cc (d ++ tail))).bind fun r =>
          some (d.take (min d.length count.toNat) ++ r.1, r.2) := by
  obtain ⟨tail, hat⟩ := h.at_
  refine ⟨tail, fun cc hcc => ?_⟩
  have hbound := h.bound
  have hcount : count.toInt = count.toNat := BitVec.toInt_eq_toNat_of_msb (by
    rw [BitVec.msb_eq_toInt]
    exact decide_eq_false (by omega))
  have hne : ¬count = 0 := fun hzero => by
    rw [hzero] at hpos
    exact absurd hpos (by decide)
  have hmin : (if (pk.isum (next pk.pr)).toInt < count.toInt then pk.isum (next pk.pr) else count) = cc := by
    rw [hcc, h.size, int_eq (by omega), hcount]
    split
    · rw [Nat.min_eq_left (by omega)]
    · rw [Nat.min_eq_right (by omega), BitVec.ofNat_toNat, BitVec.setWidth_eq]
  have hto : cc.toInt.toNat = min d.length count.toNat := by
    rw [hcc, int_eq (by omega)]
    rfl
  have htake : (d ++ tail).take (min d.length count.toNat) = d.take (min d.length count.toNat) :=
    List.take_append_of_le_length (by omega)
  conv_lhs => unfold readLoop
  dsimp only
  rw [if_neg hne, if_neg h.copy, hmin, if_neg fun hno => Bool.false_ne_true hno.2, hat, hto]
  dsimp only [Option.bind_eq_bind, Option.bind_some]
  rw [if_neg (by rw [List.length_append]; omega)]
  split
  · rfl
  · rw [htake]
    rfl

/-- A packet of which bytes are left. -/
theorem taken_less (h : Holding pk d) {n : Nat} (hpos : 0 < n) (hless : n < d.length) (tail : List Byte) :
    Holding (taken pk (next pk.pr) (BitVec.ofNat 16 n) (d ++ tail)) (d.drop n) ∧
      (taken pk (next pk.pr) (BitVec.ofNat 16 n) (d ++ tail)).pr = pk.pr := by
  have hbound := h.bound
  have hsub : pk.isum (next pk.pr) - BitVec.ofNat 16 n = BitVec.ofNat 16 (d.length - n) := by
    apply BitVec.eq_of_toNat_eq
    rw [h.size, BitVec.toNat_sub, BitVec.toNat_ofNat, BitVec.toNat_ofNat, BitVec.toNat_ofNat]
    clear * - hless
    omega
  have hne : BitVec.ofNat 16 (d.length - n) ≠ 0 := fun hzero => by
    have := congrArg BitVec.toInt hzero
    rw [int_eq (by omega)] at this
    exact absurd this (by rw [show (0 : BitVec 16).toInt = 0 from rfl]; omega)
  have hbits : ∀ b : Byte, (b ||| B_RESID) &&& B_RESID ≠ 0 ∧
      (b &&& B_COPY ≠ 0 → (b ||| B_RESID) &&& B_COPY ≠ 0) := by decide
  unfold taken
  rw [hsub, if_neg hne, int_eq (by omega)]
  obtain ⟨is', his'⟩ : ∃ is', Function.update pk.is (next pk.pr) (pk.is (next pk.pr) ||| B_RESID) = is' :=
    ⟨_, rfl⟩
  have hself : is' (next pk.pr) = pk.is (next pk.pr) ||| B_RESID := his' ▸ Function.update_self _ _ _
  rw [his']
  refine ⟨⟨⟨h.live, h.drain, h.pr, h.wide, h.narrow, h.imap⟩, ?_, fun x hx => ?_, ?_, ?_, ⟨tail, ?_⟩,
    h.rcount⟩, rfl⟩
  · exact fun hzero => (hbits _).2 h.copy ((congrArg (· &&& B_COPY) hself).symm.trans hzero)
  · rw [← his']
    exact (Function.update_of_ne hx _ _).trans (h.clear x hx)
  · rw [List.length_drop]
    exact Function.update_self _ _ _
  · rw [List.length_drop]
    omega
  · refine (if_pos ?_).trans ?_
    · exact fun hzero => (hbits _).1 ((congrArg (· &&& B_RESID) hself).symm.trans hzero)
    · rw [Int.toNat_natCast, List.drop_append_of_le_length hless.le]

/-- A packet of which all bytes are taken. -/
theorem taken_all (h : Holding pk d) (tail : List Byte) :
    Idle (taken pk (next pk.pr) (BitVec.ofNat 16 d.length) (d ++ tail)) ∧
      (taken pk (next pk.pr) (BitVec.ofNat 16 d.length) (d ++ tail)).pr = next pk.pr := by
  have hzero : pk.isum (next pk.pr) - BitVec.ofNat 16 d.length = 0 := by
    rw [h.size]
    exact BitVec.sub_self _
  unfold taken
  rw [if_pos hzero]
  refine ⟨⟨⟨h.live, h.drain, next_lt _, h.wide, h.narrow, h.imap⟩, fun x => ?_, ?_⟩, rfl⟩
  · by_cases hx : x = next pk.pr
    · rw [hx]
      exact Function.update_self _ _ _
    · exact (Function.update_of_ne hx _ _).trans (h.clear x hx)
  · dsimp only
    rw [h.rcount]

theorem readLoop_none (h : pk.is (next pk.pr) = 0) (n : Nat) (count : BitVec 16) (xfr : Bool) :
    readLoop (n + 1) count xfr pk = some ([], pk) := by
  by_cases hc : count = 0
  · exact if_pos hc
  · exact (if_neg hc).trans (if_pos (by rw [h]; decide))

theorem toNat_pos {count : BitVec 16} (hpos : 0 < count.toInt) : ∃ n, count.toNat = n + 1 :=
  Nat.exists_eq_succ_of_ne_zero fun hzero => by
    rw [BitVec.eq_of_toNat_eq (y := 0) hzero] at hpos
    exact absurd hpos (by decide)

/-- A read of fewer bytes than there are. -/
theorem pkread_less (h : Holding pk d) {count : BitVec 16} (hpos : 0 < count.toInt)
    (hless : count.toNat < d.length) (wire : List Frame) :
    ∃ pk', pkread count wire pk = some (d.take count.toNat, wire, pk') ∧
      Holding pk' (d.drop count.toNat) ∧ pk'.pr = pk.pr := by
  obtain ⟨tail, hturn⟩ := readLoop_turn h hpos count.toNat
  obtain ⟨n, hn⟩ := toNat_pos hpos
  obtain ⟨hleft, hpr⟩ := taken_less h (n := count.toNat) (by omega) hless tail
  have hcount : BitVec.ofNat 16 count.toNat = count := by rw [BitVec.ofNat_toNat, BitVec.setWidth_eq]
  rw [hcount] at hleft hpr
  have hloop := hturn count (by rw [Nat.min_eq_right hless.le, hcount])
  have hne : ¬count = 0 := fun hzero => by
    rw [hzero] at hpos
    exact absurd hpos (by decide)
  have hself : count - count = 0 := BitVec.sub_self _
  refine ⟨_, ?_, hleft, hpr⟩
  rw [if_neg hne, hself, hn, ← hn, Nat.min_eq_right hless.le] at hloop
  have hdone : readLoop (count.toNat + 1) count false pk =
      some (d.take count.toNat, taken pk (next pk.pr) count (d ++ tail)) := by
    rw [hloop, hn]
    exact congrArg (fun l => some (l, taken pk (next pk.pr) count (d ++ tail))) (List.append_nil _)
  exact Option.bind_eq_some_iff.mpr ⟨_, acceptLoop_holding h _ wire,
    Option.bind_eq_some_iff.mpr ⟨_, hdone, rfl⟩⟩

/-- A read of all the bytes that there are. -/
theorem pkread_all (h : Holding pk d) {count : BitVec 16} (hpos : 0 < count.toInt)
    (hall : d.length ≤ count.toNat) (wire : List Frame) :
    ∃ pk', pkread count wire pk = some (d, wire, pk') ∧ Idle pk' ∧ pk'.pr = next pk.pr := by
  obtain ⟨tail, hturn⟩ := readLoop_turn h hpos count.toNat
  obtain ⟨hidle, hpr⟩ := taken_all h tail
  have hloop := hturn (BitVec.ofNat 16 d.length) (by rw [Nat.min_eq_left hall])
  obtain ⟨pk', hpk'⟩ : ∃ pk', taken pk (next pk.pr) (BitVec.ofNat 16 d.length) (d ++ tail) = pk' := ⟨_, rfl⟩
  rw [hpk'] at hidle hpr hloop
  refine ⟨pk', ?_, hidle, hpr⟩
  have hdone : readLoop (count.toNat + 1) count false pk = some (d, pk') := by
    obtain ⟨n, hn⟩ := toNat_pos hpos
    rw [hloop, Nat.min_eq_left hall, List.take_length]
    split
    · rename_i hzero
      have hlen := congrArg BitVec.toInt hzero
      rw [int_eq (by have := h.bound; omega)] at hlen
      rw [List.eq_nil_of_length_eq_zero (Int.natCast_eq_zero.mp hlen)]
    · rw [hn, readLoop_none (hidle.clear _), Option.bind_some, List.append_nil]
  exact Option.bind_eq_some_iff.mpr ⟨_, acceptLoop_holding h _ wire,
    Option.bind_eq_some_iff.mpr ⟨_, hdone, rfl⟩⟩

/-! ## Several reads -/

/-- One `pkread` after the other. -/
def reads : List (BitVec 16) → List Frame → Pack → Option (List (List Byte) × List Frame × Pack)
  | [], wire, pk => some ([], wire, pk)
  | count :: counts, wire, pk => do
    let (bytes, wire, pk) ← pkread count wire pk
    let (pieces, wire, pk) ← reads counts wire pk
    return (bytes :: pieces, wire, pk)

/-- The reads that take all of `n` bytes: each asks for something, and only the last for what is left. -/
structure Takes (counts : List (BitVec 16)) (last : BitVec 16) (n : Nat) : Prop where
  pos : ∀ c ∈ counts, 0 < c.toInt
  wants : 0 < last.toInt
  before : counts = [] ∨ (counts.map BitVec.toNat).sum < n
  enough : n ≤ (counts.map BitVec.toNat).sum + last.toNat

/-- The reads of a packet give its bytes, in pieces. -/
theorem reads_holding {counts : List (BitVec 16)} {last : BitVec 16} (h : Holding pk d)
    (ht : Takes counts last d.length) (wire : List Frame) :
    ∃ pieces pk', reads (counts ++ [last]) wire pk = some (pieces, wire, pk') ∧ pieces.flatten = d ∧
      Idle pk' ∧ pk'.pr = next pk.pr := by
  induction counts generalizing pk d with
  | nil =>
    obtain ⟨pk', hread, hidle, hpr⟩ := pkread_all h ht.wants (by simpa using ht.enough) wire
    exact ⟨[d], pk', Option.bind_eq_some_iff.mpr ⟨_, hread, rfl⟩, List.append_nil d, hidle, hpr⟩
  | cons c counts ih =>
    have hsum : ((c :: counts).map BitVec.toNat).sum = c.toNat + (counts.map BitVec.toNat).sum := by
      rw [List.map_cons, List.sum_cons]
    have hbefore := ht.before.resolve_left (List.cons_ne_nil _ _)
    have henough := ht.enough
    rw [hsum] at hbefore henough
    obtain ⟨pk₁, hread, hleft, hpr₁⟩ := pkread_less h (ht.pos c List.mem_cons_self) (by omega) wire
    have hrest : Takes counts last (d.drop c.toNat).length := by
      rw [List.length_drop]
      exact ⟨fun c' hc' => ht.pos c' (List.mem_cons_of_mem _ hc'), ht.wants, Or.inr (by omega), by omega⟩
    obtain ⟨pieces, pk', hreads, hpieces, hidle, hpr⟩ := ih hleft hrest
    refine ⟨d.take c.toNat :: pieces, pk', ?_, ?_, hidle, hpr₁ ▸ hpr⟩
    · exact Option.bind_eq_some_iff.mpr ⟨_, hread, Option.bind_eq_some_iff.mpr ⟨_, hreads, rfl⟩⟩
    · rw [List.flatten_cons, hpieces, List.take_append_drop]

/-- The packet of `data` has the size of the packets, and gets through to reads of any sizes. -/
theorem packet_delivered {xsize : BitVec 16} (hpos : 0 < xsize.toNat) (hsize : xsize.toNat ≤ 4096)
    {ob data : List Byte} (hob : ob.length = xsize.toNat) (hdata : data.length ≤ xsize.toNat) :
    ∃ packet short osum, pkwrite xsize [ob] data = some [(packet, short)] ∧
      packet.length = xsize.toNat ∧ (short = true ↔ data.length < xsize.toNat) ∧
      (short = false → packet = data) ∧ chksum packet xsize = some osum ∧
      ∀ (pk : Pack) (rpr : Nat) (wire : List Frame) (counts : List (BitVec 16)) (last : BitVec 16),
        Idle pk → pk.rsize = xsize → rpr < 8 → Takes counts last data.length →
        ∃ pieces pk', reads (counts ++ [last]) (frame rpr pk short osum packet :: wire) pk =
            some (pieces, wire, pk') ∧ pieces.flatten = data ∧ Idle pk' ∧ pk'.pr = next pk.pr := by
  obtain ⟨packet, hfill, hc⟩ := fill_spec hsize hob (show data.length < 32768 by omega)
  rw [List.drop_of_length_le hdata] at hfill
  rw [List.take_of_length_le hdata] at hc
  obtain ⟨osum, hchk⟩ := chkLoop_some (n := xsize) hc.length.symm (by rw [hc.length]; exact hpos)
    (by rw [hc.length]; exact hsize) (-1) 0
  refine ⟨packet, _, osum, Option.bind_eq_some_iff.mpr ⟨_, hfill, if_pos rfl⟩, hc.length,
    decide_eq_true_iff, fun hfull => ?_, hchk, fun pk rpr wire counts last hidle hrsize hrpr ht => ?_⟩
  · have hcontent := hc.content
    rw [hfull] at hcontent
    exact hcontent
  · subst hrsize
    obtain ⟨pk₁, hholding, hpr₁, hfirst⟩ := pkread_idle hidle hsize hrpr hc hchk wire
    obtain ⟨pieces, pk', hreads, hpieces, hidle', hpr⟩ := reads_holding hholding ht wire
    refine ⟨pieces, pk', ?_, hpieces, hidle', hpr₁ ▸ hpr⟩
    have hsame : ∀ c cs, reads (c :: cs) (frame rpr pk _ osum packet :: wire) pk = reads (c :: cs) wire pk₁ :=
      fun c cs => by
        unfold reads
        rw [hfirst c]
    cases counts with
    | nil => exact (hsame last []).trans hreads
    | cons c cs => exact (hsame c (cs ++ [last])).trans hreads

/-- A receiver that has just come up, for packets of 64 bytes. -/
def started : Pack where
  live := true
  draino := false
  rsize := 64
  rptr := []
  rcount := 0
  rwindow := 3
  msg := 0
  rmsg := 0
  pr := 0
  imap := 0
  ib := fun _ => []
  is := fun _ => 0
  isum := fun _ => 0

theorem packet_delivered_started : ∃ packet short osum pieces pk',
    pkwrite 64 [List.replicate 64 0] [0o141, 0o142, 0o200] = some [(packet, short)] ∧
      reads ([1] ++ [4]) [frame 0 started short osum packet] started = some (pieces, [], pk') ∧
      pieces.flatten = [0o141, 0o142, 0o200] := by
  obtain ⟨packet, short, osum, hwrite, -, -, -, -, hreads⟩ :=
    @packet_delivered 64 (by decide) (by decide) (List.replicate 64 0) [0o141, 0o142, 0o200]
      List.length_replicate (by decide)
  have hidle : Idle started := ⟨⟨rfl, rfl, by decide, by decide, by decide, rfl⟩, fun _ => rfl, rfl⟩
  have ht : Takes [1] 4 3 :=
    ⟨List.forall_mem_singleton.mpr (by decide), by decide, Or.inr (by decide), by decide⟩
  obtain ⟨pieces, pk', hread, hpieces, -, -⟩ := hreads started 0 [] [1] 4 hidle rfl (by decide) ht
  exact ⟨packet, short, osum, pieces, pk', hwrite, hread, hpieces⟩

end Venix.Uucp
