/-
  The line that `m_out` prints.

  The digits are stored from the lowest on, in groups of ten, so the buffer is large enough exactly
  where the grouped numeral with its sign and the null is not longer than it: five digits a limb are
  the most, and the estimate of seven bytes fits a single limb without a byte to spare. It is wrong
  where seven bytes a limb are more than 16 bits.
-/
import Venix.Libmp.Mout

namespace Venix.Libmp

open Venix.Lib

/-! ## The buffer -/

/-- What is stored for a digit or a blank. -/
def code : Option Nat → Int
  | none => 32
  | some d => d + 48

def codeByte (c : Option Nat) : UInt8 := UInt8.ofNat (code c % 256).toNat

def Obuf.puts : List (Option Nat) → Obuf → Option Obuf
  | [], o => some o
  | c :: l, o => (o.put (code c)).bind (Obuf.puts l)

theorem Obuf.put_some {o : Obuf} (h : 0 < o.room) (c : Int) :
    o.put c = some ⟨o.room - 1, UInt8.ofNat (c % 256).toNat :: o.cells⟩ := if_neg h.ne'

theorem Obuf.puts_append (l l' : List (Option Nat)) (o : Obuf) :
    o.puts (l ++ l') = (o.puts l).bind (Obuf.puts l') := by
  induction l generalizing o with
  | nil => rfl
  | cons c l ih =>
    rw [List.cons_append, puts, puts, Option.bind_assoc]
    congr 1
    funext o
    exact ih o

/-- There is room, or there is not. -/
theorem Obuf.puts_eq (l : List (Option Nat)) (o : Obuf) :
    o.puts l = if l.length ≤ o.room then
      some ⟨o.room - l.length, (l.map codeByte).reverse ++ o.cells⟩ else none := by
  induction l generalizing o with
  | nil => exact (if_pos (Nat.zero_le _)).symm
  | cons c l ih =>
    rw [puts]
    by_cases h0 : o.room = 0
    · rw [put, if_pos h0, if_neg (by rw [h0]; exact Nat.not_succ_le_zero _)]
      rfl
    · rw [put, if_neg h0, Option.bind_some, ih, List.length_cons]
      dsimp only
      by_cases hle : l.length ≤ o.room - 1
      · rw [if_pos hle, if_pos (by omega), List.map_cons, List.reverse_cons, List.append_assoc,
          Nat.sub_sub, Nat.add_comm 1]
        rfl
      · rw [if_neg hle, if_neg (by omega)]

/-! ## The digits -/

/-- The copy that `m_out` divides: `h₀` is the heap before the call. -/
structure Copy (h₀ h : Heap) (x : Mint) (n : Nat) : Prop where
  num : IsNum h x n
  size : x.len.toInt.natAbs ≤ 32765
  grows : Grows h₀ h
  new : x.len ≠ 0 → h₀.next ≤ x.val

variable {busy b : Int16} {base : Nat} {h₀ h : Heap} {x : Mint} {n : Nat}

theorem Copy.pos_iff (hx : Copy h₀ h x n) : 0 < x.len ↔ n ≠ 0 := by
  have h0 : (0 : Int16).toInt = 0 := rfl
  have := hx.num.len_nonpos
  rw [Int16.le_iff_toInt_le, h0] at this
  rw [Int16.lt_iff_toInt_lt, h0]
  omega

/-- A division leaves the next digit. -/
theorem Copy.sdiv (hbusy : busy ≠ 0) (hb : b.toInt = base) (hbase : 1 < base)
    (hx : Copy h₀ h x n) :
    ∃ x' r h', Libmp.sdiv busy x b x h = some (x', r, h') ∧ Copy h₀ h' x' (n / base) ∧
      r.toInt = (n % base : Nat) := by
  have h0 : (0 : Int16).toInt = 0 := rfl
  have hb0 : b ≠ 0 := by
    rintro rfl
    omega
  have hmin : b ≠ -32768 := by
    rintro rfl
    have : (-32768 : Int16).toInt = -32768 := rfl
    omega
  obtain ⟨y, r, h', hrun, hnum, hr, hframe, hnew⟩ :=
    sdiv_gives hbusy hb0 hmin hx.num hx.size hx.num.owned
  rw [hb, ← Int.ofNat_tdiv] at hnum
  have hrem : remainder n b.toInt = (n % base : Nat) := by
    rw [remainder, if_neg (by omega), hb, ← Int.ofNat_tmod]
  have hgrows : Grows h₀ h' := by
    refine ⟨hx.grows.next.trans hframe.next, fun p hp => ?_⟩
    rw [hframe.old p (lt_of_lt_of_le hp hx.grows.next) fun hne => ?_, hx.grows.old p hp]
    exact (lt_of_lt_of_le hp (hx.new hne)).ne
  have hle : |((n / base : Nat) : Int)| ≤ |(n : Int)| := by
    rw [Nat.abs_cast, Nat.abs_cast]
    exact_mod_cast Nat.div_le_self n base
  refine ⟨y, r, h', hrun, ⟨hnum, ?_, hgrows, fun _ => hx.grows.next.trans hnew⟩, hr.trans hrem⟩
  exact (hnum.natAbs_le (hle.trans_lt hx.num.lt_pow)).trans hx.size

/-- Up to `k` digits of a group are stored, all of them where more are left. Whether there is room
does not change the divisions. -/
theorem outDigits_spec (hbusy : busy ≠ 0) (hb : b.toInt = base) (hbase : 1 < base) (k : Nat)
    (hx : Copy h₀ h x n) {i : Nat} (hi : i + k = 10) :
    ∃ t n' j x' h', Copy h₀ h' x' n' ∧ grouped base 10 n i = t ++ grouped base 10 n' j ∧
      (n' = 0 ∨ j = 10) ∧ (n = 0 ∨ k = 0 ∨ n' < n) ∧ n' ≤ n ∧
      ∀ o, outDigits busy b k x o h = (o.puts t).map fun o => (x', o, h') := by
  induction k generalizing h x n i with
  | zero => exact ⟨[], n, i, x, h, hx, rfl, .inr hi, .inr (.inl rfl), le_refl n, fun _ => rfl⟩
  | succ k ih =>
    by_cases hn : n = 0
    · subst hn
      refine ⟨[], 0, i, x, h, hx, rfl, .inl rfl, .inl rfl, le_refl 0, fun o => ?_⟩
      rw [outDigits, if_neg fun hpos => hx.pos_iff.mp hpos rfl]
      rfl
    · obtain ⟨x₁, r, h₁, hrun, hx₁, hr⟩ := hx.sdiv hbusy hb hbase
      obtain ⟨t, n', j, x', h', hx', hgroup, hend, -, hle, hout⟩ := ih hx₁ (i := i + 1) (by omega)
      have hlt : n / base < n := Nat.div_lt_self (by omega) hbase
      refine ⟨some (n % base) :: t, n', j, x', h', hx', ?_, hend, .inr (.inr (by omega)), by omega,
        fun o => ?_⟩
      · rw [grouped_lt hbase hn (by omega), hgroup]
        rfl
      · have hcode : r.toInt + 48 = code (some (n % base)) := by
          rw [hr]
          rfl
        rw [outDigits, if_pos (hx.pos_iff.mpr hn), hrun, Obuf.puts]
        simp only [Option.bind_eq_bind, Option.bind_some, hcode, hout, Option.map_bind]
        rfl

/-- All digits, with the blanks, where the groups are not more than `fuel`. -/
theorem outGroups_spec (hbusy : busy ≠ 0) (hb : b.toInt = base) (hbase : 1 < base)
    (hx : Copy h₀ h x n) :
    ∃ x' h', Copy h₀ h' x' 0 ∧ ∀ fuel o, o.room < fuel →
      outGroups busy b fuel x o h = (o.puts (grouped base 10 n 0)).map fun o => (x', o, h') := by
  induction n using Nat.strong_induction_on generalizing h x with
  | _ n ih =>
    by_cases hn : n = 0
    · subst hn
      refine ⟨x, h, hx, fun fuel o hfuel => ?_⟩
      cases fuel with
      | zero => omega
      | succ fuel =>
        rw [outGroups, if_neg fun hpos => hx.pos_iff.mp hpos rfl, grouped_zero]
        rfl
    · obtain ⟨t, n', j, x₁, h₁, hx₁, hgroup, hend, hlt, -, hout⟩ :=
        outDigits_spec hbusy hb hbase 10 hx (Nat.zero_add 10)
      have hlt : n' < n := by omega
      have hne : t ≠ [] := by
        rintro rfl
        have hsame := congrArg (fun l => l.reverse.foldl (readDigit base) 0) hgroup
        rw [List.nil_append, grouped_read hbase, grouped_read hbase] at hsame
        omega
      obtain ⟨x', h', hx', hrest⟩ := ih n' hlt hx₁
      refine ⟨x', h', hx', fun fuel o hfuel => ?_⟩
      cases fuel with
      | zero => omega
      | succ fuel =>
        rw [outGroups, if_pos (hx.pos_iff.mpr hn), hout, hgroup, Obuf.puts_append]
        cases hput : o.puts t with
        | none => rfl
        | some o₁ =>
          have hroom : o₁.room < fuel := by
            have hpos := List.length_pos_iff.mpr hne
            rw [Obuf.puts_eq] at hput
            split at hput
            · cases hput
              dsimp only
              omega
            · cases hput
          by_cases hzero : n' = 0
          · subst hzero
            simp only [Option.map_some, Option.bind_eq_bind, Option.bind_some,
              if_neg fun hpos => hx₁.pos_iff.mp hpos rfl, hrest fuel o₁ hroom, grouped_zero]
          · rw [hend.resolve_left hzero, grouped_full hbase hzero (by decide)]
            simp only [Option.map_some, Option.bind_eq_bind, Option.bind_some,
              if_pos (hx₁.pos_iff.mpr hzero), Obuf.puts]
            by_cases h0 : o₁.room = 0
            · rw [code, Obuf.put, if_pos h0]
              rfl
            · rw [code, Obuf.put, if_neg h0]
              exact hrest fuel _ (by dsimp only; omega)

/-! ## The line -/

theorem magnitude_val (len : Int16) (p q : Nat) :
    magnitude ⟨len, q⟩ = ⟨(magnitude ⟨len, p⟩).len, q⟩ := by
  unfold magnitude
  dsimp only
  split <;> rfl

/-- What `m_out` does: but for the buffer, nothing goes wrong. -/
theorem m_out_run (hbusy : busy ≠ 0) (hb : b.toInt = base) (hbase : 1 < base) {a : Mint} {va : Int}
    (ha : IsNum h a va) (hva : va ≠ 0) (hlen : a.len.toInt.natAbs ≤ 32765) :
    ∃ h', Grows h h' ∧ m_out busy a b h =
      (((Obuf.put 0 ⟨7 * a.len.toInt.natAbs % 65536, []⟩).bind
        (Obuf.puts (grouped base 10 va.natAbs 0))).bind fun o =>
          if va < 0 then o.put 45 else some o).map fun o =>
            (o.cells.takeWhile (fun c => c ≠ 0) ++ [10], h') := by
  have h0 : (0 : Int16).toInt = 0 := rfl
  obtain ⟨h₁, hcopy, hnum, hg⟩ := copy_isNum ha hlen
  obtain ⟨l, hrep, hcanon, hval, hl⟩ := hnum.magnitude
  rw [magnitude_val a.len a.val] at hrep
  have hxlen : (magnitude a).len.toInt = a.len.toInt.natAbs := by
    rw [← hl]
    exact hrep.len
  have hx : Copy h h₁ ⟨(magnitude a).len, h.next⟩ va.natAbs := by
    refine ⟨?_, ?_, hg, fun _ => le_refl _⟩
    · rw [Int.natCast_natAbs, ← hval]
      exact hrep.isNum hcanon
    · dsimp only
      omega
  obtain ⟨x', h', hx', hout⟩ := outGroups_spec hbusy hb hbase hx
  have hfree : xfree x' h' = some h' := if_pos hx'.num.len_zero
  have hsize : (7 * (magnitude a).len.toInt % 65536).toNat = 7 * a.len.toInt.natAbs % 65536 := by
    rw [hxlen]
    exact Int.toNat_natCast (7 * a.len.toInt.natAbs % 65536)
  have hne : (magnitude a).len ≠ 0 := by
    intro e
    rw [e, h0] at hxlen
    have := (ha.pow_le hva).1
    omega
  have hxlen' : (if a.len < 0 then -a.len else a.len) = (magnitude a).len := by
    unfold magnitude
    split <;> rfl
  have hneg : a.len < 0 ↔ va < 0 := by
    have := ha.len_neg
    rwa [decide_eq_decide] at this
  refine ⟨h', hx'.grows, ?_⟩
  unfold m_out
  dsimp only
  rw [hxlen', if_neg hne, hsize]
  simp only [Option.bind_eq_bind, hneg]
  rw [show (h.xalloc (magnitude a).len).1 = h.next from rfl, hcopy, Option.bind_some]
  by_cases hroom : 7 * a.len.toInt.natAbs % 65536 = 0
  · rw [hroom, Obuf.put, if_pos rfl]
    rfl
  · rw [Obuf.put_some (Nat.pos_of_ne_zero hroom), Option.bind_some, Option.bind_some, 
      hout _ _ (Nat.lt_succ_of_le (Nat.sub_le _ _))]
    cases Obuf.puts (grouped base 10 va.natAbs 0) _ with
    | none => rfl
    | some o =>
      rw [Option.map_some, Option.bind_some, Option.bind_some]
      dsimp only
      cases (if va < 0 then o.put 45 else some o) with
      | none => rfl
      | some o => rw [Option.bind_some, hfree]; rfl

/-- A limb is at most five digits, and more than four. -/
theorem numeral_size (hbase : 8 ≤ base ∧ base ≤ 10) {a : Mint} {va : Int} (ha : IsNum h a va)
    (hva : va ≠ 0) :
    4 * (a.len.toInt.natAbs - 1) < (Nat.digits base va.natAbs).length ∧
      (Nat.digits base va.natAbs).length ≤ 5 * a.len.toInt.natAbs := by
  have hlt := ha.lt_pow
  have hle := (ha.pow_le hva).2
  rw [Int.abs_eq_natAbs] at hlt hle
  constructor
  · rw [Nat.lt_digits_length_iff (by omega)]
    calc base ^ (4 * (a.len.toInt.natAbs - 1)) ≤ 10 ^ (4 * (a.len.toInt.natAbs - 1)) :=
          Nat.pow_le_pow_left hbase.2 _
      _ = (10 ^ 4) ^ (a.len.toInt.natAbs - 1) := pow_mul _ _ _
      _ ≤ 32768 ^ (a.len.toInt.natAbs - 1) := Nat.pow_le_pow_left (by decide) _
      _ ≤ va.natAbs := by exact_mod_cast hle
  · rw [Nat.digits_length_le_iff (by omega)]
    calc va.natAbs < 32768 ^ a.len.toInt.natAbs := by exact_mod_cast hlt
      _ = 8 ^ (5 * a.len.toInt.natAbs) := (pow_mul 8 5 _).symm
      _ ≤ base ^ (5 * a.len.toInt.natAbs) := Nat.pow_le_pow_left hbase.1 _

/-- What is before the digits. -/
def signBytes (va : Int) : List UInt8 := if va < 0 then [45] else []

theorem signBytes_length (va : Int) : (signBytes va).length ≤ 1 := by
  unfold signBytes
  split <;> decide

theorem codeByte_toNat {c : Option Nat} (hc : ∀ d, c = some d → d < 10) :
    (codeByte c).toNat = (code c).toNat ∧ 32 ≤ code c ∧ code c < 58 := by
  have hrange : 32 ≤ code c ∧ code c < 58 := by
    cases c with
    | none => exact ⟨le_refl _, by decide⟩
    | some d =>
      have := hc d rfl
      have hcode : code (some d) = d + 48 := rfl
      omega
  refine ⟨?_, hrange⟩
  unfold codeByte
  rw [UInt8.toNat_ofNat']
  omega

theorem codeByte_ne_zero {c : Option Nat} (hc : ∀ d, c = some d → d < 10) : codeByte c ≠ 0 := by
  intro e
  obtain ⟨h1, h2, -⟩ := codeByte_toNat hc
  have h0 : (0 : UInt8).toNat = 0 := rfl
  rw [e, h0] at h1
  omega

/-- `%s` prints what is before the null. -/
theorem takeWhile_line {l : List UInt8} (hl : ∀ c ∈ l, c ≠ 0) :
    (l ++ [0]).takeWhile (fun c => c ≠ 0) = l := by
  rw [List.takeWhile_append_of_pos fun c hc => decide_eq_true (hl c hc), List.takeWhile_cons_of_neg
    (by decide), List.append_nil]

/-- The line, where the buffer is large enough. -/
theorem m_out_line (hbusy : busy ≠ 0) (hb : b.toInt = base) (hbase : 8 ≤ base ∧ base ≤ 10)
    {a : Mint} {va : Int} (ha : IsNum h a va) (hva : va ≠ 0) (hlen : a.len.toInt.natAbs ≤ 9362) :
    ∃ h', Grows h h' ∧ m_out busy a b h =
      some (signBytes va ++ (grouped base 10 va.natAbs 0).reverse.map codeByte ++ [10], h') := by
  obtain ⟨h', hg, hrun⟩ := m_out_run hbusy hb (by omega) ha hva (by omega)
  refine ⟨h', hg, ?_⟩
  have hpos := (ha.pow_le hva).1
  have hdigits := (numeral_size hbase ha hva).2
  have hsize : 7 * a.len.toInt.natAbs % 65536 = 7 * a.len.toInt.natAbs :=
    Nat.mod_eq_of_lt (by omega)
  have hlength := grouped_length (b := base) (k := 10) (i := 0) (by omega)
    (Int.natAbs_ne_zero.mpr hva) (by decide) (by decide)
  have hmap : ∀ c ∈ ((grouped base 10 va.natAbs 0).map codeByte).reverse, c ≠ 0 := by
    intro c hc
    obtain ⟨d, hd, rfl⟩ := List.mem_map.mp (List.mem_reverse.mp hc)
    refine codeByte_ne_zero fun d' e => ?_
    exact (grouped_digit_lt (by omega) _ _ (e ▸ hd)).trans_le hbase.2
  rw [hrun, Obuf.put_some (by dsimp only; omega), Option.bind_some, Obuf.puts_eq,
    if_pos (by dsimp only; omega), Option.bind_some, List.map_reverse]
  unfold signBytes
  by_cases hneg : va < 0
  · rw [if_pos hneg, if_pos hneg, Obuf.put_some (by dsimp only; omega), Option.map_some]
    have hline := takeWhile_line (l := 45 :: ((grouped base 10 va.natAbs 0).map codeByte).reverse)
      (List.forall_mem_cons.mpr ⟨by decide, hmap⟩)
    exact congrArg (fun l => some (l ++ [10], h')) hline
  · rw [if_neg hneg, if_neg hneg, Option.map_some]
    exact congrArg (fun l => some (l ++ [10], h')) (takeWhile_line hmap)

/-- A copy does not end that goes on behind the block. -/
theorem copyLimbs_bound {p r : Nat} (m : Nat) {i : Nat} {h h' : Heap}
    {cells : List (Option Int16)} (hcells : h.blocks r = some cells)
    (hrun : copyLimbs p r m i h = some h') : m = 0 ∨ i + m ≤ cells.length := by
  induction m generalizing i h cells with
  | zero => exact .inl rfl
  | succ m ih =>
    obtain ⟨v, -, hrun⟩ := Option.bind_eq_some_iff.mp hrun
    obtain ⟨h₁, hw, hrun⟩ := Option.bind_eq_some_iff.mp hrun
    obtain ⟨hi, cells₁, hcells₁, hlen₁⟩ := write_length hcells hw
    have := ih hcells₁ hrun
    omega

/-- Seven bytes a limb are more than 16 bits. -/
theorem m_out_none (hbusy : busy ≠ 0) (hb : b.toInt = base) (hbase : 8 ≤ base ∧ base ≤ 10)
    {a : Mint} {va : Int} (ha : IsNum h a va) (hva : va ≠ 0) (hlen : 9363 ≤ a.len.toInt.natAbs) :
    m_out busy a b h = none := by
  by_cases hfits : a.len.toInt.natAbs ≤ 32765
  · obtain ⟨h', -, hrun⟩ := m_out_run hbusy hb (by omega) ha hva hfits
    have hdigits := (numeral_size hbase ha hva).1
    have hlength := grouped_length (b := base) (k := 10) (i := 0) (by omega)
      (Int.natAbs_ne_zero.mpr hva) (by decide) (by decide)
    have hsize := Nat.div_add_mod (7 * a.len.toInt.natAbs) 65536
    have hwrap : 1 ≤ 7 * a.len.toInt.natAbs / 65536 := Nat.div_pos (by omega) (by decide)
    have hlt := Nat.mod_lt (7 * a.len.toInt.natAbs) (show 0 < 65536 by decide)
    have hroom : 7 * a.len.toInt.natAbs % 65536 ≤ 4 * (a.len.toInt.natAbs - 1) + 1 := by
      rcases Nat.le_total a.len.toInt.natAbs 21844 with hle | hge
      · omega
      · omega
    rw [hrun]
    by_cases h0 : 7 * a.len.toInt.natAbs % 65536 = 0
    · rw [h0]
      rfl
    · have hfull : 7 * a.len.toInt.natAbs % 65536 - 1 < (grouped base 10 va.natAbs 0).length := by
        rw [hlength]
        refine lt_of_lt_of_le ?_ (Nat.le_add_right _ _)
        clear hlength hsize hwrap hlt
        generalize 7 * a.len.toInt.natAbs % 65536 = r at hroom ⊢
        omega
      rw [Obuf.put_some (Nat.pos_of_ne_zero h0), Option.bind_some, Obuf.puts_eq,
        if_neg (not_le.mpr hfull)]
      rfl
  · -- the copy has no room either
    obtain ⟨l, hrep, -, -, hl⟩ := ha.magnitude
    have hturns := hrep.turns
    have hxlen := hrep.len
    have hbig := (magnitude a).len.toInt_lt
    rw [← Option.not_isSome_iff_eq_none]
    intro hsome
    obtain ⟨r, hr⟩ := Option.isSome_iff_exists.mp hsome
    have hx : (if a.len < 0 then -a.len else a.len) = (magnitude a).len := by
      unfold magnitude
      split <;> rfl
    unfold m_out at hr
    dsimp only at hr
    rw [hx, if_neg fun e => by
      rw [e] at hxlen
      have h0 : (0 : Int16).toInt = 0 := rfl
      omega] at hr
    obtain ⟨h₁, hcopy, -⟩ := Option.bind_eq_some_iff.mp hr
    have hbound := copyLimbs_bound _ (Function.update_self h.next _ h.blocks) hcopy
    rw [hturns, List.length_replicate] at hbound
    omega

end Venix.Libmp
