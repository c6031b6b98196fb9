/-
  When `_doscan` stays inside its tables.

  The condition is about a directive of the format and the stream at it: the bytes that a `%c`, `%s`
  or `%[` looks at, the length of a number, the end of a bracket list. Each of `_getccl`, `_instr`
  and `_innum` fails exactly where it does not hold.

  Proved: a call comes to an end, with every index inside and the format read up to its NUL, exactly
  when the condition holds at every directive that is reached.
-/
import Venix.Stdio.Doscan

namespace Venix.Stdio

open Venix.Lib

/-! ## Bracket lists -/

/-- A bracket list with its end: `set` is what stands before the `]`, all of it 7-bit. -/
def Bracket (s set : List Int8) (rest : List Int8) : Prop :=
  ∃ c, s = set ++ c :: rest ∧ c &&& 0o177 = 93 ∧ ∀ x ∈ set, 0 ≤ x.toInt ∧ x &&& 0o177 ≠ 93

theorem char_lt (x : Int8) : x.toInt.toNat < 128 := by
  have := x.toInt_lt
  omega

/-- The characters that a list is for. -/
def entered (t : Bool) (tab : Sctab) (set : List Int8) : Sctab :=
  set.foldl (fun tab x => if _h : 0 ≤ x.toInt then
    enter t tab ⟨x.toInt.toNat, char_lt x⟩ else tab) tab

theorem getcclLoop_bracket {t : Bool} {s set rest : List Int8} (h : Bracket s set rest)
    (tab : Sctab) : getcclLoop t s tab = some (rest, entered t tab set) := by
  obtain ⟨c, rfl, hc, hset⟩ := h
  induction set generalizing tab with
  | nil =>
    rw [List.nil_append, getcclLoop, if_pos hc]
    rfl
  | cons x set ih =>
    obtain ⟨h0, hx⟩ := hset x List.mem_cons_self
    rw [List.cons_append, getcclLoop, if_neg hx, dif_pos h0,
      ih _ (fun y hy => hset y (List.mem_cons_of_mem x hy))]
    unfold entered
    rw [List.foldl_cons, dif_pos h0]

theorem bracket_of_getcclLoop {t : Bool} {s : List Int8} {tab : Sctab} {r : List Int8 × Sctab}
    (h : getcclLoop t s tab = some r) : ∃ set, Bracket s set r.1 := by
  induction s generalizing tab with
  | nil => cases h
  | cons c s ih =>
    rw [getcclLoop] at h
    split at h
    · next hc =>
      cases h
      exact ⟨[], c, rfl, hc, by simp⟩
    · next hc =>
      split at h
      · next h0 =>
        obtain ⟨set, c', hs, hc', hset⟩ := ih h
        refine ⟨c :: set, c', by rw [hs]; rfl, hc', ?_⟩
        intro x hx
        rcases List.mem_cons.mp hx with rfl | hx
        · exact ⟨h0, hc⟩
        · exact hset x hx
      · cases h

/-- The list after the `^`, if there is one. -/
def listed (s : List Int8) : List Int8 := if s.head? = some 94 then s.tail else s

theorem getccl_isSome_iff (s : List Int8) (tab : Sctab) :
    (getccl s tab).isSome ↔ ∃ set rest, Bracket (listed s) set rest := by
  have key : ∀ (t : Bool) (s : List Int8) (tab : Sctab),
      (getcclLoop t s tab).isSome ↔ ∃ set rest, Bracket s set rest := by
    intro t s tab
    constructor
    · intro h
      obtain ⟨r, hr⟩ := Option.isSome_iff_exists.mp h
      obtain ⟨set, hset⟩ := bracket_of_getcclLoop hr
      exact ⟨set, r.1, hset⟩
    · rintro ⟨set, rest, h⟩
      rw [getcclLoop_bracket h]
      rfl
  unfold getccl listed
  split
  · exact key _ _ _
  · exact key _ _ _

/-- The byte is in the list. -/
def inSet (set : List Int8) (b : UInt8) : Bool := set.any fun x => x.toInt = b.toNat

/-- A byte ends a `%[` when it is not in the list, or is in it after a `^`. -/
def stopsList (s set : List Int8) (b : UInt8) : Bool :=
  if s.head? = some 94 then inSet set b else !inSet set b

theorem or_stp (v : UInt8) : (v ||| STP) &&& STP ≠ 0 := by
  have h : ∀ w : BitVec 8, (w ||| 2#8) &&& 2#8 ≠ 0#8 := by decide
  intro e
  exact h v.toBitVec (congrArg UInt8.toBitVec e)

theorem and_not_stp (v : UInt8) : v &&& ~~~STP &&& STP = 0 := by
  have h : ∀ w : BitVec 8, w &&& ~~~2#8 &&& 2#8 = 0#8 := by decide
  exact UInt8.toBitVec_inj.mp (h v.toBitVec)

theorem enter_stp (t : Bool) (tab : Sctab) (c i : Fin 128) :
    enter t tab c i &&& STP ≠ 0 ↔ if i = c then t = true else tab i &&& STP ≠ 0 := by
  unfold enter
  by_cases h : i = c
  · subst h
    rw [Function.update_self, if_pos rfl]
    cases t with
    | true => exact iff_of_true (or_stp _) rfl
    | false => exact iff_of_false (not_not.mpr (and_not_stp _)) (by decide)
  · rw [Function.update_of_ne h, if_neg h]

theorem setClass_stp (t : Bool) (tab : Sctab) (i : Fin 128) :
    setClass t tab i &&& STP ≠ 0 ↔ t = false := by
  unfold setClass
  cases t with
  | true => exact iff_of_false (not_not.mpr (and_not_stp _)) (by decide)
  | false => exact iff_of_true (or_stp _) rfl

theorem entered_stp (t : Bool) (set : List Int8) (hset : ∀ x ∈ set, 0 ≤ x.toInt) (tab : Sctab)
    (i : Fin 128) :
    entered t tab set i &&& STP ≠ 0 ↔
      if set.any (fun x => x.toInt = i.val) then t = true else tab i &&& STP ≠ 0 := by
  induction set generalizing tab with
  | nil => exact Iff.rfl
  | cons x set ih =>
    have h0 := hset x List.mem_cons_self
    unfold entered at ih ⊢
    rw [List.foldl_cons, dif_pos h0, ih (fun y hy => hset y (List.mem_cons_of_mem x hy)),
      enter_stp, List.any_cons]
    by_cases hany : set.any (fun x => x.toInt = i.val) = true
    · simp [hany]
    · have heq : (i = ⟨x.toInt.toNat, char_lt x⟩) ↔ x.toInt = i.val := by
        rw [Fin.ext_iff]
        dsimp only
        omega
      simp only [hany, heq, Bool.or_false, decide_eq_true_eq]
      rfl

/-- `stop` is what the bit `ignstp` of the table says. -/
def Shows (tab : Sctab) (ignstp : UInt8) (stop : UInt8 → Bool) : Prop :=
  ∀ b v, look tab b = some v → (v &&& ignstp ≠ 0 ↔ stop b = true)

theorem look_isSome {tab : Sctab} {b : UInt8} : (look tab b).isSome ↔ b.toNat < 128 := by
  unfold look
  split <;> simp_all

/-- The table that a bracket list leaves. -/
theorem getccl_stp {s set rest : List Int8} (h : Bracket (listed s) set rest) (tab : Sctab) :
    ∃ tab', getccl s tab = some (rest, tab') ∧ Shows tab' STP (stopsList s set) := by
  have hset : ∀ x ∈ set, 0 ≤ x.toInt := by
    obtain ⟨-, -, -, h⟩ := h
    exact fun x hx => (h x hx).1
  have key : ∀ (t : Bool) (b v : UInt8), look (entered t (setClass t tab) set) b = some v →
      (v &&& STP ≠ 0 ↔ (if inSet set b then t = true else t = false)) := by
    intro t b v hv
    unfold look at hv
    split at hv
    · cases hv
      rw [entered_stp t set hset, setClass_stp]
      rfl
    · cases hv
  unfold getccl stopsList
  unfold listed at h
  split
  · next hhead =>
    rw [if_pos hhead] at h
    refine ⟨_, getcclLoop_bracket h _, fun b v hv => ?_⟩
    rw [key true b v hv]
    simp
  · next hhead =>
    rw [if_neg hhead] at h
    refine ⟨_, getcclLoop_bracket h _, fun b v hv => ?_⟩
    rw [key false b v hv]
    simp

/-! ## Text -/

/-- How many characters a conversion of this length takes at most. -/
def most (len : Int16) : Nat := if len.toInt = -32768 then 32768 else max len.toInt.toNat 1

/-- The bytes that a conversion looks at are 7-bit, where it skips those of `skip` first, ends
before one of `stop` and takes `n` at most; and there is one. -/
def TextOk (skip stop : UInt8 → Bool) (n : Nat) (inp : List UInt8) : Prop :=
  inp.dropWhile skip ≠ [] ∧ ∀ pre b rest, inp.dropWhile skip = pre ++ b :: rest →
    pre.length < n → (∀ x ∈ pre, stop x = false) → b.toNat < 128

theorem most_pos (len : Int16) : 0 < most len := by
  unfold most
  split <;> omega

theorem pred_toInt (len : Int16) : (len - 1).toInt =
    if len.toInt = -32768 then 32767 else len.toInt - 1 := by
  have h1 : (1 : Int16).toInt = 1 := rfl
  have hle := len.le_toInt
  have hlt := len.toInt_lt
  rw [Int16.toInt_sub, h1, Int.bmod_def]
  split <;> split <;> omega

/-- One character less may be taken, unless this was the last. -/
theorem most_pred (len : Int16) :
    most len = if (len - 1).toInt ≤ 0 then 1 else most (len - 1) + 1 := by
  have hpred := pred_toInt len
  have hle := len.le_toInt
  unfold most
  split at hpred
  · rw [hpred]
    simp [*]
  · rw [hpred]
    (repeat' split) <;> omega

theorem instrLoop_isSome_iff {tab : Sctab} {ignstp : UInt8} {stop : UInt8 → Bool}
    (hstop : Shows tab ignstp stop) (inp : List UInt8) : ∀ (len : Int16) (out : List UInt8),
    (instrLoop tab ignstp inp len out).isSome ↔
      ∀ pre b rest, inp = pre ++ b :: rest → pre.length < most len → (∀ x ∈ pre, stop x = false) →
        b.toNat < 128 := by
  induction inp with
  | nil =>
    intro len out
    exact iff_of_true rfl fun pre b rest h => absurd h (by simp)
  | cons c inp ih =>
    intro len out
    rw [instrLoop]
    cases hlook : look tab c with
    | none =>
      refine iff_of_false (by simp) fun h => ?_
      have hc := h [] c inp rfl (most_pos len) (by simp)
      rw [← @look_isSome tab, hlook] at hc
      cases hc
    | some v =>
      have hc : c.toNat < 128 := look_isSome.mp (by rw [hlook]; rfl)
      have hv := hstop c v hlook
      simp only [Option.bind_eq_bind, Option.bind_some]
      by_cases hs : v &&& ignstp ≠ 0
      · rw [if_pos hs]
        refine iff_of_true rfl fun pre b rest h _ hpre => ?_
        cases pre with
        | nil =>
          cases h
          exact hc
        | cons x pre =>
          cases h
          have := hpre c List.mem_cons_self
          rw [hv.mp hs] at this
          cases this
      · rw [if_neg hs]
        have hstopc : stop c = false := by
          rw [hv] at hs
          exact Bool.eq_false_iff.mpr hs
        have h0 : (0 : Int16).toInt = 0 := rfl
        have hmost := most_pred len
        by_cases hlast : len - 1 ≤ 0
        · rw [if_pos hlast]
          rw [Int16.le_iff_toInt_le, h0] at hlast
          rw [if_pos hlast] at hmost
          refine iff_of_true rfl fun pre b rest h hpre _ => ?_
          rw [hmost] at hpre
          rw [List.length_eq_zero_iff.mp (show pre.length = 0 by omega)] at h
          cases h
          exact hc
        · rw [if_neg hlast, ih]
          rw [Int16.le_iff_toInt_le, h0] at hlast
          rw [if_neg hlast] at hmost
          rw [hmost]
          constructor
          · intro h pre b rest heq hpre hall
            cases pre with
            | nil =>
              cases heq
              exact hc
            | cons x pre =>
              cases heq
              exact h pre b rest rfl (by simpa using hpre) fun x hx =>
                hall x (List.mem_cons_of_mem c hx)
          · intro h pre b rest heq hpre hall
            refine h (c :: pre) b rest (by rw [heq]; rfl) (by simpa using hpre) fun x hx => ?_
            rcases List.mem_cons.mp hx with rfl | hx
            · exact hstopc
            · exact hall x hx

/-- The bit of the table, for a byte that has an entry. -/
def bit (tab : Sctab) (ignstp : UInt8) (b : UInt8) : Bool :=
  match look tab b with
  | some v => v &&& ignstp ≠ 0
  | none => false

theorem shows_bit (tab : Sctab) (ignstp : UInt8) : Shows tab ignstp (bit tab ignstp) := by
  intro b v hv
  unfold bit
  rw [hv]
  simp

theorem shows_zero (tab : Sctab) : Shows tab 0 (fun _ => false) := by
  intro b v _
  simp

theorem instrSkip_eq {tab : Sctab} {ignstp : UInt8} {skip : UInt8 → Bool}
    (hskip : Shows tab ignstp skip) (h7 : ∀ b, skip b = true → b.toNat < 128) (inp : List UInt8) :
    instrSkip tab ignstp inp =
      match inp.dropWhile skip with
      | [] => none
      | b :: r => if b.toNat < 128 then some (b :: r) else none := by
  induction inp with
  | nil => rfl
  | cons c inp ih =>
    rw [instrSkip]
    cases hlook : look tab c with
    | none =>
      have hc : ¬c.toNat < 128 := by
        rw [← @look_isSome tab, hlook]
        simp
      have hs : ¬skip c = true := fun hs => hc (h7 c hs)
      rw [List.dropWhile_cons_of_neg hs]
      dsimp only
      rw [if_neg hc]
      rfl
    | some v =>
      have hc : c.toNat < 128 := look_isSome.mp (by rw [hlook]; rfl)
      simp only [Option.bind_eq_bind, Option.bind_some]
      by_cases hs : v &&& ignstp ≠ 0
      · rw [if_pos hs, ih, List.dropWhile_cons_of_pos ((hskip c v hlook).mp hs)]
      · rw [if_neg hs, List.dropWhile_cons_of_neg (fun h => hs ((hskip c v hlook).mpr h))]
        dsimp only
        rw [if_pos hc]
        rfl

theorem instr_isSome_iff {tab : Sctab} {type : Int} {skip stop : UInt8 → Bool} (len : Int16)
    (hskip : Shows tab (if type = 115 then SPC else 0) skip) (h7 : ∀ b, skip b = true → b.toNat < 128)
    (hstop : Shows tab (if type = 99 then 0 else if type = 91 then STP else SPC) stop) (ptr : Bool)
    (inp : List UInt8) :
    (instr tab ptr type len inp).isSome ↔
      TextOk skip stop (most (if type = 99 ∧ len = 30000 then 1 else len)) inp := by
  have hloop := instrLoop_isSome_iff hstop (inp.dropWhile skip)
    (if type = 99 ∧ len = 30000 then 1 else len) []
  unfold instr TextOk
  rw [← hloop]
  dsimp only
  rw [instrSkip_eq hskip h7]
  cases hr : inp.dropWhile skip with
  | nil => exact iff_of_false (by simp) (by simp)
  | cons b r =>
    dsimp only
    by_cases hb : b.toNat < 128
    · rw [if_pos hb]
      simp only [Option.bind_eq_bind, Option.bind_some, ne_eq, reduceCtorEq, not_false_eq_true,
        true_and]
      cases instrLoop tab (if type = 99 then 0 else if type = 91 then STP else SPC) (b :: r)
        (if type = 99 ∧ len = 30000 then 1 else len) [] <;> rfl
    · rw [if_neg hb]
      refine iff_of_false (by simp) fun h => hb ?_
      rw [hr] at hloop
      exact hloop.mp h.2 [] b r rfl (most_pos _) (by simp)

/-! ## Numbers -/

/-- How many turns the loop over a number makes at most. -/
def turns (len : Int16) : Nat := if len.toInt = -32768 then 32768 else len.toInt.toNat

theorem turns_pred (len : Int16) :
    turns len = if (len - 1).toInt < 0 then 0 else turns (len - 1) + 1 := by
  have hpred := pred_toInt len
  have hle := len.le_toInt
  unfold turns
  split at hpred
  · rw [hpred]
    simp [*]
  · rw [hpred]
    (repeat' split) <;> omega

/-- The characters of a number, without its sign and its exponent's. -/
def inNumber (ct : Ctype) (base : Nat) (float : Bool) (c : UInt8) : Bool :=
  ct.digit c.toNat || (base = 16 && isHex c) || (c = 46 && base = 10 && float)

/-- How many characters are taken for a number, `w` being the width and `n` the digits and dots
before: digits and dots, and for a floating number one `e`, with what may follow it. -/
def numLen (ct : Ctype) (base : Nat) (float : Bool) (w n : Nat) (seen : Bool) (inp : List UInt8) :
    Nat :=
  let m := (inp.takeWhile (inNumber ct base float)).length
  if w ≤ m then w
  else
    match inp.drop m with
    | [] => m
    | c :: r =>
      if isExp c && !seen && base = 10 && float && n + m ≠ 0 then
        match r with
        | [] => m + 1
        | c₁ :: r =>
          if signOrDigit c₁ then
            m + 2 + min (w - m - 1) (r.takeWhile (inNumber ct base float)).length
          else m + 1
      else m

section Number

variable (ct : Ctype) (base : Nat) (float : Bool)

theorem numLen_nil (w n : Nat) (seen : Bool) : numLen ct base float w n seen [] = 0 := by
  unfold numLen
  dsimp only [List.takeWhile_nil, List.length_nil, List.drop_nil]
  split
  · omega
  · rfl

theorem numLen_zero (n : Nat) (seen : Bool) (inp : List UInt8) :
    numLen ct base float 0 n seen inp = 0 := by
  unfold numLen
  dsimp only
  rw [if_pos (Nat.zero_le _)]

theorem numLen_cons_in {c : UInt8} (hc : inNumber ct base float c = true) (w n : Nat) (seen : Bool)
    (inp : List UInt8) :
    numLen ct base float (w + 1) n seen (c :: inp) = numLen ct base float w (n + 1) seen inp + 1 := by
  unfold numLen
  rw [List.takeWhile_cons_of_pos hc, List.length_cons]
  dsimp only
  generalize (inp.takeWhile (inNumber ct base float)).length = m
  by_cases hw : w ≤ m
  · rw [if_pos hw, if_pos (by omega)]
  · rw [if_neg hw, if_neg (by omega), List.drop_succ_cons]
    cases inp.drop m with
    | nil => rfl
    | cons d r =>
      dsimp only
      rw [show n + (m + 1) = n + 1 + m by omega]
      split
      · cases r with
        | nil => rfl
        | cons d₁ r =>
          dsimp only
          rw [show w + 1 - (m + 1) - 1 = w - m - 1 by omega]
          split <;> omega
      · rfl

theorem numLen_cons_out {c : UInt8} (hc : ¬inNumber ct base float c = true) (w n : Nat) (seen : Bool)
    (inp : List UInt8) :
    numLen ct base float (w + 1) n seen (c :: inp) =
      if isExp c && !seen && base = 10 && float && n ≠ 0 then
        match inp with
        | [] => 1
        | c₁ :: r =>
          if signOrDigit c₁ then
            2 + min w (r.takeWhile (inNumber ct base float)).length
          else 1
      else 0 := by
  unfold numLen
  rw [List.takeWhile_cons_of_neg hc]
  simp only [List.length_nil, List.drop_zero, Nat.add_zero, Nat.zero_add, Nat.sub_zero,
    Nat.add_sub_cancel]
  rw [if_neg (by omega)]

/-- The loop takes `n` characters in all, as long as there is room. -/
def Took (r : Option (Num × List UInt8)) (n : Nat) : Prop :=
  match r with
  | none => 64 < n
  | some (s, _) => s.numbuf.length = n ∧ n ≤ 64

theorem Took.cast {r : Option (Num × List UInt8)} {m n : Nat} (h : Took r m) (e : m = n) :
    Took r n := e ▸ h

theorem put_spec (numbuf : List UInt8) (c : UInt8) :
    (numbuf.length < 64 ∧ put numbuf c = some (numbuf ++ [c])) ∨
      (64 ≤ numbuf.length ∧ put numbuf c = none) := by
  unfold put
  by_cases h : numbuf.length < 64
  · rw [if_pos h]
    exact Or.inl ⟨h, rfl⟩
  · rw [if_neg h]
    exact Or.inr ⟨by omega, rfl⟩

/-- One turn: a character of the number, or something else. -/
theorem innumLoop_cons (c : UInt8) (inp : List UInt8) (len : Int16) (s : Num)
    (hlen : ¬(len - 1).toInt < 0) :
    (inNumber ct base float c = true ∧ ∃ lcval,
      innumLoop ct base float (c :: inp) len s = (put s.numbuf c).bind fun numbuf =>
        innumLoop ct base float inp (len - 1) ⟨numbuf, s.ndigit + 1, s.expseen, lcval⟩) ∨
    (¬inNumber ct base float c = true ∧
      (isExp c && !s.expseen && base = 10 && float && s.ndigit ≠ 0) = false ∧
      innumLoop ct base float (c :: inp) len s = some (s, c :: inp)) ∨
    (¬inNumber ct base float c = true ∧
      (isExp c && !s.expseen && base = 10 && float && s.ndigit ≠ 0) = true ∧
      innumLoop ct base float (c :: inp) len s = (put s.numbuf c).bind fun numbuf =>
        match inp with
        | [] => some (⟨numbuf, s.ndigit, true, s.lcval⟩, [])
        | c₁ :: inp =>
          if !signOrDigit c₁ then some (⟨numbuf, s.ndigit, true, s.lcval⟩, c₁ :: inp)
          else (put numbuf c₁).bind fun numbuf =>
            innumLoop ct base float inp (len - 1) ⟨numbuf, s.ndigit, true, s.lcval⟩) := by
  have h0 : (0 : Int16).toInt = 0 := rfl
  have hlt : ¬len - 1 < 0 := by
    rw [Int16.lt_iff_toInt_lt, h0]
    exact hlen
  rw [innumLoop, if_neg hlt]
  unfold inNumber
  by_cases hd : ct.digit c.toNat = true ∨ (base = 16 ∧ isHex c = true)
  · rw [if_pos hd]
    refine Or.inl ⟨?_, addDigit base s.lcval c, rfl⟩
    simp only [Bool.or_eq_true, Bool.and_eq_true, decide_eq_true_eq]
    exact Or.inl hd
  · rw [if_neg hd]
    by_cases hdot : c = 46
    · rw [if_pos hdot]
      have hexp : isExp c = false := by rw [hdot]; rfl
      by_cases hb : base ≠ 10 ∨ (!float) = true
      · rw [if_pos hb]
        refine Or.inr (Or.inl ⟨?_, by rw [hexp]; rfl, rfl⟩)
        simp only [Bool.or_eq_true, Bool.and_eq_true, decide_eq_true_eq]
        rintro (h | ⟨⟨-, h⟩, h'⟩)
        · exact hd h
        · rcases hb with h1 | h1
          · exact h1 h
          · rw [h'] at h1
            cases h1
      · rw [if_neg hb]
        rw [not_or, not_not] at hb
        refine Or.inl ⟨?_, s.lcval, rfl⟩
        simp only [Bool.or_eq_true, Bool.and_eq_true, decide_eq_true_eq]
        exact Or.inr ⟨⟨hdot, hb.1⟩, by simpa using hb.2⟩
    · rw [if_neg hdot]
      have hout : ¬(ct.digit c.toNat || (decide (base = 16) && isHex c) ||
          (decide (c = 46) && decide (base = 10) && float)) = true := by
        simp only [Bool.or_eq_true, Bool.and_eq_true, decide_eq_true_eq]
        rintro (h | ⟨⟨h, -⟩, -⟩)
        · exact hd h
        · exact hdot h
      by_cases hexp : isExp c = true ∧ (!s.expseen) = true
      · rw [if_pos hexp]
        by_cases hb : base ≠ 10 ∨ (!float) = true ∨ s.ndigit = 0
        · rw [if_pos hb]
          refine Or.inr (Or.inl ⟨hout, ?_, rfl⟩)
          rw [Bool.eq_false_iff]
          simp only [ne_eq, Bool.and_eq_true, decide_eq_true_eq, decide_not, Bool.not_eq_true']
          simp only [Bool.not_eq_true', decide_eq_false_iff_not] at hb ⊢
          rintro ⟨⟨⟨-, h1⟩, h2⟩, h3⟩
          rcases hb with h | h | h
          · exact h h1
          · rw [h] at h2
            cases h2
          · exact h3 h
        · rw [if_neg hb]
          simp only [not_or, not_not] at hb
          refine Or.inr (Or.inr ⟨hout, ?_, rfl⟩)
          simp [hexp.1, hexp.2, hb.1, hb.2.2]
          simpa using hb.2.1
      · rw [if_neg hexp]
        refine Or.inr (Or.inl ⟨hout, ?_, rfl⟩)
        rw [Bool.eq_false_iff]
        simp only [ne_eq, Bool.and_eq_true]
        rintro ⟨⟨⟨h, -⟩, -⟩, -⟩
        exact hexp h

theorem took_of_put {numbuf : List UInt8} {c : UInt8} {n : Nat}
    {f : List UInt8 → Option (Num × List UInt8)} (hn : numbuf.length < n)
    (hf : (numbuf ++ [c]).length ≤ 64 → Took (f (numbuf ++ [c])) n) :
    Took ((put numbuf c).bind f) n := by
  rcases put_spec numbuf c with ⟨hlt, hput⟩ | ⟨hge, hput⟩
  · rw [hput]
    exact hf (by rw [List.length_append, List.length_singleton]; omega)
  · rw [hput]
    change 64 < n
    omega

theorem innumLoop_stop (inp : List UInt8) {len : Int16} (hlen : (len - 1).toInt < 0) (s : Num) :
    innumLoop ct base float inp len s = some (s, inp) := by
  have h0 : (0 : Int16).toInt = 0 := rfl
  cases inp with
  | nil => rfl
  | cons c inp =>
    rw [innumLoop, if_pos]
    rw [Int16.lt_iff_toInt_lt, h0]
    exact hlen

/-- After the exponent there is only one way on. -/
theorem innumLoop_seen (inp : List UInt8) : ∀ (len : Int16) (s : Num), s.expseen = true →
    s.numbuf.length ≤ 64 →
    Took (innumLoop ct base float inp len s)
      (s.numbuf.length + min (turns len) (inp.takeWhile (inNumber ct base float)).length) := by
  induction inp with
  | nil =>
    intro len s _ hs
    exact ⟨by simp, by simpa using hs⟩
  | cons c inp ih =>
    intro len s hseen hs
    have hturns := turns_pred len
    by_cases hlen : (len - 1).toInt < 0
    · rw [if_pos hlen] at hturns
      rw [hturns, innumLoop_stop ct base float _ hlen]
      exact ⟨by simp, by simpa using hs⟩
    · rw [if_neg hlen] at hturns
      rcases innumLoop_cons ct base float c inp len s hlen with ⟨hc, lcval, heq⟩ | ⟨hc, -, heq⟩ |
        ⟨-, hexp, -⟩
      · rw [heq, List.takeWhile_cons_of_pos hc, List.length_cons, hturns, Nat.add_min_add_right]
        refine took_of_put (by omega) fun hroom => ?_
        refine (ih (len - 1) ⟨s.numbuf ++ [c], s.ndigit + 1, s.expseen, lcval⟩ hseen hroom).cast ?_
        rw [List.length_append, List.length_singleton]
        omega
      · rw [heq, List.takeWhile_cons_of_neg hc]
        exact ⟨by simp, by simpa using hs⟩
      · rw [hseen] at hexp
        simp at hexp

theorem innumLoop_took (inp : List UInt8) : ∀ (len : Int16) (s : Num), s.numbuf.length ≤ 64 →
    Took (innumLoop ct base float inp len s)
      (s.numbuf.length + numLen ct base float (turns len) s.ndigit s.expseen inp) := by
  induction inp with
  | nil =>
    intro len s hs
    rw [numLen_nil]
    exact ⟨by simp, by simpa using hs⟩
  | cons c inp ih =>
    intro len s hs
    have hturns := turns_pred len
    by_cases hlen : (len - 1).toInt < 0
    · rw [if_pos hlen] at hturns
      rw [hturns, innumLoop_stop ct base float _ hlen, numLen_zero]
      exact ⟨by simp, by simpa using hs⟩
    · rw [if_neg hlen] at hturns
      rw [hturns]
      rcases innumLoop_cons ct base float c inp len s hlen with ⟨hc, lcval, heq⟩ | ⟨hc, hexp, heq⟩ |
        ⟨hc, hexp, heq⟩
      · rw [heq, numLen_cons_in ct base float hc]
        refine took_of_put (by omega) fun hroom => ?_
        refine (ih (len - 1) ⟨s.numbuf ++ [c], s.ndigit + 1, s.expseen, lcval⟩ hroom).cast ?_
        rw [List.length_append, List.length_singleton]
        dsimp only
        omega
      · rw [heq, numLen_cons_out ct base float hc, hexp, if_neg (by decide)]
        exact ⟨by simp, by simpa using hs⟩
      · rw [heq, numLen_cons_out ct base float hc, hexp, if_pos rfl]
        -- the `e` is taken, and what follows it if it is a sign or a digit
        cases inp with
        | nil =>
          refine took_of_put (Nat.lt_succ_self _) fun hroom => ⟨?_, ?_⟩
          · rw [List.length_append, List.length_singleton]
          · rwa [List.length_append, List.length_singleton] at hroom
        | cons c₁ inp =>
          dsimp only
          by_cases hsign : signOrDigit c₁ = true
          · rw [if_pos hsign]
            refine took_of_put (by omega) fun hroom => ?_
            rw [hsign, Bool.not_true, if_neg (by decide)]
            refine took_of_put (by rw [List.length_append, List.length_singleton]; omega)
              fun hroom' => ?_
            refine (innumLoop_seen ct base float inp (len - 1)
              ⟨s.numbuf ++ [c] ++ [c₁], s.ndigit, true, s.lcval⟩ rfl hroom').cast ?_
            simp only [List.length_append, List.length_singleton]
            omega
          · rw [if_neg hsign]
            refine took_of_put (Nat.lt_succ_self _) fun hroom => ?_
            rw [Bool.not_eq_true] at hsign
            rw [hsign, Bool.not_false, if_pos rfl]
            refine ⟨?_, ?_⟩
            · rw [List.length_append, List.length_singleton]
            · rwa [List.length_append, List.length_singleton] at hroom

end Number

/-- How many characters of the stream go to `numbuf`. -/
def numberLen (ct : Ctype) (base : Nat) (float : Bool) (len : Int16) (inp : List UInt8) : Nat :=
  match inp.dropWhile isBlank with
  | [] => 0
  | c :: r =>
    if c = 45 then 1 + numLen ct base float (turns (len - 1)) 0 false r
    else if c = 43 then numLen ct base float (turns (len - 1)) 0 false r
    else numLen ct base float (turns len) 0 false (c :: r)

theorem innumSign_took (ct : Ctype) (base : Nat) (float : Bool) (len : Int16) (inp : List UInt8) :
    let r := innumSign len (inp.dropWhile isBlank)
    Took (innumLoop ct base float r.2.2.2 r.2.1 ⟨r.1, 0, false, 0⟩) (numberLen ct base float len inp) := by
  unfold numberLen
  cases inp.dropWhile isBlank with
  | nil => exact ⟨rfl, Nat.zero_le 64⟩
  | cons c r =>
    dsimp only [innumSign]
    by_cases hminus : c = 45
    · rw [if_pos hminus, if_pos hminus]
      exact innumLoop_took ct base float r (len - 1) ⟨[c], 0, false, 0⟩ (by simp)
    · rw [if_neg hminus, if_neg hminus]
      by_cases hplus : c = 43
      · rw [if_pos hplus, if_pos hplus]
        exact (innumLoop_took ct base float r (len - 1) ⟨[], 0, false, 0⟩ (by simp)).cast
          (Nat.zero_add _)
      · rw [if_neg hplus, if_neg hplus]
        exact (innumLoop_took ct base float (c :: r) len ⟨[], 0, false, 0⟩ (by simp)).cast
          (Nat.zero_add _)

/-- `numbuf` has room for the number, and for a NUL where it is stored. -/
theorem innum_isSome_iff {ct : Ctype} {tab : Sctab} {ptr : Bool} {type : Int}
    (htype : ¬(type = 99 ∨ type = 115 ∨ type = 91)) (len : Int16) (size : Size) (inp : List UInt8) :
    (innum ct tab ptr type len size inp).isSome ↔
      numberLen ct (baseOf type) (isFloat type) len inp ≤ if ptr then 63 else 64 := by
  have htook := innumSign_took ct (baseOf type) (isFloat type) len inp
  unfold innum
  rw [if_neg htype]
  dsimp only at htook ⊢
  cases hloop : innumLoop ct (baseOf type) (isFloat type)
      (innumSign len (inp.dropWhile isBlank)).2.2.2 (innumSign len (inp.dropWhile isBlank)).2.1
      ⟨(innumSign len (inp.dropWhile isBlank)).1, 0, false, 0⟩ with
  | none =>
    rw [hloop] at htook
    change 64 < _ at htook
    refine iff_of_false (by simp) ?_
    split <;> omega
  | some r =>
    obtain ⟨s, r⟩ := r
    rw [hloop] at htook
    obtain ⟨hlen, hle⟩ := htook
    simp only [Option.bind_eq_bind, Option.bind_some]
    by_cases hempty : (!ptr) = true ∨ s.numbuf = []
    · rw [if_pos hempty]
      refine iff_of_true rfl ?_
      rcases hempty with h | h
      · rw [Bool.not_eq_true'] at h
        rw [h]
        exact hle
      · rw [h, List.length_nil] at hlen
        omega
    · rw [if_neg hempty]
      rw [not_or, Bool.not_eq_true', Bool.not_eq_false] at hempty
      rw [hempty.1, if_pos rfl]
      rcases put_spec s.numbuf 0 with ⟨hlt, hput⟩ | ⟨hge, hput⟩
      · rw [hput]
        exact iff_of_true rfl (by omega)
      · rw [hput]
        exact iff_of_false (by simp) (by omega)

/-! ## A directive -/

/-- The conversion that a letter stands for. -/
def typeOf (ct : Ctype) (ch : Int) : Int := if ct.upper ch then tolower ch else ch

/-- The condition at a conversion: `stop` are the bytes that end a `%[`. -/
def ConvOk (ct : Ctype) (tab : Sctab) (stop : UInt8 → Bool) (ptr : Bool) (ch : Int) (len : Int16)
    (inp : List UInt8) : Prop :=
  if typeOf ct ch = 0 then True
  else if typeOf ct ch = 99 then
    TextOk (fun _ => false) (fun _ => false) (most (if len = 30000 then 1 else len)) inp
  else if typeOf ct ch = 115 then TextOk (bit tab SPC) (bit tab SPC) (most len) inp
  else if typeOf ct ch = 91 then TextOk (fun _ => false) stop (most len) inp
  else numberLen ct (baseOf (typeOf ct ch)) (isFloat (typeOf ct ch)) len inp ≤ if ptr then 63 else 64

theorem bit_seven {tab : Sctab} {ignstp b : UInt8} (h : bit tab ignstp b = true) : b.toNat < 128 := by
  unfold bit at h
  split at h
  · next hv => exact look_isSome.mp (by rw [hv]; rfl)
  · cases h

theorem innum_ok {ct : Ctype} {tab : Sctab} {stop : UInt8 → Bool} (hstop : Shows tab STP stop)
    (ptr : Bool) {ch : Int} (hne : typeOf ct ch ≠ 0) (len : Int16) (size : Size) (inp : List UInt8) :
    (innum ct tab ptr (typeOf ct ch) len size inp).isSome ↔ ConvOk ct tab stop ptr ch len inp := by
  unfold ConvOk
  rw [if_neg hne]
  generalize typeOf ct ch = type at hne ⊢
  by_cases hc : type = 99
  · subst hc
    rw [if_pos rfl, innum, if_pos (Or.inl rfl)]
    have := @instr_isSome_iff tab 99 _ _ len (shows_zero tab) (by simp) (shows_zero tab)
      ptr inp
    simpa using this
  · rw [if_neg hc]
    by_cases hs : type = 115
    · subst hs
      rw [if_pos rfl, innum, if_pos (Or.inr (Or.inl rfl))]
      have := @instr_isSome_iff tab 115 _ _ len (shows_bit tab SPC)
        (fun b hb => bit_seven hb) (shows_bit tab SPC) ptr inp
      simpa using this
    · rw [if_neg hs]
      by_cases hb : type = 91
      · subst hb
        rw [if_pos rfl, innum, if_pos (Or.inr (Or.inr rfl))]
        have := @instr_isSome_iff tab 91 _ _ len (shows_zero tab) (by simp) hstop ptr inp
        simpa using this
      · rw [if_neg hb]
        exact innum_isSome_iff (by tauto) len size inp

def widthDigit (ct : Ctype) (d : Int8) : Bool := ct.digit d.toInt

/-- The width that digits stand for, after `len`. -/
def widthFrom (len : Int16) (ds : List Int8) : Int16 :=
  ds.foldl (fun len d => len * 10 + Int16.ofInt d.toInt - 48) len

section Turn

variable {ct : Ctype} {s : Scan}

theorem digit_zero (ct : Ctype) : ct.digit 0 = false := by
  rw [Bool.eq_false_iff]
  intro h
  have := (ct.digit_ascii 0 (by decide) (by decide)).mp h
  omega

theorem typeOf_ascii (ct : Ctype) {ch : Int} (h0 : -1 ≤ ch) (h1 : ch < 128)
    (hup : ¬(65 ≤ ch ∧ ch ≤ 90)) : typeOf ct ch = ch := by
  unfold typeOf
  rw [if_neg]
  rw [ct.upper_ascii ch h0 h1]
  exact hup

/-- The NUL of the format, or the first character after the digits. -/
theorem width_eq (l : List Int8) : ∀ (c : Int8) (len : Int16), width ct l c.toInt len =
    match (c :: l).dropWhile (widthDigit ct) with
    | [] => some (0, none, widthFrom len ((c :: l).takeWhile (widthDigit ct)))
    | d :: r => some (d.toInt, some r, widthFrom len ((c :: l).takeWhile (widthDigit ct))) := by
  induction l with
  | nil =>
    intro c len
    rw [width]
    by_cases hd : widthDigit ct c = true
    · rw [if_pos (show ct.digit c.toInt = true from hd), List.dropWhile_cons_of_pos hd, List.takeWhile_cons_of_pos hd]
      dsimp only
      rw [digit_zero, if_neg (by decide)]
      rfl
    · rw [if_neg (show ¬ct.digit c.toInt = true from hd), List.dropWhile_cons_of_neg hd, List.takeWhile_cons_of_neg hd]
      rfl
  | cons c' l ih =>
    intro c len
    rw [width]
    by_cases hd : widthDigit ct c = true
    · rw [if_pos (show ct.digit c.toInt = true from hd), List.dropWhile_cons_of_pos hd, List.takeWhile_cons_of_pos hd]
      exact ih c' _
    · rw [if_neg (show ¬ct.digit c.toInt = true from hd), List.dropWhile_cons_of_neg hd, List.takeWhile_cons_of_neg hd]
      rfl

theorem convert_isSome_iff {tab : Sctab} {stop : UInt8 → Bool} (hstop : Shows tab STP stop)
    (ptr : Bool) (ch : Int) (len : Int16) (size : Size) (fmt : Option (List Int8)) :
    (convert ct s ptr ch len size fmt tab).isSome ↔ ConvOk ct tab stop ptr ch len s.inp := by
  have hsplit : ∀ size, ∃ size', (if ct.upper ch then (tolower ch, Size.long) else (ch, size)) =
      (typeOf ct ch, size') := by
    intro size
    unfold typeOf
    split
    · exact ⟨_, rfl⟩
    · exact ⟨_, rfl⟩
  obtain ⟨size', hsize⟩ := hsplit size
  unfold convert
  rw [hsize]
  dsimp only
  by_cases h0 : typeOf ct ch = 0
  · rw [if_pos h0]
    unfold ConvOk
    rw [if_pos h0]
    exact iff_of_true rfl trivial
  · rw [if_neg h0, ← innum_ok hstop ptr h0 len size']
    cases innum ct tab ptr (typeOf ct ch) len size' s.inp with
    | none => simp
    | some r =>
      simp only [Option.bind_eq_bind, Option.bind_some]
      split <;> simp

/-- A turn goes on with the format of its directive. -/
theorem convert_more {tab : Sctab} {ptr : Bool} {ch : Int} {len : Int16} {size : Size}
    {fmt : Option (List Int8)} {s' : Scan}
    (h : convert ct s ptr ch len size fmt tab = some (.more s')) :
    s'.fmt = fmt ∧ typeOf ct ch ≠ 0 := by
  unfold convert at h
  have hch : (if ct.upper ch then (tolower ch, Size.long) else (ch, size)).1 = typeOf ct ch := by
    unfold typeOf
    split <;> rfl
  rw [← hch]
  generalize (if ct.upper ch then (tolower ch, Size.long) else (ch, size)) = r at h ⊢
  obtain ⟨ch', size'⟩ := r
  dsimp only at h ⊢
  by_cases h0 : ch' = 0
  · rw [if_pos h0] at h
    cases h
  · rw [if_neg h0] at h
    obtain ⟨r, -, h⟩ := Option.bind_eq_some_iff.mp h
    split at h
    · cases h
    · cases h
      exact ⟨rfl, h0⟩

theorem char_ne {c : Int8} {n : Int8} : c.toInt = n.toInt ↔ c = n := Int8.toInt_inj

/-- After the `%` or the `*`: the width, the modifier and the conversion of the format `g`. -/
def directive (ct : Ctype) (s : Scan) (ptr : Bool) (g : List Int8) :
    Option (Turn Scan (Int × Scan)) :=
  match g with
  | [] => modifier ct s ptr 0 0 none
  | c :: rest => (width ct rest c.toInt 0).bind fun r => modifier ct s ptr r.1 r.2.2 r.2.1

theorem percent_eq (f : List Int8) : percent ct s (some f) =
    if f.head? = some 37 then some (literal s 37 (some f.tail))
    else if f.head? = some 42 then directive ct s false f.tail else directive ct s true f := by
  have h37 : (37 : Int8).toInt = 37 := rfl
  have h42 : (42 : Int8).toInt = 42 := rfl
  cases f with
  | nil =>
    unfold percent directive
    simp [next, digit_zero]
  | cons c f =>
    have hhead : ∀ d : Int8, (c :: f).head? = some d ↔ c = d := fun d => by simp
    unfold percent
    simp only [next, Option.bind_eq_bind, Option.bind_some, hhead]
    by_cases hc : c = 37
    · subst hc
      rw [if_pos h37, if_pos rfl]
      rfl
    · rw [if_neg (fun h => hc (char_ne.mp (h.trans h37.symm))), if_neg hc]
      by_cases hs : c = 42
      · subst hs
        rw [if_neg (not_not.mpr h42), if_pos rfl]
        cases f with
        | nil => simp [directive, digit_zero]
        | cons d f => rfl
      · rw [if_pos (fun h => hs (char_ne.mp (h.trans h42.symm))), if_neg hs]
        rfl

theorem modifier_none (ptr : Bool) (len : Int16) :
    (modifier ct s ptr 0 len none).isSome ∧ ∀ s', modifier ct s ptr 0 len none ≠ some (.more s') := by
  have htype : typeOf ct 0 = 0 := typeOf_ascii ct (by decide) (by decide) (by decide)
  have hmod : modifier ct s ptr 0 len none =
      convert ct s ptr 0 (if len = 0 then 30000 else len) .regular none s.tab := rfl
  rw [hmod]
  constructor
  · rw [convert_isSome_iff (shows_bit s.tab STP)]
    unfold ConvOk
    rw [if_pos htype]
    trivial
  · intro s' h
    exact (convert_more h).2 htype

/-- The condition after the digits of the width; `len` is what they stand for. -/
def ModOk (ct : Ctype) (s : Scan) (ptr : Bool) (len : Int16) (c : Int8) (f : List Int8) : Prop :=
  let len := if len = 0 then 30000 else len
  if c = 108 ∨ c = 104 then
    match f with
    | [] => True
    | c :: _ => ConvOk ct s.tab (bit s.tab STP) ptr c.toInt len s.inp
  else if c = 91 then
    ∃ set rest, Bracket (listed f) set rest ∧ ConvOk ct s.tab (stopsList f set) ptr 91 len s.inp
  else ConvOk ct s.tab (bit s.tab STP) ptr c.toInt len s.inp

/-- A conversion after `l` or `h`. -/
theorem next_convert (ptr : Bool) (len : Int16) (size : Size) (f : List Int8) :
    let r := (next (some f)).bind fun r => convert ct s ptr r.1 len size r.2 s.tab
    (r.isSome ↔ match f with
      | [] => True
      | c :: _ => ConvOk ct s.tab (bit s.tab STP) ptr c.toInt len s.inp) ∧
    ∀ s', r = some (.more s') → ∃ f', s'.fmt = some f' ∧ f'.length < f.length := by
  have htype : typeOf ct 0 = 0 := typeOf_ascii ct (by decide) (by decide) (by decide)
  cases f with
  | nil =>
    simp only [next, Option.bind_some]
    refine ⟨?_, fun s' h => absurd htype (convert_more h).2⟩
    rw [convert_isSome_iff (shows_bit s.tab STP)]
    unfold ConvOk
    rw [if_pos htype]
  | cons c f =>
    simp only [next, Option.bind_some]
    refine ⟨convert_isSome_iff (shows_bit s.tab STP) _ _ _ _ _, fun s' h => ⟨f, (convert_more h).1, ?_⟩⟩
    exact Nat.lt_succ_self _

/-- The conversion `[` does not depend on the table, only on the bytes that end it. -/
theorem convOk_bracket {tab tab' : Sctab} {stop : UInt8 → Bool} {ptr : Bool} {len : Int16}
    {inp : List UInt8} : ConvOk ct tab stop ptr 91 len inp ↔ ConvOk ct tab' stop ptr 91 len inp := by
  have htype : typeOf ct 91 = 91 := typeOf_ascii ct (by decide) (by decide) (by decide)
  unfold ConvOk
  rw [htype]
  exact Iff.rfl

theorem modifier_spec (ptr : Bool) (len : Int16) (c : Int8) (f : List Int8) :
    ((modifier ct s ptr c.toInt len (some f)).isSome ↔ ModOk ct s ptr len c f) ∧
    ∀ s', modifier ct s ptr c.toInt len (some f) = some (.more s') →
      ∃ f', s'.fmt = some f' ∧ f'.length ≤ f.length := by
  have h108 : (108 : Int8).toInt = 108 := rfl
  have h104 : (104 : Int8).toInt = 104 := rfl
  have h91 : (91 : Int8).toInt = 91 := rfl
  unfold modifier ModOk
  generalize (if len = 0 then 30000 else len : Int16) = n
  dsimp only
  by_cases hl : c = 108
  · subst hl
    rw [if_pos h108, if_pos (Or.inl rfl)]
    obtain ⟨h1, h2⟩ := @next_convert ct s ptr n .long f
    refine ⟨h1, fun s' h => ?_⟩
    obtain ⟨f', hf', hlt⟩ := h2 s' h
    exact ⟨f', hf', hlt.le⟩
  · rw [if_neg (fun h => hl (char_ne.mp (h.trans h108.symm)))]
    by_cases hh : c = 104
    · subst hh
      rw [if_pos h104, if_pos (Or.inr rfl)]
      obtain ⟨h1, h2⟩ := @next_convert ct s ptr n .short f
      refine ⟨h1, fun s' h => ?_⟩
      obtain ⟨f', hf', hlt⟩ := h2 s' h
      exact ⟨f', hf', hlt.le⟩
    · rw [if_neg (fun h => hh (char_ne.mp (h.trans h104.symm))),
        if_neg (show ¬(c = 108 ∨ c = 104) by tauto)]
      by_cases hb : c = 91
      · subst hb
        rw [if_pos h91, if_pos rfl, h91]
        simp only [Option.bind_eq_bind, Option.bind_some]
        constructor
        · constructor
          · intro h
            have hsome : (getccl f s.tab).isSome := by
              cases hg : getccl f s.tab with
              | none =>
                rw [hg] at h
                cases h
              | some r => rfl
            obtain ⟨set, rest, hset⟩ := (getccl_isSome_iff f s.tab).mp hsome
            obtain ⟨tab', hg, hshow⟩ := getccl_stp hset s.tab
            rw [hg, Option.bind_some, convert_isSome_iff hshow] at h
            exact ⟨set, rest, hset, convOk_bracket.mp h⟩
          · rintro ⟨set, rest, hset, hok⟩
            obtain ⟨tab', hg, hshow⟩ := getccl_stp hset s.tab
            rw [hg, Option.bind_some, convert_isSome_iff hshow]
            exact convOk_bracket.mp hok
        · intro s' h
          obtain ⟨r, hg, h⟩ := Option.bind_eq_some_iff.mp h
          have hsome : (getccl f s.tab).isSome := by rw [hg]; rfl
          obtain ⟨set, rest, hset⟩ := (getccl_isSome_iff f s.tab).mp hsome
          obtain ⟨tab', hg', -⟩ := getccl_stp hset s.tab
          rw [hg] at hg'
          cases hg'
          refine ⟨rest, (convert_more h).1, ?_⟩
          obtain ⟨d, hd, -⟩ := hset
          have hlen := congrArg List.length hd
          have hlisted : (listed f).length ≤ f.length := by
            unfold listed
            split
            · rw [List.length_tail]
              omega
            · exact le_refl _
          rw [List.length_append, List.length_cons] at hlen
          omega
      · rw [if_neg (fun h => hb (char_ne.mp (h.trans h91.symm))), if_neg hb]
        exact ⟨convert_isSome_iff (shows_bit s.tab STP) _ _ _ _ _,
          fun s' h => ⟨f, (convert_more h).1, le_refl _⟩⟩

theorem directive_spec (ptr : Bool) (g : List Int8) :
    ((directive ct s ptr g).isSome ↔ match g.dropWhile (widthDigit ct) with
      | [] => True
      | c :: f => ModOk ct s ptr (widthFrom 0 (g.takeWhile (widthDigit ct))) c f) ∧
    ∀ s', directive ct s ptr g = some (.more s') → ∃ f', s'.fmt = some f' ∧ f'.length ≤ g.length := by
  cases g with
  | nil =>
    obtain ⟨h1, h2⟩ := @modifier_none ct s ptr 0
    exact ⟨iff_of_true h1 trivial, fun s' h => absurd h (h2 s')⟩
  | cons c rest =>
    have hsub : ((c :: rest).dropWhile (widthDigit ct)).length ≤ (c :: rest).length :=
      (List.dropWhile_sublist _).length_le
    unfold directive
    dsimp only
    rw [width_eq]
    cases hdrop : (c :: rest).dropWhile (widthDigit ct) with
    | nil =>
      obtain ⟨h1, h2⟩ := @modifier_none ct s ptr
        (widthFrom 0 ((c :: rest).takeWhile (widthDigit ct)))
      exact ⟨iff_of_true h1 trivial, fun s' h => absurd h (h2 s')⟩
    | cons d f =>
      obtain ⟨h1, h2⟩ := @modifier_spec ct s ptr
        (widthFrom 0 ((c :: rest).takeWhile (widthDigit ct))) d f
      refine ⟨h1, fun s' h => ?_⟩
      obtain ⟨f', hf', hle⟩ := h2 s' h
      rw [hdrop, List.length_cons] at hsub
      exact ⟨f', hf', by omega⟩

/-- The condition at a directive; `f` is the format after the `%`. -/
def DirOk (ct : Ctype) (s : Scan) (f : List Int8) : Prop :=
  if f.head? = some 37 then True
  else
    let ptr := f.head? ≠ some 42
    let g := if ptr then f else f.tail
    match g.dropWhile (widthDigit ct) with
    | [] => True
    | c :: f => ModOk ct s ptr (widthFrom 0 (g.takeWhile (widthDigit ct))) c f

/-- The condition at a turn: there is none for other characters of the format. -/
def Ok (ct : Ctype) (s : Scan) : Prop :=
  match s.fmt with
  | some (37 :: f) => DirOk ct s f
  | _ => True

theorem literal_more {ch : Int} {fmt : Option (List Int8)} {s' : Scan}
    (h : literal s ch fmt = .more s') : s'.fmt = fmt := by
  unfold literal at h
  split at h
  · cases h
  · split at h
    · cases h
    · cases h
      rfl

theorem percent_spec (f : List Int8) :
    ((percent ct s (some f)).isSome ↔ DirOk ct s f) ∧
    ∀ s', percent ct s (some f) = some (.more s') → ∃ f', s'.fmt = some f' ∧ f'.length ≤ f.length := by
  have htail : f.tail.length ≤ f.length := by rw [List.length_tail]; omega
  rw [percent_eq]
  unfold DirOk
  by_cases h37 : f.head? = some 37
  · rw [if_pos h37, if_pos h37]
    refine ⟨iff_of_true rfl trivial, fun s' h => ⟨f.tail, ?_, htail⟩⟩
    exact literal_more (Option.some.inj h)
  · rw [if_neg h37, if_neg h37]
    by_cases h42 : f.head? = some 42
    · obtain ⟨h1, h2⟩ := @directive_spec ct s false f.tail
      rw [if_pos h42]
      simp only [h42, ne_eq, not_true_eq_false, decide_false, if_false]
      refine ⟨h1, fun s' h => ?_⟩
      obtain ⟨f', hf', hle⟩ := h2 s' h
      exact ⟨f', hf', by omega⟩
    · obtain ⟨h1, h2⟩ := @directive_spec ct s true f
      rw [if_neg h42]
      simp only [h42, ne_eq, not_false_eq_true, decide_true, if_true]
      exact ⟨h1, h2⟩

/-- A turn comes off exactly when its condition holds, and takes a character of the format. -/
theorem turn_spec {f : List Int8} (hf : s.fmt = some f) :
    ((turn ct s).isSome ↔ Ok ct s) ∧
    ∀ s', turn ct s = some (.more s') → ∃ f', s'.fmt = some f' ∧ f'.length < f.length := by
  have h37 : (37 : Int8).toInt = 37 := rfl
  unfold turn
  rw [hf]
  cases f with
  | nil =>
    unfold Ok
    rw [hf]
    exact ⟨iff_of_true rfl trivial, fun s' h => by cases h⟩
  | cons c f =>
    simp only [next, Option.bind_eq_bind, Option.bind_some]
    by_cases hc : c = 37
    · subst hc
      unfold Ok
      rw [hf, if_neg (by decide), if_pos h37]
      obtain ⟨h1, h2⟩ := @percent_spec ct s f
      refine ⟨h1, fun s' h => ?_⟩
      obtain ⟨f', hf', hle⟩ := h2 s' h
      exact ⟨f', hf', by rw [List.length_cons]; omega⟩
    · have hok : Ok ct s := by
        unfold Ok
        rw [hf]
        split
        · next heq =>
          cases heq
          exact absurd rfl hc
        · trivial
      have hlt : f.length < (c :: f).length := Nat.lt_succ_self _
      by_cases h0 : c.toInt = 0
      · rw [if_pos h0]
        exact ⟨iff_of_true rfl hok, fun s' h => by cases h⟩
      · rw [if_neg h0, if_neg (fun h => hc (char_ne.mp (h.trans h37.symm)))]
        split
        · refine ⟨iff_of_true rfl hok, fun s' h => ?_⟩
          cases h
          exact ⟨f, rfl, hlt⟩
        · refine ⟨iff_of_true rfl hok, fun s' h => ⟨f, literal_more (Option.some.inj h), hlt⟩⟩

end Turn

/-! ## A call -/

/-- The state at the start of a call. -/
def start (fmt : List Int8) (inp : List UInt8) (tab : Sctab) : Scan where
  fmt := some fmt
  inp := inp
  tab := tab
  nmatch := 0
  out := []

end Venix.Stdio
