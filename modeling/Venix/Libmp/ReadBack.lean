/-
  What `m_in` makes of a line of `m_out`.

  With each digit `x` becomes `10*x` and that digit, and is not zero from the first digit on, so the
  product and the sum are canonical. Zero is printed as a digit all the same, and then `madd` leaves
  a limb that is 0.
-/
import Venix.Libmp.MoutRun

namespace Venix.Libmp

open Venix.Lib

section Objects

variable {Q : Type} [DecidableEq Q]

/-! ## The variables of a call that are blocks -/

/-- `qten` and `qy`, beside the objects. -/
structure Desk (h : Heap) (vars : Q → Mint) (ten y : Nat) (b : Int16) : Prop where
  base : h.blocks ten = some [some b]
  digit : ∃ c, h.blocks y = some [c]
  apart : y ≠ ten
  out : ∀ q, (vars q).len ≠ 0 → (vars q).val ≠ ten ∧ (vars q).val ≠ y

variable {h h' : Heap} {vars : Q → Mint} {w : Q → Int} {ten y : Nat} {b : Int16} {c : Q}

omit [DecidableEq Q] in
theorem Desk.lt (hd : Desk h vars ten y b) : ten < h.next ∧ y < h.next := by
  obtain ⟨d, hdigit⟩ := hd.digit
  constructor
  · by_contra hcon
    have := hd.base
    rw [h.fresh ten (by omega)] at this
    cases this
  · by_contra hcon
    rw [h.fresh y (by omega)] at hdigit
    cases hdigit

/-- An operation on an object leaves them as they are. -/
theorem Desk.replaced (hd : Desk h vars ten y b) {m : Mint} (hframe : Frame h h' (vars c))
    (hnew : m.len ≠ 0 → h.next ≤ m.val) :
    Desk h' (Function.update vars c m) ten y b ∧ h'.blocks y = h.blocks y := by
  obtain ⟨hten, hy⟩ := hd.lt
  have hsame : h'.blocks y = h.blocks y := hframe.old y hy fun hne => (hd.out c hne).2.symm
  refine ⟨⟨?_, ?_, hd.apart, fun q hne => ?_⟩, hsame⟩
  · rw [hframe.old ten hten fun hne => (hd.out c hne).1.symm]
    exact hd.base
  · rw [hsame]
    exact hd.digit
  · by_cases hq : q = c
    · subst hq
      rw [Function.update_self] at hne ⊢
      have := hnew hne
      omega
    · rw [Function.update_of_ne hq] at hne ⊢
      exact hd.out q hne

/-- The objects and the two blocks. -/
structure InCall (h : Heap) (vars : Q → Mint) (w : Q → Int) (ten y : Nat) (b : Int16) : Prop where
  store : Store h vars w
  desk : Desk h vars ten y b

theorem InCall.replaced (hs : InCall h vars w ten y b) {m : Mint} {u : Int} (hnum : IsNum h' m u)
    (hframe : Frame h h' (vars c)) (hnew : m.len ≠ 0 → h.next ≤ m.val) :
    InCall h' (Function.update vars c m) (Function.update w c u) ten y b ∧
      h'.blocks y = h.blocks y :=
  ⟨⟨hs.store.replaced hnum hframe hnew, (hs.desk.replaced hframe hnew).1⟩,
    (hs.desk.replaced hframe hnew).2⟩

omit [DecidableEq Q] in
/-- `qy=c-'0'`. -/
theorem InCall.write (hs : InCall h vars w ten y b) (d : Int16) :
    ∃ h', h.write y 0 d = some h' ∧ InCall h' vars w ten y b ∧ h'.blocks y = some [some d] := by
  obtain ⟨cell, hcell⟩ := hs.desk.digit
  have hcells : h.blocks y = some ([] ++ cell :: []) := hcell
  obtain ⟨h', hwrite, hset⟩ := write_spec hcells d
  refine ⟨h', hwrite, ⟨⟨fun q => ?_, hs.store.own⟩, ⟨?_, ⟨some d, hset.self⟩, hs.desk.apart,
    hs.desk.out⟩⟩, hset.self⟩
  · exact (hs.store.num q).grows fun hne => hset.other (hs.desk.out q hne).2
  · rw [hset.other hs.desk.apart.symm]
    exact hs.desk.base

/-! ## One digit -/

/-- A sum with a limb that may be 0, where the sum is not. -/
theorem madd_digit {a y c : Mint} {va : Int} {d : Int16} (ha : IsNum h a va) (hva : 0 ≤ va)
    (hf : Fits a) (hy : Rep h y [d]) (hc : Owned h c) (hpos : 0 < va + d.toInt) (fuel : Nat) :
    Gives h c (madd (fuel + 1) a y c h) (va + d.toInt) := by
  have hd : value [d] = d.toInt := by simp [value, ints, valL]
  obtain ⟨la, hra, hca, rfl⟩ := ha.rep hva
  obtain ⟨m, h', lc, heq, hrep, hval, hframe, hnew, hlen⟩ :=
    madd_pos hra hy ⟨hra.length_le hf, by rw [List.length_singleton]; decide⟩ hc fuel
  rw [hd] at hval
  refine ⟨m, h', heq, ?_, hframe, hnew⟩
  rw [← hval]
  refine hrep.isNum ?_
  rcases hlen with hmax | ⟨l, rfl, -⟩
  · refine canon_of_pow_le hrep.limbs ?_
    rw [hmax, hval]
    have hd0 : 0 ≤ d.toInt := by
      rw [← hd]
      exact hy.limbs.nonneg
    by_cases hnil : la = []
    · subst hnil
      have h1 : (32768 : Int) ^ (max ([] : List Int16).length [d].length - 1) = 1 := rfl
      omega
    · have hla := List.length_pos_iff.mpr hnil
      rw [max_eq_left (by rw [List.length_singleton]; exact hla)]
      have := hca.pow_le hra.limbs hnil
      omega
  · intro x hx
    rw [List.getLast?_concat] at hx
    cases hx
    decide

/-- `a` and `x` at the start of a turn. -/
def reading (v : Q → Int) (a : Q) (n : Int) : Q ⊕ Unit → Int :=
  Sum.elim (Function.update v a n) fun _ => n

theorem reading_set (v : Q → Int) (a : Q) (n u : Int) :
    Function.update (Function.update (reading v a n) (.inl a) u) (.inr ()) u = reading v a u := by
  unfold reading
  rw [← Sum.elim_update_left, Function.update_idem, ← Sum.elim_update_right]
  congr 1

theorem xfreeAt_other {st st' : Q → Mint} {c q : Q} (hrun : xfreeAt st c h = some (st', h'))
    (hq : q ≠ c) : st' q = st q := by
  obtain ⟨h₁, -, heq⟩ := Option.map_eq_some_iff.mp hrun
  cases heq
  exact Function.update_of_ne hq _ _

/-- `move` changes one object only. -/
theorem moveAt_other {st st' : Q → Mint} {a b q : Q} (hrun : moveAt st a b h = some (st', h'))
    (hq : q ≠ b) : st' q = st q := by
  obtain ⟨⟨st₁, h₁⟩, hfree, hrun⟩ := Option.bind_eq_some_iff.mp hrun
  have hst₁ := xfreeAt_other hfree hq
  dsimp only at hrun
  generalize (if (Function.update st₁ b _ a).len < 0 then _ else _ : Int16) = i at hrun
  by_cases hi : i = 0
  · rw [if_pos hi] at hrun
    cases hrun
    rw [Function.update_of_ne hq, hst₁]
  · rw [if_neg hi] at hrun
    obtain ⟨h₂, -, heq⟩ := Option.bind_eq_some_iff.mp hrun
    cases heq
    rw [Function.update_of_ne hq, Function.update_of_ne hq, hst₁]

section Turn

variable {vars : Q ⊕ Unit → Mint} {v : Q → Int} {a : Q} {base n d : Nat}

/-- The limb that is stored, and the product with ten. -/
theorem inDigit_product (hs : InCall h vars (reading v a n) ten y b) (hb : b.toInt = base)
    (hbase : 1 < base) (hsize : Roomy n) (d : Int16) :
    ∃ h₁ m h₂, h.write y 0 d = some h₁ ∧
      mult (vars (.inr ())) ⟨1, ten⟩ (vars (.inl a)) h₁ = some (m, h₂) ∧
      InCall h₂ (Function.update vars (.inl a) m)
        (Function.update (reading v a n) (.inl a) (n * base : Nat)) ten y b ∧
      h₂.blocks y = some [some d] := by
  obtain ⟨h₁, hwrite, hs₁, hy⟩ := hs.write d
  have hx : IsNum h₁ (vars (.inr ())) (n : Nat) := hs₁.store.num (.inr ())
  have hten : IsNum h₁ ⟨1, ten⟩ (base : Nat) := by
    have h1 := oneLimb_isNum (s := 1) ⟨[], hs₁.desk.base⟩ (by
      have := b.toInt_lt
      omega) (Or.inl rfl)
    rwa [hb, show (1 : Int16).toInt = 1 from rfl, one_mul] at h1
  have hok : MultOk (vars (.inr ())) ⟨1, ten⟩ (n : Nat) (base : Nat) := by
    have hlen := hsize _ _ _ hx (Nat.abs_cast n).le
    unfold Fits at hlen
    have h1 : (1 : Int16).toInt.natAbs = 1 := rfl
    refine ⟨by dsimp only; omega, ?_⟩
    by_cases h0 : n = 0
    · subst h0
      rw [hx.len_zero]
      exact .inr rfl
    · exact .inl ⟨by exact_mod_cast h0, by omega⟩
  obtain ⟨m, h₂, hrun, hnum, hframe, hnew⟩ :=
    mult_gives hx hten (hs₁.store.num (.inl a)).owned hok
  rw [← Nat.cast_mul] at hnum
  obtain ⟨hs₂, hsame⟩ := hs₁.replaced hnum hframe hnew
  exact ⟨h₁, m, h₂, hwrite, hrun, hs₂, hsame.trans hy⟩

/-- A digit is read. -/
theorem inDigit_puts (fuel : Nat) (hs : InCall h vars (reading v a n) ten y b)
    (hb : b.toInt = base) (hbase : 1 < base) (hd : d < 10) (hpos : 0 < n * base + d)
    (hsize : Roomy (n * base + d : Nat)) :
    ∃ vars' h', inDigit (fuel + 1) ⟨1, ten⟩ ⟨1, y⟩ a (Int16.ofInt d) vars h = some (vars', h') ∧
      InCall h' vars' (reading v a (n * base + d : Nat)) ten y b := by
  have hn : Roomy n := hsize.mono (by
    exact_mod_cast (Nat.le_mul_of_pos_right n (by omega)).trans (Nat.le_add_right _ d))
  have hdigit : (Int16.ofInt d).toInt = d :=
    Int16.toInt_ofInt_of_le (by omega) (by omega)
  have hsmall : ∀ (h : Heap) (m : Mint) (u : Nat), IsNum h m u → u ≤ n * base + d → Fits m := by
    intro h m u hm hu
    exact hsize h m u hm (by
      rw [Nat.abs_cast]
      exact_mod_cast hu)
  obtain ⟨h₁, m, h₂, hwrite, hmult, hs₂, hy⟩ :=
    inDigit_product hs hb hbase hn (Int16.ofInt d)
  have hprod : IsNum h₂ m (n * base : Nat) := by
    have := hs₂.store.num (.inl a)
    rwa [Function.update_self, Function.update_self] at this
  have hrep : Rep h₂ ⟨1, y⟩ [Int16.ofInt d] := by
    refine ⟨rfl, fun _ => ⟨[], hy⟩, fun x hx => ?_⟩
    have hxd : x = (Int16.ofInt d).toInt := by simpa [ints] using hx
    rw [hdigit] at hxd
    omega
  obtain ⟨m', h₃, hmadd, hnum, hframe, hnew⟩ := madd_digit (c := m) hprod (Int.natCast_nonneg _)
    (hsmall _ _ _ hprod (Nat.le_add_right _ _)) hrep hprod.owned (by
      rw [hdigit]
      exact_mod_cast hpos) fuel
  rw [hdigit, ← Nat.cast_add] at hnum
  have hframe' : Frame h₂ h₃ (Function.update vars (.inl a) m (.inl a)) := by
    rwa [Function.update_self]
  obtain ⟨hs₃, -⟩ := hs₂.replaced hnum hframe' fun _ => hnew
  rw [Function.update_idem, Function.update_idem] at hs₃
  have hfits : Fits (Function.update vars (.inl a) m' (.inl a)) := by
    rw [Function.update_self]
    exact hsmall _ _ _ hnum (le_refl _)
  obtain ⟨m'', h', hmove, hcopy, hframe'', hnew'⟩ :=
    moveAt_gives (b := .inr ()) hs₃.store hfits Sum.inl_ne_inr
  rw [Function.update_self] at hcopy
  obtain ⟨hs', -⟩ := hs₃.replaced hcopy hframe'' hnew'
  rw [reading_set] at hs'
  refine ⟨_, h', ?_, hs'⟩
  refine Option.bind_eq_some_iff.mpr ⟨h₁, hwrite, Option.bind_eq_some_iff.mpr ⟨(m, h₂), hmult, ?_⟩⟩
  refine Option.bind_eq_some_iff.mpr ⟨(m', h₃), ?_, ?_⟩
  · rw [Function.update_self]
    exact hmadd
  · dsimp only
    rw [Function.update_idem]
    exact hmove

/-- The digit 0 where nothing was before it. -/
theorem inDigit_zero {fuel : Nat} (hs : InCall h vars (reading v a 0) ten y b)
    (hb : b.toInt = base) (hbase : 1 < base) {vars' : Q ⊕ Unit → Mint}
    (hrun : inDigit fuel ⟨1, ten⟩ ⟨1, y⟩ a 0 vars h = some (vars', h')) :
    (vars' (.inl a)).len ≠ 0 := by
  obtain ⟨h₁, m, h₂, hwrite, hmult, hs₂, hy⟩ := inDigit_product (n := 0) hs hb hbase
    (roomy_of_lt (k := 0) (by decide) (by decide)) 0
  have hrep : Rep h₂ ⟨1, y⟩ [0] := by
    refine ⟨rfl, fun _ => ⟨[], hy⟩, fun x hx => ?_⟩
    have hx0 : x = (0 : Int16).toInt := by simpa [ints] using hx
    rw [hx0]
    decide
  have hprod : IsNum h₂ m 0 := by
    have := hs₂.store.num (.inl a)
    rwa [Function.update_self, Function.update_self, Nat.zero_mul] at this
  obtain ⟨la, hla, hca, hval⟩ := hprod.rep (le_refl 0)
  have hnil : la = [] := by
    by_contra hne
    have := hca.value_pos hla.limbs hne
    omega
  subst hnil
  obtain ⟨h₁', hw, hrun⟩ := Option.bind_eq_some_iff.mp hrun
  rw [hwrite] at hw
  cases hw
  obtain ⟨r, hm, hrun⟩ := Option.bind_eq_some_iff.mp hrun
  rw [hmult] at hm
  cases hm
  obtain ⟨⟨m', h₃⟩, hadd, hmove⟩ := Option.bind_eq_some_iff.mp hrun
  rw [Function.update_self] at hadd
  cases fuel with
  | zero => cases hadd
  | succ fuel =>
    obtain ⟨m'', h'', lc, hrun', hrep', -, -, -, hlen⟩ :=
      madd_pos hla hrep ⟨by decide, by decide⟩ hprod.owned fuel
    rw [hrun'] at hadd
    cases hadd
    have hpos : 0 < lc.length := by
      rcases hlen with hmax | ⟨l, rfl, -⟩
      · rw [hmax]
        decide
      · simp
    rw [moveAt_other hmove Sum.inl_ne_inr, Function.update_self]
    intro h0
    have := hrep'.len
    rw [h0] at this
    have h1 : (0 : Int16).toInt = 0 := rfl
    omega

/-! ## A line -/

/-- A digit is none of the characters with a case of their own. -/
theorem codeByte_digit : ∀ d < 10, codeByte (some d) ≠ 92 ∧
    ¬(codeByte (some d) = 9 ∨ codeByte (some d) = 10) ∧ codeByte (some d) ≠ 32 ∧
    codeByte (some d) ≠ 45 ∧ (48 ≤ codeByte (some d) ∧ codeByte (some d) ≤ 57) ∧
    ((codeByte (some d)).toNat : Int) - 48 = d := by
  decide

/-- A turn of the loop for a character that is no backslash. -/
theorem inLoop_plain (fuel : Nat) (stdin : Bool) (t u : Mint) (a : Q) {c : UInt8} (hc : c ≠ 92)
    (f : List UInt8) (sign : Int16) (vars : Q ⊕ Unit → Mint) (h : Heap) :
    inLoop fuel stdin t u a (c :: f) sign vars h =
      if c = 9 ∨ c = 10 then
        (xfreeAt (Function.update vars (.inl a) ⟨(vars (.inl a)).len * sign, (vars (.inl a)).val⟩)
          (.inr ()) h).map fun r => (0, f, r.1, r.2)
      else if c = 32 then inLoop fuel stdin t u a f sign vars h
      else if c = 45 then inLoop fuel stdin t u a f (-sign) vars h
      else if 48 ≤ c ∧ c ≤ 57 then
        (inDigit fuel t u a (Int16.ofInt ((c.toNat : Int) - 48)) vars h).bind fun r =>
          inLoop fuel stdin t u a f sign r.1 r.2
      else some (0, if stdin then c :: f else f,
        Function.update vars (.inl a) ⟨(vars (.inl a)).len * sign, (vars (.inl a)).val⟩, h) := by
  rw [inLoop.eq_def, Option.map_eq_bind]
  exact if_neg hc

theorem inLoop_digit (fuel : Nat) (stdin : Bool) (t u : Mint) (a : Q) (hd : d < 10)
    (f : List UInt8) (sign : Int16) (vars : Q ⊕ Unit → Mint) (h : Heap) :
    inLoop fuel stdin t u a (codeByte (some d) :: f) sign vars h =
      (inDigit fuel t u a (Int16.ofInt d) vars h).bind fun r =>
        inLoop fuel stdin t u a f sign r.1 r.2 := by
  obtain ⟨h92, hend, h32, h45, hdigit, hval⟩ := codeByte_digit d hd
  rw [inLoop_plain fuel stdin t u a h92, if_neg hend, if_neg h32, if_neg h45, if_pos hdigit, hval]

theorem inLoop_blank (fuel : Nat) (stdin : Bool) (t u : Mint) (a : Q) (f : List UInt8)
    (sign : Int16) (vars : Q ⊕ Unit → Mint) (h : Heap) :
    inLoop fuel stdin t u a (32 :: f) sign vars h = inLoop fuel stdin t u a f sign vars h := by
  rw [inLoop_plain fuel stdin t u a (by decide)]
  exact if_neg (by decide)

theorem inLoop_minus (fuel : Nat) (stdin : Bool) (t u : Mint) (a : Q) (f : List UInt8)
    (sign : Int16) (vars : Q ⊕ Unit → Mint) (h : Heap) :
    inLoop fuel stdin t u a (45 :: f) sign vars h = inLoop fuel stdin t u a f (-sign) vars h := by
  rw [inLoop_plain fuel stdin t u a (by decide)]
  rfl

/-- Digits and blanks after a digit that is not 0. -/
theorem inLoop_reads (fuel : Nat) (stdin : Bool) (hb : b.toInt = base) (hbase : 1 < base)
    (l : List (Option Nat)) (hl : ∀ d, some d ∈ l → d < 10) (hn : 0 < n)
    (hsize : Roomy (l.foldl (readDigit base) n : Nat)) (hs : InCall h vars (reading v a n) ten y b) :
    ∃ vars' h', InCall h' vars' (reading v a (l.foldl (readDigit base) n : Nat)) ten y b ∧
      ∀ f sign, inLoop (fuel + 1) stdin ⟨1, ten⟩ ⟨1, y⟩ a (l.map codeByte ++ f) sign vars h =
        inLoop (fuel + 1) stdin ⟨1, ten⟩ ⟨1, y⟩ a f sign vars' h' := by
  induction l generalizing n vars h with
  | nil => exact ⟨vars, h, hs, fun _ _ => rfl⟩
  | cons c l ih =>
    have hl' : ∀ d, some d ∈ l → d < 10 := fun d hd => hl d (List.mem_cons_of_mem c hd)
    cases c with
    | none =>
      obtain ⟨vars', h', hs', hrest⟩ := ih hl' hn hsize hs
      refine ⟨vars', h', hs', fun f sign => ?_⟩
      have hblank : codeByte none = 32 := rfl
      rw [List.map_cons, List.cons_append, hblank, inLoop_blank, hrest]
    | some d =>
      have hd : d < 10 := hl d List.mem_cons_self
      have hpos : 0 < n * base + d := by
        have := Nat.mul_pos hn (show 0 < base by omega)
        omega
      have hstep : Roomy (n * base + d : Nat) := hsize.mono (by
        exact_mod_cast le_readDigit (show 0 < base by omega) l (n * base + d))
      obtain ⟨vars₁, h₁, hrun, hs₁⟩ := inDigit_puts fuel hs hb hbase hd hpos hstep
      obtain ⟨vars', h', hs', hrest⟩ := ih hl' hpos hsize hs₁
      refine ⟨vars', h', hs', fun f sign => ?_⟩
      rw [List.map_cons, List.cons_append, inLoop_digit _ _ _ _ _ hd, hrun, Option.bind_some, hrest]

/-- The digits of a number that is not zero. -/
theorem inLoop_grouped (fuel : Nat) (stdin : Bool) (hb : b.toInt = base) (hbase : 1 < base)
    (hten : base ≤ 10) (hn : n ≠ 0) (hsize : Roomy n)
    (hs : InCall h vars (reading v a 0) ten y b) :
    ∃ vars' h', InCall h' vars' (reading v a n) ten y b ∧
      ∀ f sign, inLoop (fuel + 1) stdin ⟨1, ten⟩ ⟨1, y⟩ a
          ((grouped base 10 n 0).reverse.map codeByte ++ f) sign vars h =
        inLoop (fuel + 1) stdin ⟨1, ten⟩ ⟨1, y⟩ a f sign vars' h' := by
  have hl : ∀ d, some d ∈ (grouped base 10 n 0).reverse → d < 10 := fun d hd =>
    (grouped_digit_lt hbase n 0 (List.mem_reverse.mp hd)).trans_le hten
  have hread := grouped_read (k := 10) hbase n 0
  obtain ⟨d, hlast, hd0⟩ := grouped_getLast (k := 10) hbase hn 0
  obtain ⟨l, hgroup⟩ : ∃ l, (grouped base 10 n 0).reverse = some d :: l := by
    rw [← List.head?_reverse] at hlast
    exact ⟨_, (List.eq_cons_of_mem_head? hlast)⟩
  rw [hgroup] at hl hread ⊢
  rw [List.foldl_cons] at hread
  have hfirst : readDigit base 0 (some d) = 0 * base + d := rfl
  rw [hfirst] at hread
  have hpos : 0 < 0 * base + d := by omega
  have hstep : Roomy (0 * base + d : Nat) := hsize.mono (by
    rw [← hread]
    exact_mod_cast le_readDigit (show 0 < base by omega) l (0 * base + d))
  obtain ⟨vars₁, h₁, hrun, hs₁⟩ :=
    inDigit_puts (n := 0) fuel hs hb hbase (hl d List.mem_cons_self) hpos hstep
  obtain ⟨vars', h', hs', hrest⟩ := inLoop_reads fuel stdin hb hbase l
    (fun d hd => hl d (List.mem_cons_of_mem _ hd)) hpos (by rwa [hread]) hs₁
  rw [hread] at hs'
  refine ⟨vars', h', hs', fun f sign => ?_⟩
  rw [List.map_cons, List.cons_append, inLoop_digit _ _ _ _ _ (hl d List.mem_cons_self), hrun,
    Option.bind_some, hrest]

end Turn

/-! ## The call -/

variable {st : Q → Mint} {v : Q → Int} {a : Q} {sign : Int16} {base : Nat}

/-- `a->len *= sign`. -/
theorem Store.signed (hs : Store h st v) (a : Q) (hsign : sign = 1 ∨ sign = -1) :
    Store h (Function.update st a ⟨(st a).len * sign, (st a).val⟩)
      (Function.update v a (sign.toInt * v a)) := by
  have hlen : ∀ q, (Function.update st a ⟨(st a).len * sign, (st a).val⟩ q).len ≠ 0 →
      (st q).len ≠ 0 ∧ (Function.update st a ⟨(st a).len * sign, (st a).val⟩ q).val = (st q).val := by
    intro q hq
    by_cases e : q = a
    · subst e
      rw [Function.update_self] at hq ⊢
      refine ⟨fun h0 => hq ?_, rfl⟩
      dsimp only
      rw [h0, Int16.zero_mul]
    · rw [Function.update_of_ne e] at hq ⊢
      exact ⟨hq, rfl⟩
  refine ⟨fun q => ?_, fun q q' hne hq hq' => ?_⟩
  · by_cases e : q = a
    · subst e
      rw [Function.update_self, Function.update_self]
      rcases hsign with rfl | rfl
      · rw [Int16.mul_one, show (1 : Int16).toInt = 1 from rfl, one_mul]
        exact hs.num q
      · rw [Int16.mul_neg, Int16.mul_one, show (-1 : Int16).toInt = -1 from rfl, neg_one_mul]
        exact (hs.num q).neg
    · rw [Function.update_of_ne e, Function.update_of_ne e]
      exact hs.num q
  · rw [(hlen q hq).2, (hlen q' hq').2]
    exact hs.own q q' hne (hlen q hq).1 (hlen q' hq').1

theorem inLoop_newline (fuel : Nat) (stdin : Bool) (t u : Mint) (a : Q) (f : List UInt8)
    (sign : Int16) (vars : Q ⊕ Unit → Mint) (h : Heap) :
    inLoop fuel stdin t u a (10 :: f) sign vars h =
      (xfreeAt (Function.update vars (.inl a) ⟨(vars (.inl a)).len * sign, (vars (.inl a)).val⟩)
        (.inr ()) h).map fun r => (0, f, r.1, r.2) := by
  rw [inLoop_plain fuel stdin t u a (by decide)]
  exact if_pos (by decide)

theorem inLoop_end {n : Int} {vars : Q ⊕ Unit → Mint} (hs : Store h vars (reading v a n))
    (sign : Int16) (hsign : sign = 1 ∨ sign = -1) (fuel : Nat) (stdin : Bool) (t u : Mint) (f : List UInt8) :
    ∃ vars' h', inLoop fuel stdin t u a (10 :: f) sign vars h = some (0, f, vars', h') ∧
      Store h' (fun q => vars' (.inl q)) (Function.update v a (sign.toInt * n)) := by
  obtain ⟨vars', h', hfree, hs'⟩ := xfreeAt_puts (hs.signed (.inl a) hsign) (.inr ())
  refine ⟨vars', h', ?_, ?_⟩
  · rw [inLoop_newline, hfree]
    rfl
  · have := hs'.program
    unfold reading at this
    rwa [← Sum.elim_update_left, ← Sum.elim_update_right, Function.update_idem,
      Sum.elim_inl, Function.update_self] at this

theorem alloc_grows (h : Heap) (cells : List (Option Int16)) : Grows h (h.alloc cells).2 :=
  ⟨Nat.le_succ _, fun _ hp => Function.update_of_ne hp.ne _ _⟩

theorem m_in_start (hs : Store h st v) (a : Q) (b : Int16) :
    ∃ vars h' ten y, InCall h' vars (reading v a 0) ten y b ∧ ∀ fuel stdin f,
      m_in fuel stdin st a b f h = (inLoop fuel stdin ⟨1, ten⟩ ⟨1, y⟩ a f 1 vars h').map fun r =>
        (r.1, r.2.1, fun q => r.2.2.1 (.inl q), r.2.2.2) := by
  obtain ⟨st₁, h₁, hfree, hs₁⟩ := xfreeAt_puts hs a
  have hg₂ := alloc_grows h₁ [some b]
  have hg₃ := alloc_grows (h₁.alloc [some b]).2 [none]
  refine ⟨Sum.elim st₁ fun _ => z₀, ((h₁.alloc [some b]).2.alloc [none]).2, h₁.next, h₁.next + 1,
    ⟨((hs₁.grows hg₂).grows hg₃).locals, ⟨?_, ⟨none, Function.update_self _ _ _⟩,
      Nat.succ_ne_self _, fun q hq => ?_⟩⟩, fun fuel stdin f => ?_⟩
  · rw [hg₃.old _ (Nat.lt_succ_self _)]
    exact Function.update_self _ _ _
  · cases q with
    | inl q =>
      have hlt := (hs₁.num q).owned.lt hq
      exact ⟨hlt.ne, (Nat.lt_succ_of_lt hlt).ne⟩
    | inr q => exact absurd rfl hq
  · unfold m_in
    rw [hfree]
    exact (Option.map_eq_bind ..).symm

/-- The line of `a`, read into `c`, is `a` again. -/
def ReadsBack (fuel : Nat) (busy : Int16) (stdin : Bool) (st : Q → Mint) (v : Q → Int) (a c : Q)
    (b : Int16) (h : Heap) : Prop :=
  ∃ line h₁, m_out busy (st a) b h = some (line, h₁) ∧
    ∀ rest, ∃ st' h₂, m_in fuel stdin st c b (line ++ rest) h₁ = some (0, rest, st', h₂) ∧
      Store h₂ st' (Function.update v c (v a))

theorem readsBack_of_fits {busy : Int16} (hbusy : busy ≠ 0) (hb : b.toInt = base)
    (hbase : 8 ≤ base ∧ base ≤ 10) (fuel : Nat) (stdin : Bool) (hs : Store h st v) {a : Q} (c : Q)
    (hva : v a ≠ 0) (hlen : (st a).len.toInt.natAbs ≤ 9362) :
    ReadsBack (fuel + 1) busy stdin st v a c b h := by
  have hf : Fits (st a) := by
    unfold Fits
    omega
  have hroomy := hf.roomy (hs.num a)
  rw [Int.abs_eq_natAbs] at hroomy
  obtain ⟨h₁, hg, hline⟩ := m_out_line hbusy hb hbase (hs.num a) hva hlen
  refine ⟨_, h₁, hline, fun rest => ?_⟩
  obtain ⟨vars, h₂, ten, y, hs₂, hm_in⟩ := m_in_start (hs.grows hg) c b
  obtain ⟨vars₃, h₃, hs₃, hread⟩ := inLoop_grouped fuel stdin hb (by omega) hbase.2
    (Int.natAbs_ne_zero.mpr hva) hroomy hs₂
  have hsplit : signBytes (v a) ++ (grouped base 10 (v a).natAbs 0).reverse.map codeByte ++ [10] ++
      rest = signBytes (v a) ++ ((grouped base 10 (v a).natAbs 0).reverse.map codeByte ++
        10 :: rest) := by
    simp only [List.append_assoc, List.singleton_append]
  rw [hm_in, hsplit]
  unfold signBytes
  by_cases hneg : v a < 0
  · obtain ⟨vars', h', hend, hstore⟩ :=
      inLoop_end hs₃.store (-1) (.inr rfl) (fuel + 1) stdin ⟨1, ten⟩ ⟨1, y⟩ rest
    have hval : (-1 : Int16).toInt * ((v a).natAbs : Int) = v a := by
      rw [show (-1 : Int16).toInt = -1 from rfl]
      omega
    rw [hval] at hstore
    rw [if_pos hneg, List.singleton_append, inLoop_minus, hread, hend]
    exact ⟨_, h', rfl, hstore⟩
  · obtain ⟨vars', h', hend, hstore⟩ :=
      inLoop_end hs₃.store 1 (.inl rfl) (fuel + 1) stdin ⟨1, ten⟩ ⟨1, y⟩ rest
    have hval : (1 : Int16).toInt * ((v a).natAbs : Int) = v a := by
      rw [show (1 : Int16).toInt = 1 from rfl]
      omega
    rw [hval] at hstore
    rw [if_neg hneg, List.nil_append, hread, hend]
    exact ⟨_, h', rfl, hstore⟩

/-- Zero is printed as a digit, of which a limb is left. -/
theorem not_readsBack_zero {busy : Int16} (hb : b.toInt = base) (hbase : 1 < base) {fuel : Nat}
    {stdin : Bool} (hs : Store h st v) {a c : Q} (hva : v a = 0) :
    ¬ReadsBack fuel busy stdin st v a c b h := by
  rintro ⟨line, h₁, hline, hread⟩
  have hlen : (st a).len = 0 := by
    have := hs.num a
    rw [hva] at this
    exact this.len_zero
  have hzero : m_out busy (st a) b h = some ([48, 10], h) := by
    unfold m_out
    rw [hlen]
    rfl
  rw [hzero] at hline
  cases hline
  obtain ⟨st', h₂, hrun, hstore⟩ := hread []
  obtain ⟨vars, h₃, ten, y, hs₃, hm_in⟩ := m_in_start hs c b
  rw [hm_in] at hrun
  obtain ⟨r, hloop, heq⟩ := Option.map_eq_some_iff.mp hrun
  have hdigit : ([48, 10] : List UInt8) ++ [] = codeByte (some 0) :: 10 :: [] := rfl
  rw [hdigit, inLoop_digit _ _ _ _ _ (by decide)] at hloop
  obtain ⟨⟨vars₁, h₄⟩, hturn, hloop⟩ := Option.bind_eq_some_iff.mp hloop
  have hne := inDigit_zero hs₃ hb hbase hturn
  rw [inLoop_newline] at hloop
  obtain ⟨⟨vars₂, h₅⟩, hfree, hloop⟩ := Option.map_eq_some_iff.mp hloop
  cases hloop
  cases heq
  have hnum := hstore.num c
  rw [Function.update_self, hva] at hnum
  refine hne ?_
  have hlast : (vars₂ (.inl c)).len = 0 := hnum.len_zero
  rw [xfreeAt_other hfree Sum.inl_ne_inr, Function.update_self] at hlast
  dsimp only at hlast
  rwa [Int16.mul_one] at hlast

/-- Every number but zero, up to 9362 limbs, is read back; a longer one is not printed. -/
theorem m_in_m_out_iff {busy : Int16} (hbusy : busy ≠ 0) {b : Int16} (hb : b = 8 ∨ b = 10)
    (fuel : Nat) (stdin : Bool) (h : Heap) (st : Q → Mint) (v : Q → Int) (hs : Store h st v)
    (a c : Q) :
    ReadsBack (fuel + 1) busy stdin st v a c b h ↔
      v a ≠ 0 ∧ (st a).len.toInt.natAbs ≤ 9362 := by
  obtain ⟨base, hbase, hrange⟩ : ∃ base : Nat, b.toInt = base ∧ 8 ≤ base ∧ base ≤ 10 := by
    rcases hb with rfl | rfl
    · exact ⟨8, rfl, by decide, by decide⟩
    · exact ⟨10, rfl, by decide, by decide⟩
  constructor
  · intro hback
    have hva : v a ≠ 0 := fun h0 => not_readsBack_zero hbase (by omega) hs h0 hback
    refine ⟨hva, ?_⟩
    by_contra hlen
    obtain ⟨line, h₁, hline, -⟩ := hback
    rw [m_out_none hbusy hbase hrange (hs.num a) hva (by omega)] at hline
    cases hline
  · rintro ⟨hva, hlen⟩
    exact readsBack_of_fits hbusy hbase hrange fuel stdin hs c hva hlen

end Objects

/-- -3 is read back. -/
theorem m_in_m_out_iff_three : ReadsBack 1 1 true (quotients (-1))
    (Sum.elim ![5, -3, 0] fun _ => 0) (Sum.inl 1) (Sum.inl 2) 10 fiveThree :=
  (m_in_m_out_iff (show (1 : Int16) ≠ 0 by decide) (.inr rfl) 0 true fiveThree (quotients (-1)) _
    (quotients_store (.inr rfl)) (Sum.inl 1) (Sum.inl 2)).mpr ⟨by decide, by decide⟩

/-- 0 is not read back, for both bases. -/
theorem m_in_m_out_zero : Store fiveThree (quotients 1) (Sum.elim ![5, 3, 0] fun _ => 0) ∧
    ∀ b : Int16, b = 8 ∨ b = 10 → ¬ReadsBack 1 1 true (quotients 1)
      (Sum.elim ![5, 3, 0] fun _ => 0) (Sum.inl 2) (Sum.inl 2) b fiveThree := by
  refine ⟨quotients_store (.inl rfl), fun b hb => ?_⟩
  rcases hb with rfl | rfl
  · exact not_readsBack_zero rfl (by decide) (quotients_store (.inl rfl)) rfl
  · exact not_readsBack_zero rfl (by decide) (quotients_store (.inl rfl)) rfl

end Venix.Libmp
