/-
  `compile` keeps to its buffers, and leaves a complete program, exactly when the pieces of the pattern
  fit.
-/
import Mathlib.Tactic
import Mathlib.Data.List.GetD
import Venix.Grep.Compile

namespace Venix.Grep

open Venix.Lib

/-- A string of C. -/
abbrev CString := {l : List Byte // 0 ∉ l}

/-! ## Programs -/

/-- What may have a star behind it. -/
inductive Atom where
  | chr (c : Byte)
  | dot
  | ccl (map : List Byte)
  | back (k : Nat)

/-- A piece of a program. -/
inductive Item where
  | one (a : Atom) (star : Bool)
  | bra (k : Nat)
  | ket (k : Nat)
  | dol

def Atom.op : Atom → Byte
  | chr _ => CCHR
  | dot => CDOT
  | ccl _ => CCL
  | back _ => CBACK

def Atom.args : Atom → List Byte
  | chr c => [c]
  | dot => []
  | ccl map => map
  | back k => [BitVec.ofNat 8 k]

def Item.code : Item → List Byte
  | one a star => (a.op ||| if star then STAR else 0) :: a.args
  | bra k => [CBRA, BitVec.ofNat 8 k]
  | ket k => [CKET, BitVec.ofNat 8 k]
  | dol => [CDOL]

def code (items : List Item) : List Byte := items.flatMap Item.code

/-- The numbers of the open brackets, of those that were opened and of those that were closed. -/
abbrev Brackets := List Nat × Nat × Nat

def Item.brackets (b : Brackets) : Item → Option Brackets
  | bra k => if k = b.2.1 ∧ k < NBRA then some (k :: b.1, b.2.1 + 1, b.2.2) else none
  | ket k =>
    match b.1 with
    | [] => none
    | j :: st => if k = j then some (st, b.2.1, b.2.2 + 1) else none
  | one (.back k) _ => if k < b.2.2 then some b else none
  | _ => some b

def brackets (items : List Item) : Option Brackets := items.foldlM Item.brackets ([], 0, 0)

/-- No atom accepts the NUL of a line. -/
def Atom.Proper : Atom → Prop
  | chr c => c ≠ 0
  | dot => True
  | ccl map => map.length = 16 ∧ (map.getD 0 0).getLsbD 0 = false
  | back _ => True

def Item.Proper : Item → Prop
  | one a _ => a.Proper
  | _ => True

/-- A program: its items are proper and its brackets are in order. -/
structure Program (items : List Item) : Prop where
  proper : ∀ it ∈ items, it.Proper
  brackets : ∃ b, brackets items = some b

/-- `expbuf` holds `l` and zeros. -/
structure Filled (buf : Bytes ESIZE) (l : List Byte) : Prop where
  room : l.length ≤ ESIZE
  get : ∀ i < ESIZE, buf.get i = l.getD i 0

/-- A complete program. -/
def Complete (buf : Bytes ESIZE) : Prop :=
  ∃ items, Program items ∧ Filled buf (code items ++ [CEOF])

/-! ## Patterns that fit -/

/-- What the scan of a pattern knows in front of a piece. -/
structure Place where
  offset : Nat
  can : Bool
  depth : Nat
  numbra : Nat
  closed : Nat

/-- Behind an atom of `n` bytes. -/
def Place.atom (pl : Place) (n : Nat) : Place := { pl with
  offset := pl.offset + n
  can := true }

/-- The pieces of a pattern fit, up to its end or its first error: no piece of two bytes is at the last
byte of `expbuf`, no escape and no range is cut off, and no character of a list is an 8-bit one. `prev` is
the character before, in a list. -/
def Fits : Option Byte → Place → List Byte → Prop
  | some _, _, [] => True
  | some prev, pl, c :: rest =>
    if c = chr ']' then Fits none (pl.atom 17) rest
    else if c = chr '-' then
      match rest with
      | [] => False
      | last :: rest =>
        if last = chr ']' then Fits none (pl.atom 17) rest
        else 0 ≤ prev.toInt ∧ Fits (some last) pl rest
    else 0 ≤ c.toInt ∧ Fits (some c) pl rest
  | none, _, [] => True
  | none, pl, c :: rest =>
    if pl.offset ≥ ESIZE then True
    else if c = chr '.' then Fits none (pl.atom 1) rest
    else if c = chr '*' ∧ pl.can then Fits none pl rest
    else if c = chr '*' then pl.offset ≠ 255 ∧ Fits none { pl with offset := pl.offset + 2 } rest
    else if c = chr '$' ∧ rest = [] then True
    else if c = chr '[' then
      if pl.offset + 17 ≥ ESIZE then True
      else
        match rest with
        | [] => True
        | first :: rest =>
          if first = chr '^' then
            match rest with
            | [] => True
            | first :: rest => 0 ≤ first.toInt ∧ Fits (some first) pl rest
          else 0 ≤ first.toInt ∧ Fits (some first) pl rest
    else if c = chr '\\' then
      match rest with
      | [] => pl.offset = 254
      | c :: rest =>
        if c = chr '(' then
          if pl.numbra ≥ NBRA then True
          else
            let pl' := { pl with
              offset := pl.offset + 2
              can := false
              depth := pl.depth + 1
              numbra := pl.numbra + 1 }
            pl.offset ≠ 255 ∧ Fits none pl' rest
        else if c = chr ')' then
          if pl.depth = 0 then True
          else
            let pl' := { pl with
              offset := pl.offset + 2
              can := false
              depth := pl.depth - 1
              closed := pl.closed + 1 }
            pl.offset ≠ 255 ∧ Fits none pl' rest
        else if chr '1' ≤ c ∧ c ≤ chr '9' ∧ (c - chr '1').toNat ≥ pl.closed then True
        else pl.offset ≠ 255 ∧ Fits none (pl.atom 2) rest
    else pl.offset ≠ 255 ∧ Fits none (pl.atom 2) rest

theorem fits_end {pl : Place} {rest : List Byte} (prev : Byte) :
    Fits (some prev) pl (chr ']' :: rest) ↔ Fits none (pl.atom 17) rest := by
  rw [Fits.eq_def]
  exact iff_of_eq (if_pos rfl)

/-! ## What is written -/

theorem Filled.zero : Filled Bytes.zero [] :=
  ⟨Nat.zero_le _, fun i _ => Bytes.get_zero i⟩

theorem Filled.push {buf : Bytes ESIZE} {l : List Byte} (h : Filled buf l) (hl : l.length < ESIZE) (v : Byte) :
    Filled (buf.put l.length v) (l ++ [v]) := by
  refine ⟨by rw [List.length_append, List.length_singleton]; omega, fun i hi => ?_⟩
  rw [Arr.get_put _ _ _ _ hl]
  rcases Nat.lt_trichotomy i l.length with hlt | heq | hgt
  · rw [if_neg hlt.ne, h.get i hi, List.getD_append _ _ _ _ hlt]
  · rw [if_pos heq, heq, List.getD_append_right _ _ _ _ (le_refl _), Nat.sub_self]
    rfl
  · rw [if_neg (by omega), h.get i hi, List.getD_eq_default _ _ hgt.le, List.getD_eq_default]
    rw [List.length_append, List.length_singleton]
    exact hgt

theorem Filled.set {buf : Bytes ESIZE} {l : List Byte} (h : Filled buf l) {k : Nat} (hk : k < l.length)
    (v : Byte) : Filled (buf.put k v) (l.set k v) := by
  have hroom := h.room
  refine ⟨by rwa [List.length_set], fun i hi => ?_⟩
  rw [Arr.get_put _ _ _ _ (by omega), List.getD_eq_getElem?_getD, List.getElem?_set]
  by_cases hik : i = k
  · rw [if_pos hik, if_pos hik.symm, if_pos hk]
    rfl
  · rw [if_neg hik, if_neg (Ne.symm hik), h.get i hi, List.getD_eq_getElem?_getD]

theorem Filled.pad {buf : Bytes ESIZE} {l : List Byte} (h : Filled buf l) {n : Nat}
    (hn : l.length + n ≤ ESIZE) : Filled buf (l ++ List.replicate n 0) := by
  refine ⟨by rwa [List.length_append, List.length_replicate], fun i hi => ?_⟩
  rw [h.get i hi]
  rcases Nat.lt_or_ge i l.length with hlt | hge
  · rw [List.getD_append _ _ _ _ hlt]
  · rw [List.getD_append_right _ _ _ _ hge, List.getD_eq_default _ _ hge]
    rcases Nat.lt_or_ge (i - l.length) n with hlt' | hge'
    · rw [List.getD_replicate _ hlt']
    · rw [List.getD_eq_default]
      rwa [List.length_replicate]

/-- The program so far. -/
structure Comp.Holds (s : Comp) (l : List Byte) : Prop where
  filled : Filled s.expbuf l
  ep : s.ep = l.length

def Comp.push (s : Comp) (v : Byte) : Comp :=
  { s with
    expbuf := s.expbuf.put s.ep v
    ep := s.ep + 1 }

theorem emit_room {s : Comp} (hs : s.ep < ESIZE) (v : Byte) : emit v s = .ok (s.push v) := if_pos hs

theorem emit_full {s : Comp} (hs : ESIZE ≤ s.ep) (v : Byte) : emit v s = .error .expbuf :=
  if_neg (Nat.not_lt.mpr hs)

theorem Comp.Holds.push {s : Comp} {l : List Byte} (h : s.Holds l) (hl : l.length < ESIZE) (v : Byte) :
    (s.push v).Holds (l ++ [v]) := by
  refine ⟨?_, ?_⟩
  · have := h.filled.push hl v
    rwa [← h.ep] at this
  · rw [List.length_append, List.length_singleton, ← h.ep]
    rfl

theorem Comp.Holds.push_two {s : Comp} {l : List Byte} (h : s.Holds l) (hl : l.length + 1 < ESIZE)
    (v w : Byte) :
    ((s.push v).push w).Holds (l ++ [v, w]) := by
  have hpush := (h.push (Nat.lt_of_succ_lt hl) v).push (by rwa [List.length_append, List.length_singleton]) w
  rwa [List.append_assoc] at hpush

/-! ## What is read -/

/-- The rest of the pattern. -/
structure Rest (pat : List Byte) (i : Nat) (rest : List Byte) : Prop where
  le : i ≤ pat.length
  drop : pat.drop i = rest

variable {pat rest : List Byte} {i : Nat} {c : Byte}

theorem Rest.tail (h : Rest pat i (c :: rest)) : Rest pat (i + 1) rest := by
  have hlt : i < pat.length := by
    by_contra hge
    have := h.drop
    rw [List.drop_of_length_le (Nat.not_lt.mp hge)] at this
    cases this
  refine ⟨hlt, ?_⟩
  rw [← List.drop_drop, h.drop]
  rfl

theorem Rest.char (h : Rest pat i (c :: rest)) : char pat i = .ok c := by
  have hlt : i < pat.length := h.tail.le
  have hget : pat.getD i 0 = c := by
    rw [List.getD_eq_getElem?_getD, ← List.head?_drop, h.drop]
    rfl
  unfold Venix.Grep.char
  rw [if_pos hlt, hget]

theorem Rest.end (h : Rest pat i []) : i = pat.length := by
  have := congrArg List.length h.drop
  rw [List.length_drop, List.length_nil] at this
  have := h.le
  omega

theorem Rest.char_end (h : Rest pat i []) : Venix.Grep.char pat i = .ok 0 := by
  unfold Venix.Grep.char
  rw [h.end, if_neg (Nat.lt_irrefl _), if_pos rfl]

theorem char_behind (h : pat.length < i) : char pat i = .error .pattern := by
  unfold char
  rw [if_neg (by omega), if_neg (by omega)]

theorem Rest.mem (h : Rest pat i (c :: rest)) : c ∈ pat := by
  apply List.mem_of_mem_drop (i := i)
  rw [h.drop]
  exact List.mem_cons_self

/-! ## The state in front of a piece -/

theorem code_append (items items' : List Item) : code (items ++ items') = code items ++ code items' :=
  List.flatMap_append

theorem code_concat (items : List Item) (it : Item) : code (items ++ [it]) = code items ++ it.code := by
  rw [code_append]
  exact congrArg (code items ++ ·) (List.append_nil _)

/-- An atom without a star. -/
theorem code_plain (a : Atom) : (Item.one a false).code = a.op :: a.args := by
  simp [Item.code]

theorem brackets_concat (items : List Item) (it : Item) :
    brackets (items ++ [it]) = (brackets items).bind fun b => it.brackets b := by
  unfold brackets
  rw [List.foldlM_append]
  refine congrArg (Option.bind _) (funext fun b => ?_)
  rw [List.foldlM_cons]
  exact bind_pure _

/-- The array `bracket` holds the open brackets. -/
def Stacked (b : Bytes NBRA) : List Nat → Prop
  | [] => True
  | k :: st => b.get st.length = BitVec.ofNat 8 k ∧ Stacked b st

theorem Stacked.put {b : Bytes NBRA} {st : List Nat} (h : Stacked b st) {i : Nat} (hi : st.length ≤ i)
    (v : Byte) : Stacked (b.put i v) st := by
  induction st with
  | nil => trivial
  | cons k st ih =>
    rw [List.length_cons] at hi
    refine ⟨?_, ih h.2 (by omega)⟩
    rw [Arr.get_put_ne _ _ (by omega)]
    exact h.1

structure Nest (s : Comp) (pl : Place) (items : List Item) (stack : List Nat) : Prop where
  brackets : brackets items = some (stack, pl.numbra, pl.closed)
  stacked : Stacked s.bracket stack
  depth : stack.length = pl.depth
  bracketp : s.bracketp = pl.depth
  numbra : s.numbra = pl.numbra
  closed : s.closed = pl.closed
  sum : pl.depth + pl.closed = pl.numbra
  le : pl.numbra ≤ NBRA

/-- `lastep` is at an atom, or at what a star does not act on. -/
def LastIs (s : Comp) (items : List Item) : Bool → Prop
  | true => ∃ init a star, items = init ++ [.one a star] ∧ s.lastep = some (code init).length
  | false => s.lastep = none ∨ ∃ k, s.lastep = some k ∧ k < (code items).length ∧
    ((code items).getD k 0 = CBRA ∨ (code items).getD k 0 = CKET)

structure Built (pat : List Byte) (s : Comp) (pl : Place) (items : List Item) (rest : List Byte) : Prop where
  rest : Rest pat s.sp rest
  holds : s.Holds (code items)
  offset : pl.offset = s.ep
  proper : ∀ it ∈ items, it.Proper
  nest : ∃ stack, Nest s pl items stack
  last : LastIs s items pl.can

variable {s : Comp} {pl : Place} {items : List Item}

theorem Built.program (h : Built pat s pl items rest) : Program items := by
  obtain ⟨stack, hnest⟩ := h.nest
  exact ⟨h.proper, _, hnest.brackets⟩

theorem proper_concat {it : Item} (hproper : ∀ it ∈ items, it.Proper) (hit : it.Proper) :
    ∀ it' ∈ items ++ [it], it'.Proper := by
  intro it' hmem
  rcases List.mem_append.mp hmem with hold | hnew
  · exact hproper it' hold
  · rwa [List.mem_singleton.mp hnew]

/-- Behind an atom: the state `s'` has written it, and differs from `s` in what is read and written only. -/
theorem Built.atom (h : Built pat s pl items rest) {s' : Comp} {rest' : List Byte} {a : Atom}
    (hproper : a.Proper) (hback : ∀ k, a = .back k → k < pl.closed) (hrest : Rest pat s'.sp rest')
    (hholds : s'.Holds (code items ++ (Item.one a false).code)) (hlast : s'.lastep = some s.ep)
    (hbracket : s'.bracket = s.bracket) (hbracketp : s'.bracketp = s.bracketp)
    (hnumbra : s'.numbra = s.numbra) (hclosed : s'.closed = s.closed) :
    Built pat s' (pl.atom (Item.one a false).code.length) (items ++ [.one a false]) rest' := by
  obtain ⟨stack, hnest⟩ := h.nest
  refine ⟨hrest, ?_, ?_, proper_concat h.proper hproper, ⟨stack, ?_, ?_, hnest.depth, ?_, ?_, ?_, hnest.sum,
    hnest.le⟩, ?_⟩
  · rwa [code_concat]
  · rw [hholds.ep, List.length_append, ← h.holds.ep, ← h.offset]
    rfl
  · rw [brackets_concat, hnest.brackets, Option.bind_some]
    cases a with
    | back k => exact if_pos (hback k rfl)
    | chr c => rfl
    | dot => rfl
    | ccl map => rfl
  · rw [hbracket]
    exact hnest.stacked
  · rw [hbracketp]
    exact hnest.bracketp
  · rw [hnumbra]
    exact hnest.numbra
  · rw [hclosed]
    exact hnest.closed
  · refine ⟨items, a, false, rfl, ?_⟩
    rw [hlast, h.holds.ep]

/-! ## The end of the pattern -/

/-- A run that keeps to its buffers, and leaves a complete program if it leaves one. -/
def Safe (r : Except Fault (Option (Bytes ESIZE))) : Prop :=
  ∃ p, r = .ok p ∧ ∀ prog, p = some prog → Complete prog

theorem bind_of_ok {ε α β : Type} {x : Except ε α} {a : α} {f : α → Except ε β} {r : Except ε β}
    (hx : x = .ok a) (hf : f a = r) : (x >>= f) = r := by
  rw [hx]
  exact hf

theorem bind_of_error {ε α β : Type} {x : Except ε α} {e : ε} {f : α → Except ε β} (hx : x = .error e) :
    (x >>= f) = .error e := by
  rw [hx]
  rfl

/-- A run is safe when its pattern fits, and ends in a fault when it does not. -/
def Settles (fits : Prop) (r : Except Fault (Option (Bytes ESIZE))) : Prop :=
  (fits ∧ Safe r) ∨ (¬fits ∧ ∃ e, r = .error e)

theorem safe_none : Safe (.ok none) := ⟨none, rfl, fun _ h => by cases h⟩

theorem Settles.of_error {fits : Prop} (h : ¬fits) (e : Fault) : Settles fits (.error e) := Or.inr ⟨h, e, rfl⟩

theorem Settles.of_safe {fits : Prop} {r : Except Fault (Option (Bytes ESIZE))} (h : fits) (hr : Safe r) :
    Settles fits r := Or.inl ⟨h, hr⟩

theorem loop_more {s' : Comp} (h : turn pat s = .ok (.more s')) (n : Nat) :
    compileLoop pat (n + 1) s = compileLoop pat n s' := bind_of_ok h rfl

theorem loop_done {r : Option (Bytes ESIZE)} (h : turn pat s = .ok (.done r)) (n : Nat) :
    compileLoop pat (n + 1) s = .ok r := bind_of_ok h rfl

theorem loop_error {e : Fault} (h : turn pat s = .error e) (n : Nat) :
    compileLoop pat (n + 1) s = .error e := bind_of_error h

theorem turn_full (h : ESIZE ≤ s.ep) : turn pat s = .ok (.done none) := if_pos h

theorem turn_room (h : s.ep < ESIZE) (hc : char pat s.sp = .ok c) :
    turn pat s = dispatch pat c (s.next c) := (if_neg (Nat.not_le.mpr h)).trans (bind_of_ok hc rfl)

/-- At the end of the pattern the program is complete, or there is no room for its end. -/
theorem safe_end (hrest : Rest pat s.sp []) (hholds : s.Holds (code items)) (hprog : Program items)
    (n : Nat) : Safe (compileLoop pat (n + 1) s) := by
  rcases Nat.lt_or_ge s.ep ESIZE with hroom | hfull
  · have hturn : turn pat s = .ok (.done (some ((s.next 0).push CEOF).expbuf)) :=
      (turn_room hroom hrest.char_end).trans
        ((if_pos rfl).trans (bind_of_ok (emit_room (s := s.next 0) hroom CEOF) rfl))
    rw [loop_done hturn]
    refine ⟨_, rfl, fun prog hprog' => ?_⟩
    cases hprog'
    refine ⟨items, hprog, ?_⟩
    have hlen : (code items).length < ESIZE := hholds.ep ▸ hroom
    have hpush : (s.push CEOF).Holds (code items ++ [CEOF]) := hholds.push hlen CEOF
    exact hpush.filled
  · rw [loop_done (turn_full hfull)]
    exact safe_none

/-! ## Pieces of one and two bytes -/

/-- The variables when a piece was read up to place `i`, and what it becomes is to be written. -/
def Comp.piece (s : Comp) (i : Nat) : Comp :=
  { s with
    sp := i
    lastep := some s.ep }

theorem next_piece (hc : c ≠ chr '*') : s.next c = s.piece (s.sp + 1) := by
  unfold Comp.next Comp.piece
  rw [if_pos hc]

theorem Built.room (h : Built pat s pl items rest) (hroom : pl.offset < ESIZE) :
    s.ep < ESIZE ∧ (code items).length < ESIZE := by
  rw [← h.holds.ep, ← h.offset]
  exact ⟨hroom, hroom⟩

/-- Two bytes are written, or there is no room for the second. -/
theorem two_room (a b : Byte) (hs : s.ep + 1 < 256) :
    (emit a s >>= fun s => emit b s >>= continue_) = .ok (.more ((s.push a).push b)) :=
  bind_of_ok (emit_room (Nat.lt_of_succ_lt hs) a) (bind_of_ok (emit_room hs b) rfl)

theorem two_full (a b : Byte) {f : Comp → Except Fault Ended} (hs : s.ep = 255) :
    (emit a s >>= fun s => emit b s >>= f) = .error .expbuf := by
  refine bind_of_ok (emit_room (hs ▸ by decide) a) (bind_of_error (emit_full ?_ b))
  change 256 ≤ s.ep + 1
  omega

/-- A character of its own. -/
theorem Built.defchar (h : Built pat s pl items rest) (hroom : pl.offset < ESIZE) {j : Nat}
    {rest' : List Byte} (hrest : Rest pat j rest') (hc : c ≠ 0) :
    (pl.offset = 255 → defchar c (s.piece j) = .error .expbuf) ∧
      (pl.offset ≠ 255 → ∃ s', defchar c (s.piece j) = .ok (.more s') ∧
        Built pat s' (pl.atom 2) (items ++ [.one (.chr c) false]) rest') := by
  have hep := h.offset
  obtain ⟨hs, hlen⟩ := h.room hroom
  refine ⟨fun hlast => two_full CCHR c (hep ▸ hlast), fun hne => ?_⟩
  have htwo : (s.piece j).ep + 1 < 256 := by
    change s.ep < 256 at hs
    change s.ep + 1 < 256
    omega
  refine ⟨_, two_room CCHR c htwo, ?_⟩
  have hholds : (s.piece j).Holds (code items) := ⟨h.holds.filled, h.holds.ep⟩
  have hpush := hholds.push_two (h.holds.ep ▸ htwo) CCHR c
  rw [← show (Item.one (.chr c) false).code = [CCHR, c] from code_plain _] at hpush
  exact h.atom (a := .chr c) hc (fun k hk => by cases hk) hrest hpush rfl rfl rfl rfl rfl

theorem Built.dot (h : Built pat s pl items (chr '.' :: rest)) (hroom : pl.offset < ESIZE) :
    ∃ s', turn pat s = .ok (.more s') ∧ Built pat s' (pl.atom 1) (items ++ [.one .dot false]) rest := by
  obtain ⟨hs, hlen⟩ := h.room hroom
  refine ⟨(s.piece (s.sp + 1)).push CDOT, (turn_room hs h.rest.char).trans ?_, ?_⟩
  · rw [next_piece (by decide)]
    exact bind_of_ok (emit_room (s := s.piece (s.sp + 1)) hs CDOT) rfl
  · have hholds : (s.piece (s.sp + 1)).Holds (code items) := ⟨h.holds.filled, h.holds.ep⟩
    exact h.atom (a := .dot) trivial (fun k hk => by cases hk) h.rest.tail (hholds.push hlen CDOT) rfl rfl rfl
      rfl rfl

/-! ## Stars -/

theorem op_star (a : Atom) (star : Bool) :
    (a.op ||| if star then STAR else 0) ≠ CBRA ∧ (a.op ||| if star then STAR else 0) ≠ CKET ∧
      (a.op ||| if star then STAR else 0) ||| STAR = a.op ||| STAR := by
  have hall : ∀ op ∈ [CCHR, CDOT, CCL, CBACK], ∀ star : Bool, (op ||| if star then STAR else 0) ≠ CBRA ∧
      (op ||| if star then STAR else 0) ≠ CKET ∧
      (op ||| if star then STAR else 0) ||| STAR = op ||| STAR := by decide
  refine hall a.op ?_ star
  cases a <;> simp [Atom.op]

theorem Filled.code_at {init : List Item} {it : Item} {buf : Bytes ESIZE}
    (h : Filled buf (code (init ++ [it]))) (b : Byte) (args : List Byte) (hcode : it.code = b :: args) :
    (code init).length < (code (init ++ [it])).length ∧ buf.get (code init).length = b := by
  have hlt : (code init).length < (code (init ++ [it])).length := by
    rw [code_concat, List.length_append, hcode, List.length_cons]
    omega
  refine ⟨hlt, ?_⟩
  rw [h.get _ (lt_of_lt_of_le hlt h.room), code_concat, List.getD_append_right _ _ _ _ (le_refl _),
    Nat.sub_self, hcode]
  rfl

/-- A star behind an atom. -/
theorem Built.star (h : Built pat s pl items (chr '*' :: rest)) (hroom : pl.offset < ESIZE)
    (hcan : pl.can = true) : ∃ s' init a star, items = init ++ [.one a star] ∧
      turn pat s = .ok (.more s') ∧ Built pat s' pl (init ++ [.one a true]) rest := by
  obtain ⟨hs, hlen⟩ := h.room hroom
  have hlast := h.last
  rw [hcan] at hlast
  obtain ⟨init, a, star, rfl, hep⟩ := hlast
  obtain ⟨hbra, hket, hor⟩ := op_star a star
  obtain ⟨hlt, hget⟩ := h.holds.filled.code_at _ _ rfl
  have hfilled := h.holds.filled.set hlt (a.op ||| STAR)
  have hset : (code (init ++ [.one a star])).set (code init).length (a.op ||| STAR) =
      code (init ++ [.one a true]) := by
    rw [code_concat, code_concat, List.set_append_right _ _ (le_refl _), Nat.sub_self]
    rfl
  rw [hset] at hfilled
  have hlength : (code (init ++ [.one a star])).length = (code (init ++ [.one a true])).length := by
    rw [← hset, List.length_set]
  refine ⟨{ s with
      sp := s.sp + 1
      expbuf := s.expbuf.put (code init).length (a.op ||| STAR) }, init, a, star, rfl, ?_, h.rest.tail,
    ⟨hfilled, h.holds.ep.trans hlength⟩, h.offset, ?_, ?_, ?_⟩
  · have hnext : s.next (chr '*') = { s with sp := s.sp + 1 } := by
      unfold Comp.next
      rw [if_neg (by decide)]
    refine (turn_room hs h.rest.char).trans ?_
    rw [hnext]
    unfold dispatch Venix.Grep.star
    rw [if_neg (by decide), if_neg (by decide), if_pos rfl]
    dsimp only
    rw [hep]
    dsimp only
    rw [hget, if_neg (not_or.mpr ⟨hbra, hket⟩), hor]
    rfl
  · intro it hit
    rcases List.mem_append.mp hit with hold | hnew
    · exact h.proper it (List.mem_append_left _ hold)
    · rw [List.mem_singleton.mp hnew]
      exact h.proper (.one a star) (List.mem_append_right _ (List.mem_singleton_self _))
  · obtain ⟨stack, hnest⟩ := h.nest
    refine ⟨stack, ?_, hnest.stacked, hnest.depth, hnest.bracketp, hnest.numbra, hnest.closed, hnest.sum,
      hnest.le⟩
    have hsame : ∀ b, (Item.one a true).brackets b = (Item.one a star).brackets b := by
      intro b
      cases a <;> rfl
    rw [brackets_concat, funext hsame, ← brackets_concat]
    exact hnest.brackets
  · rw [hcan]
    exact ⟨init, a, true, rfl, hep⟩

/-- A star that stands for itself. -/
theorem Built.star_alone (h : Built pat s pl items (chr '*' :: rest)) (hroom : pl.offset < ESIZE)
    (hcan : pl.can = false) :
    (pl.offset = 255 → turn pat s = .error .expbuf) ∧
      (pl.offset ≠ 255 → ∃ s', turn pat s = .ok (.more s') ∧
        Built pat s' { pl with offset := pl.offset + 2 } (items ++ [.one (.chr (chr '*')) false]) rest) := by
  obtain ⟨hs, hlen⟩ := h.room hroom
  have hlast := h.last
  rw [hcan] at hlast
  have hlast : s.lastep = none ∨ ∃ k, s.lastep = some k ∧ k < (code items).length ∧
    ((code items).getD k 0 = CBRA ∨ (code items).getD k 0 = CKET) := hlast
  have hturn : turn pat s = Venix.Grep.defchar (chr '*') { s with sp := s.sp + 1 } := by
    have hnext : s.next (chr '*') = { s with sp := s.sp + 1 } := by
      unfold Comp.next
      rw [if_neg (by decide)]
    refine (turn_room hs h.rest.char).trans ?_
    rw [hnext]
    unfold dispatch Venix.Grep.star
    rw [if_neg (by decide), if_neg (by decide), if_pos rfl]
    dsimp only
    rcases hlast with hnone | ⟨k, hk, hlt, hop⟩
    · rw [hnone]
    · have hget : s.expbuf.get k = (code items).getD k 0 := h.holds.filled.get k (by omega)
      rw [hk]
      dsimp only
      rw [hget, if_pos hop]
  rw [hturn]
  refine ⟨fun h255 => two_full CCHR _ (h.offset ▸ h255), fun hne => ?_⟩
  have htwo : s.ep + 1 < 256 := by
    have := h.offset
    change s.ep < 256 at hs
    omega
  refine ⟨_, two_room CCHR (chr '*') htwo, h.rest.tail, ?_, ?_, ?_, ?_, ?_⟩
  · have hholds : ({ s with sp := s.sp + 1 } : Comp).Holds (code items) := ⟨h.holds.filled, h.holds.ep⟩
    rw [code_concat, code_plain]
    exact hholds.push_two (h.holds.ep ▸ htwo) CCHR (chr '*')
  · exact congrArg (· + 2) h.offset
  · exact proper_concat h.proper (show chr '*' ≠ 0 by decide)
  · obtain ⟨stack, hnest⟩ := h.nest
    refine ⟨stack, ?_, hnest.stacked, hnest.depth, hnest.bracketp, hnest.numbra, hnest.closed, hnest.sum,
      hnest.le⟩
    rw [brackets_concat, hnest.brackets]
    rfl
  · dsimp only
    rw [hcan]
    rcases hlast with hnone | ⟨k, hk, hlt, hop⟩
    · exact Or.inl hnone
    · refine Or.inr ⟨k, hk, ?_, ?_⟩
      · rw [code_concat, List.length_append]
        omega
      · rwa [code_concat, List.getD_append _ _ _ _ hlt]

/-! ## `$` -/

/-- A final `$`. -/
theorem Built.dollar_end (h : Built pat s pl items [chr '$']) (hroom : pl.offset < ESIZE) (n : Nat) :
    Safe (compileLoop pat (n + 2) s) := by
  obtain ⟨hs, hlen⟩ := h.room hroom
  have hturn : turn pat s = .ok (.more ((s.piece (s.sp + 1)).push CDOL)) := by
    refine (turn_room hs h.rest.char).trans ?_
    rw [next_piece (by decide)]
    unfold dispatch dollar
    rw [if_neg (by decide), if_neg (by decide), if_neg (by decide), if_pos rfl]
    refine bind_of_ok h.rest.tail.char_end ((if_neg (not_not.mpr rfl)).trans ?_)
    exact bind_of_ok (emit_room (s := s.piece (s.sp + 1)) hs CDOL) rfl
  have hholds : (s.piece (s.sp + 1)).Holds (code items) := ⟨h.holds.filled, h.holds.ep⟩
  have hcode : code (items ++ [.dol]) = code items ++ [CDOL] := code_concat items .dol
  obtain ⟨stack, hnest⟩ := h.nest
  have hprog : Program (items ++ [.dol]) := by
    refine ⟨proper_concat h.proper trivial, (stack, pl.numbra, pl.closed), ?_⟩
    rw [brackets_concat, hnest.brackets]
    rfl
  rw [loop_more hturn]
  exact safe_end h.rest.tail (hcode ▸ hholds.push hlen CDOL) hprog n

/-- `$` in front of something. -/
theorem Built.dollar (h : Built pat s pl items (chr '$' :: rest)) (hnul : 0 ∉ pat) (hroom : pl.offset < ESIZE)
    (hmore : rest ≠ []) : turn pat s = Venix.Grep.defchar (chr '$') (s.piece (s.sp + 1)) := by
  obtain ⟨hs, -⟩ := h.room hroom
  obtain ⟨d, rest, rfl⟩ := List.exists_cons_of_ne_nil hmore
  have hd : d ≠ 0 := fun h0 => hnul (h0 ▸ h.rest.tail.mem)
  refine (turn_room hs h.rest.char).trans ?_
  rw [next_piece (by decide)]
  unfold dispatch Venix.Grep.dollar
  rw [if_neg (by decide), if_neg (by decide), if_neg (by decide), if_pos rfl]
  exact bind_of_ok h.rest.tail.char (if_pos hd)

/-! ## Escapes -/

/-- Up to the character behind a backslash. -/
theorem Built.escape (h : Built pat s pl items (chr '\\' :: rest)) (hroom : pl.offset < ESIZE) :
    turn pat s = Venix.Grep.escape pat (s.piece (s.sp + 1)) := by
  refine (turn_room (h.room hroom).1 h.rest.char).trans ?_
  rw [next_piece (by decide)]
  unfold dispatch
  rw [if_neg (by decide), if_neg (by decide), if_neg (by decide), if_neg (by decide), if_neg (by decide),
    if_pos rfl]

/-- A backslash at the end of the pattern. -/
theorem Built.escape_end (h : Built pat s pl items [chr '\\']) (hroom : pl.offset < ESIZE) (n : Nat) :
    Settles (pl.offset = 254) (compileLoop pat (n + 2) s) := by
  obtain ⟨hs, -⟩ := h.room hroom
  have hturn : turn pat s = Venix.Grep.defchar 0 (s.piece (s.sp + 2)) := by
    refine (h.escape hroom).trans ?_
    unfold Venix.Grep.escape
    refine bind_of_ok h.rest.tail.char_end ?_
    rw [if_neg (by decide), if_neg (by decide), if_neg (by decide)]
    rfl
  have hep := h.offset
  by_cases h255 : pl.offset = 255
  · have hfull : turn pat s = .error .expbuf := hturn.trans (two_full CCHR 0 (hep ▸ h255))
    rw [loop_error hfull]
    exact .of_error (by omega) _
  · have htwo : s.ep + 1 < 256 := by
      change s.ep < 256 at hs
      omega
    have hmore := hturn.trans (two_room (s := s.piece (s.sp + 2)) CCHR 0 htwo)
    rw [loop_more hmore]
    obtain ⟨s', hs'⟩ : ∃ s', ((s.piece (s.sp + 2)).push CCHR).push 0 = s' := ⟨_, rfl⟩
    have hep' : s'.ep = s.ep + 2 := by
      rw [← hs']
      rfl
    have hsp' : s'.sp = s.sp + 2 := by
      rw [← hs']
      rfl
    rw [hs']
    by_cases h254 : pl.offset = 254
    · have hfull : ESIZE ≤ s'.ep := by
        change 256 ≤ s'.ep
        omega
      rw [loop_done (turn_full hfull)]
      exact .of_safe h254 safe_none
    · have hroom' : ¬s'.ep ≥ ESIZE := by
        change ¬256 ≤ s'.ep
        omega
      have hend := h.rest.tail.end
      have hbehind : turn pat s' = .error .pattern :=
        (if_neg hroom').trans (bind_of_error (char_behind (by omega)))
      rw [loop_error hbehind]
      exact .of_error h254 _

/-- A piece that writes two bytes: a fault at the last byte of `expbuf`, else its state. -/
def Twice (pat : List Byte) (s : Comp) (offset : Nat) (P : Comp → Prop) : Prop :=
  (offset = 255 → turn pat s = .error .expbuf) ∧
    (offset ≠ 255 → ∃ s', turn pat s = .ok (.more s') ∧ P s')

theorem Twice.of_defchar (h : Built pat s pl items rest) (hroom : pl.offset < ESIZE) {j : Nat}
    {rest' : List Byte} (hrest : Rest pat j rest') (hc : c ≠ 0) (hturn : turn pat s = defchar c (s.piece j)) :
    Twice pat s pl.offset fun s' => Built pat s' (pl.atom 2) (items ++ [.one (.chr c) false]) rest' := by
  unfold Twice
  rw [hturn]
  exact h.defchar hroom hrest hc

/-- `\(`, when there may be another. -/
theorem Built.bra (h : Built pat s pl items (chr '\\' :: chr '(' :: rest)) (hroom : pl.offset < ESIZE)
    (hfew : pl.numbra < NBRA) :
    Twice pat s pl.offset fun s' => Built pat s'
      { pl with
        offset := pl.offset + 2
        can := false
        depth := pl.depth + 1
        numbra := pl.numbra + 1 } (items ++ [.bra pl.numbra]) rest := by
  obtain ⟨stack, hnest⟩ := h.nest
  obtain ⟨hs, hlen⟩ := h.room hroom
  have hep := h.offset
  have hbp : s.bracketp < NBRA := by
    have := hnest.sum
    rw [hnest.bracketp]
    exact lt_of_le_of_lt (by omega) hfew
  -- the number goes on the stack, then the two bytes are written
  obtain ⟨s₁, hs₁⟩ : ∃ s₁ : Comp, { s.piece (s.sp + 2) with
    bracket := s.bracket.put s.bracketp (BitVec.ofNat 8 s.numbra)
    bracketp := s.bracketp + 1 } = s₁ := ⟨_, rfl⟩
  have hep₁ : s₁.ep = s.ep := by rw [← hs₁]; rfl
  have hnum₁ : s₁.numbra = s.numbra := by rw [← hs₁]; rfl
  have hturn : turn pat s = (emit CBRA s₁ >>= fun s => emit (BitVec.ofNat 8 s.numbra) s >>= fun s =>
      continue_ { s with numbra := s.numbra + 1 }) := by
    refine (h.escape hroom).trans ?_
    unfold Venix.Grep.escape
    refine bind_of_ok h.rest.tail.char ?_
    rw [if_pos rfl]
    refine (if_neg ?_).trans ((if_pos hbp).trans ?_)
    · change ¬s.numbra ≥ NBRA
      rw [hnest.numbra]
      exact Nat.not_le.mpr hfew
    · rw [← hs₁]
      rfl
  rw [Twice, hturn]
  refine ⟨fun h255 => ?_, fun hne => ?_⟩
  · refine bind_of_ok (emit_room (hep₁ ▸ hs) CBRA) (bind_of_error (emit_full ?_ _))
    change 256 ≤ s₁.ep + 1
    omega
  · have htwo : s₁.ep + 1 < 256 := by
      change s.ep < 256 at hs
      omega
    have hholds : s₁.Holds (code items) := by
      rw [← hs₁]
      exact ⟨h.holds.filled, h.holds.ep⟩
    have hpush := hholds.push_two (hholds.ep ▸ htwo) CBRA (BitVec.ofNat 8 s.numbra)
    have hcode : code (items ++ [.bra pl.numbra]) = code items ++ [CBRA, BitVec.ofNat 8 s.numbra] := by
      rw [code_concat, hnest.numbra]
      rfl
    refine ⟨_, bind_of_ok (emit_room (hep₁ ▸ hs) CBRA) (bind_of_ok (emit_room htwo _) rfl), ?_⟩
    rw [← hs₁] at hpush ⊢
    refine ⟨h.rest.tail.tail, ⟨hcode ▸ hpush.filled, hcode ▸ hpush.ep⟩, congrArg (· + 2) hep,
      proper_concat h.proper trivial, ⟨pl.numbra :: stack, ?_, ⟨?_, ?_⟩, congrArg (· + 1) hnest.depth,
      congrArg (· + 1) hnest.bracketp, congrArg (· + 1) hnest.numbra, hnest.closed, ?_, hfew⟩, ?_⟩
    · rw [brackets_concat, hnest.brackets]
      exact if_pos ⟨rfl, hfew⟩
    · change (s.bracket.put s.bracketp (BitVec.ofNat 8 s.numbra)).get stack.length = _
      rw [hnest.depth, ← hnest.bracketp, Arr.get_put_self _ _ _ hbp, hnest.numbra]
    · exact hnest.stacked.put (by rw [hnest.depth, hnest.bracketp]) _
    · have := hnest.sum
      dsimp only
      omega
    · refine Or.inr ⟨s.ep, rfl, ?_, Or.inl ?_⟩
      · rw [hcode, List.length_append, ← h.holds.ep]
        exact Nat.lt_add_of_pos_right (Nat.succ_pos 1)
      · rw [hcode, h.holds.ep, List.getD_append_right _ _ _ _ (le_refl _), Nat.sub_self]
        rfl

/-- `\)`, when a bracket is open. -/
theorem Built.ket (h : Built pat s pl items (chr '\\' :: chr ')' :: rest)) (hroom : pl.offset < ESIZE)
    (hopen : 0 < pl.depth) :
    Twice pat s pl.offset fun s' => ∃ k, Built pat s'
      { pl with
        offset := pl.offset + 2
        can := false
        depth := pl.depth - 1
        closed := pl.closed + 1 } (items ++ [.ket k]) rest := by
  obtain ⟨stack, hnest⟩ := h.nest
  obtain ⟨k, stack, rfl⟩ : ∃ k st, stack = k :: st :=
    List.exists_cons_of_length_pos (hnest.depth ▸ hopen)
  obtain ⟨hs, hlen⟩ := h.room hroom
  have hep := h.offset
  obtain ⟨s₁, hs₁⟩ : ∃ s₁ : Comp, s.piece (s.sp + 2) = s₁ := ⟨_, rfl⟩
  have hep₁ : s₁.ep = s.ep := by rw [← hs₁]; rfl
  have htop : s₁.bracket.get (s₁.bracketp - 1) = BitVec.ofNat 8 k := by
    rw [← hs₁]
    change s.bracket.get (s.bracketp - 1) = _
    rw [hnest.bracketp, ← hnest.depth]
    exact hnest.stacked.1
  have hturn : turn pat s = (emit CKET s₁ >>= fun s =>
      let s := { s with bracketp := s.bracketp - 1 }
      emit (s.bracket.get s.bracketp) s >>= fun s => continue_ { s with closed := s.closed + 1 }) := by
    refine (h.escape hroom).trans ?_
    unfold Venix.Grep.escape
    refine bind_of_ok h.rest.tail.char ?_
    rw [if_neg (by decide), if_pos rfl, ← hs₁]
    refine if_neg ?_
    change ¬s.bracketp = 0
    rw [hnest.bracketp]
    omega
  rw [Twice, hturn]
  refine ⟨fun h255 => ?_, fun hne => ?_⟩
  · refine bind_of_ok (emit_room (hep₁ ▸ hs) CKET) (bind_of_error (emit_full ?_ _))
    change 256 ≤ s₁.ep + 1
    omega
  · have htwo : s₁.ep + 1 < 256 := by
      change s.ep < 256 at hs
      omega
    have hholds : s₁.Holds (code items) := by
      rw [← hs₁]
      exact ⟨h.holds.filled, h.holds.ep⟩
    have hpush := hholds.push_two (hholds.ep ▸ htwo) CKET (s₁.bracket.get (s₁.bracketp - 1))
    have hcode : code (items ++ [.ket k]) = code items ++ [CKET, s₁.bracket.get (s₁.bracketp - 1)] := by
      rw [code_concat, htop]
      rfl
    refine ⟨_, bind_of_ok (emit_room (hep₁ ▸ hs) CKET) (bind_of_ok
      (emit_room (s := { s₁.push CKET with bracketp := s₁.bracketp - 1 }) htwo _) rfl), k, ?_⟩
    have hnum : pl.numbra = s.numbra := hnest.numbra.symm
    rw [← hs₁] at hpush hcode ⊢
    refine ⟨h.rest.tail.tail, ⟨hcode ▸ hpush.filled, hcode ▸ hpush.ep⟩, congrArg (· + 2) hep,
      proper_concat h.proper trivial, ⟨stack, ?_, hnest.stacked.2, ?_, congrArg (· - 1) hnest.bracketp,
      hnest.numbra, congrArg (· + 1) hnest.closed, ?_, hnest.le⟩, ?_⟩
    · rw [brackets_concat, hnest.brackets]
      exact if_pos rfl
    · have := hnest.depth
      rw [List.length_cons] at this
      dsimp only
      omega
    · have := hnest.sum
      dsimp only
      omega
    · refine Or.inr ⟨s.ep, rfl, ?_, Or.inr ?_⟩
      · rw [hcode, List.length_append, ← h.holds.ep]
        exact Nat.lt_add_of_pos_right (Nat.succ_pos 1)
      · rw [hcode, h.holds.ep, List.getD_append_right _ _ _ _ (le_refl _), Nat.sub_self]
        rfl

theorem ofNat_toNat_byte (b : Byte) : BitVec.ofNat 8 b.toNat = b := by
  rw [BitVec.ofNat_toNat, BitVec.setWidth_eq]

theorem digit_ne (h : chr '1' ≤ c) : c ≠ chr '(' ∧ c ≠ chr ')' := by
  have hall : ∀ c : Byte, chr '1' ≤ c → c ≠ chr '(' ∧ c ≠ chr ')' := by decide
  exact hall c h

/-- A back reference to a bracket that is closed. -/
theorem Built.back (h : Built pat s pl items (chr '\\' :: c :: rest)) (hroom : pl.offset < ESIZE)
    (hdigit : chr '1' ≤ c ∧ c ≤ chr '9') (hclosed : (c - chr '1').toNat < pl.closed) :
    Twice pat s pl.offset fun s' =>
      Built pat s' (pl.atom 2) (items ++ [.one (.back (c - chr '1').toNat) false]) rest := by
  obtain ⟨stack, hnest⟩ := h.nest
  obtain ⟨hs, hlen⟩ := h.room hroom
  have hep := h.offset
  have hother := digit_ne hdigit.1
  have hturn : turn pat s = (emit CBACK (s.piece (s.sp + 2)) >>= fun s =>
      emit (c - chr '1') s >>= continue_) := by
    refine (h.escape hroom).trans ?_
    unfold Venix.Grep.escape
    refine bind_of_ok h.rest.tail.char ?_
    rw [if_neg hother.1, if_neg hother.2, if_pos hdigit]
    refine if_neg ?_
    change ¬(c - chr '1').toNat ≥ s.closed
    rw [hnest.closed]
    exact Nat.not_le.mpr hclosed
  rw [Twice, hturn]
  refine ⟨fun h255 => two_full CBACK _ (hep ▸ h255), fun hne => ?_⟩
  have htwo : (s.piece (s.sp + 2)).ep + 1 < 256 := by
    change s.ep < 256 at hs
    change s.ep + 1 < 256
    omega
  refine ⟨_, two_room CBACK _ htwo, ?_⟩
  have hholds : (s.piece (s.sp + 2)).Holds (code items) := ⟨h.holds.filled, h.holds.ep⟩
  have hpush := hholds.push_two (h.holds.ep ▸ htwo) CBACK (c - chr '1')
  have hcode : (Item.one (.back (c - chr '1').toNat) false).code = [CBACK, c - chr '1'] := by
    rw [code_plain]
    exact congrArg (fun b => [CBACK, b]) (ofNat_toNat_byte _)
  rw [← hcode] at hpush
  refine h.atom (a := .back (c - chr '1').toNat) trivial (fun k hk => ?_) h.rest.tail.tail hpush rfl rfl rfl rfl
    rfl
  cases hk
  exact hclosed

/-- A character behind a backslash that has no other meaning. -/
theorem Built.escape_chr (h : Built pat s pl items (chr '\\' :: c :: rest)) (hroom : pl.offset < ESIZE)
    (hbra : c ≠ chr '(') (hket : c ≠ chr ')') (hdigit : ¬(chr '1' ≤ c ∧ c ≤ chr '9')) :
    turn pat s = Venix.Grep.defchar c (s.piece (s.sp + 2)) := by
  refine (h.escape hroom).trans ?_
  unfold Venix.Grep.escape
  refine bind_of_ok h.rest.tail.char ?_
  rw [if_neg hbra, if_neg hket, if_neg hdigit]
  rfl

/-- One `\(` too many. -/
theorem Built.bra_many (h : Built pat s pl items (chr '\\' :: chr '(' :: rest)) (hroom : pl.offset < ESIZE)
    (hmany : NBRA ≤ pl.numbra) : turn pat s = .ok (.done none) := by
  obtain ⟨stack, hnest⟩ := h.nest
  refine (h.escape hroom).trans (bind_of_ok h.rest.tail.char ?_)
  refine (if_pos rfl).trans (if_pos ?_)
  change s.numbra ≥ NBRA
  rwa [hnest.numbra]

/-- `\)` without a bracket that is open. -/
theorem Built.ket_none (h : Built pat s pl items (chr '\\' :: chr ')' :: rest)) (hroom : pl.offset < ESIZE)
    (hzero : pl.depth = 0) : turn pat s = .ok (.done none) := by
  obtain ⟨stack, hnest⟩ := h.nest
  refine (h.escape hroom).trans (bind_of_ok h.rest.tail.char ?_)
  refine (if_neg (by decide)).trans ((if_pos rfl).trans (if_pos ?_))
  change s.bracketp = 0
  rw [hnest.bracketp, hzero]

/-- A back reference to a bracket that is not closed. -/
theorem Built.back_none (h : Built pat s pl items (chr '\\' :: c :: rest)) (hroom : pl.offset < ESIZE)
    (hdigit : chr '1' ≤ c ∧ c ≤ chr '9') (hopen : pl.closed ≤ (c - chr '1').toNat) :
    turn pat s = .ok (.done none) := by
  obtain ⟨stack, hnest⟩ := h.nest
  have hother := digit_ne hdigit.1
  refine (h.escape hroom).trans (bind_of_ok h.rest.tail.char ?_)
  refine (if_neg hother.1).trans ((if_neg hother.2).trans ((if_pos hdigit).trans (if_pos ?_)))
  change (c - chr '1').toNat ≥ s.closed
  rwa [hnest.closed]

/-- A list that there is no room for. -/
theorem Built.list_full (h : Built pat s pl items (chr '[' :: rest)) (hroom : pl.offset < ESIZE)
    (hfull : ESIZE ≤ pl.offset + 17) : turn pat s = .ok (.done none) := by
  refine (turn_room (h.room hroom).1 h.rest.char).trans ?_
  rw [next_piece (by decide)]
  unfold dispatch
  rw [if_neg (by decide), if_neg (by decide), if_neg (by decide), if_neg (by decide), if_pos rfl]
  refine if_pos ?_
  change s.ep + 17 ≥ ESIZE
  rwa [← h.offset]

/-! ## Bit maps -/

/-- The bit of `c` in a bit map. -/
def has (map : List Byte) (c : Nat) : Bool := (map.getD (c / 8) 0).getLsbD (c % 8)

def setMap (map : List Byte) (c : Nat) : List Byte :=
  map.set (c / 8) (map.getD (c / 8) 0 ||| 1#8 <<< (c % 8))

theorem has_setMap {map : List Byte} (hmap : map.length = 16) {c : Nat} (hc : c < 128) (d : Nat) :
    has (setMap map c) d = (decide (d = c) || has map d) := by
  have hbit : ∀ k < 8, ∀ j < 8, (1#8 <<< k).getLsbD j = decide (j = k) := by decide
  unfold has setMap
  by_cases hdiv : d / 8 = c / 8
  · have hdc : d % 8 = c % 8 ↔ d = c := by omega
    have hlt : c / 8 < map.length := by omega
    rw [hdiv, List.getD_eq_getElem?_getD, List.getElem?_set_self hlt, Option.getD_some, BitVec.getLsbD_or,
      hbit _ (Nat.mod_lt _ (by decide)) _ (Nat.mod_lt _ (by decide)), Bool.or_comm, decide_eq_decide.mpr hdc]
  · have hne : d ≠ c := fun heq => hdiv (heq ▸ rfl)
    rw [List.getD_eq_getElem?_getD, List.getElem?_set_ne (Ne.symm hdiv), ← List.getD_eq_getElem?_getD,
      decide_eq_false hne, Bool.false_or]

theorem setMap_length (map : List Byte) (c : Nat) : (setMap map c).length = map.length := List.length_set

/-- Behind `pre`, which ends with the opcode, `expbuf` holds a bit map. -/
structure Mapped (s : Comp) (pre map : List Byte) : Prop where
  filled : Filled s.expbuf (pre ++ map)
  ep : s.ep = pre.length
  length : map.length = 16

variable {pre map : List Byte}

theorem Mapped.bit (h : Mapped s pre map) {c : Int} (hc : 0 ≤ c) (hc' : c < 128) :
    ∃ buf, setBit c s = .ok { s with expbuf := buf } ∧
      Mapped { s with expbuf := buf } pre (setMap map c.toNat) := by
  obtain ⟨n, rfl⟩ : ∃ n : Nat, c = n := ⟨c.toNat, by omega⟩
  have hdiv : ((n : Int) / 8).toNat = n / 8 := by omega
  have hmod : ((n : Int) % 8).toNat = n % 8 := by omega
  have hlen := h.length
  have hat : s.ep + n / 8 < (pre ++ map).length := by
    rw [List.length_append, h.ep]
    omega
  have hget : s.expbuf.get (s.ep + n / 8) = map.getD (n / 8) 0 := by
    rw [h.filled.get _ (lt_of_lt_of_le hat h.filled.room), h.ep,
      List.getD_append_right _ _ _ _ (Nat.le_add_right _ _), Nat.add_sub_cancel_left]
  refine ⟨_, if_pos (by omega), ?_, h.ep, by rw [setMap_length, hlen]⟩
  dsimp only
  rw [hdiv, hmod, hget, Int.toNat_natCast]
  have hset := h.filled.set hat (map.getD (n / 8) 0 ||| 1#8 <<< (n % 8))
  rw [h.ep, List.set_append_right _ _ (Nat.le_add_right _ _), Nat.add_sub_cancel_left, ← h.ep] at hset
  exact hset

theorem setBit_negative {c : Int} (hc : c < 0) : setBit c s = .error .bitmap := if_neg (by omega)

/-- The characters of a range. -/
def setMaps (map : List Byte) (first n : Nat) : List Byte := (List.range' first n).foldl setMap map

theorem Mapped.bits (h : Mapped s pre map) {n : Nat} {first : Int} (hfirst : 0 ≤ first)
    (hn : first + n ≤ 128) :
    ∃ buf, setBits n first s = .ok { s with expbuf := buf } ∧
      Mapped { s with expbuf := buf } pre (setMaps map first.toNat n) := by
  induction n generalizing s map first with
  | zero => exact ⟨s.expbuf, rfl, h⟩
  | succ n ih =>
    obtain ⟨buf₁, hbit, h₁⟩ := h.bit hfirst (show first < 128 by omega)
    obtain ⟨buf, hbits, h₂⟩ := ih h₁ (show 0 ≤ first + 1 by omega) (by omega)
    refine ⟨buf, bind_of_ok hbit hbits, ?_⟩
    rw [show (first + 1).toNat = first.toNat + 1 by omega] at h₂
    exact h₂

/-! ## Lists -/

/-- What a list leaves alone. -/
structure Frame (s s' : Comp) : Prop where
  lastep : s'.lastep = s.lastep
  bracket : s'.bracket = s.bracket
  bracketp : s'.bracketp = s.bracketp
  numbra : s'.numbra = s.numbra
  closed : s'.closed = s.closed

theorem Frame.trans {s s' s'' : Comp} (h : Frame s s') (h' : Frame s' s'') : Frame s s'' :=
  ⟨h'.lastep.trans h.lastep, h'.bracket.trans h.bracket, h'.bracketp.trans h.bracketp,
    h'.numbra.trans h.numbra, h'.closed.trans h.closed⟩

/-- How the loop over a list ends: with a fault, at the end of the pattern, or behind the list. -/
def ListEnds (pat pre : List Byte) (s : Comp) (pl : Place) (n : Nat) (fits : Prop)
    (r : Except Fault (Option Comp)) : Prop :=
  (∃ e, r = .error e ∧ ¬fits) ∨ (r = .ok none ∧ fits) ∨
    ∃ s' map rest, r = .ok (some s') ∧ Frame s s' ∧ Rest pat s'.sp rest ∧ rest.length ≤ n ∧
      Mapped s' pre map ∧ has map 0 = false ∧ (fits ↔ Fits none (pl.atom 17) rest)

theorem ListEnds.mono {s₁ : Comp} {m n : Nat} {fits fits' : Prop} {r : Except Fault (Option Comp)}
    (h : ListEnds pat pre s₁ pl m fits' r) (hframe : Frame s s₁) (hmn : m ≤ n) (hfits : fits ↔ fits') :
    ListEnds pat pre s pl n fits r := by
  rcases h with ⟨e, hr, hnot⟩ | ⟨hr, hyes⟩ | ⟨s', map, rest, hr, hf, hrest, hlen, hmap, h0, hiff⟩
  · exact Or.inl ⟨e, hr, mt hfits.mp hnot⟩
  · exact Or.inr (Or.inl ⟨hr, hfits.mpr hyes⟩)
  · exact Or.inr (Or.inr ⟨s', map, rest, hr, hframe.trans hf, hrest, hlen.trans hmn, hmap, h0,
      hfits.trans hiff⟩)

/-- The loop over a list when the next character is still to be read. -/
def listRest (pat : List Byte) (cstart n : Nat) (s : Comp) : Except Fault (Option Comp) := do
  let c ← char pat s.sp
  let s := { s with sp := s.sp + 1 }
  if c = chr ']' then return some s else listLoop pat cstart n c s

theorem listLoop_succ (cstart n : Nat) (hc : c ≠ 0) :
    listLoop pat cstart (n + 1) c s = (inList pat cstart c s >>= listRest pat cstart n) := if_neg hc

theorem toInt_lt (c : Byte) : c.toInt < 128 := by
  have := c.toInt_lt
  omega

theorem has_setMap_zero (hmap : map.length = 16) (h0 : has map 0 = false) {c : Int} (hc : 0 < c)
    (hc' : c < 128) :
    has (setMap map c.toNat) 0 = false := by
  rw [has_setMap hmap (by omega), h0, Bool.or_false]
  exact decide_eq_false (by omega)

theorem has_setMaps_zero (hmap : map.length = 16) (h0 : has map 0 = false) {first n : Nat} (hfirst : 0 < first)
    (hn : first + n ≤ 128) : has (setMaps map first n) 0 = false := by
  induction n generalizing map first with
  | zero => exact h0
  | succ n ih =>
    have hbit := has_setMap_zero hmap h0 (c := first) (by omega) (by omega)
    exact ih (by rw [setMap_length, hmap]) hbit (by omega) (by omega)

theorem toInt_pos {c : Byte} (hc : c ≠ 0) (h : 0 ≤ c.toInt) : 0 < c.toInt := by
  refine lt_of_le_of_ne h fun h0 => hc ?_
  rw [← BitVec.toInt_inj, ← h0]
  rfl

/-- A character of a list is one of 7 bits, or a fault. -/
theorem Mapped.character (h : Mapped s pre map) (h0 : has map 0 = false) (hc : c ≠ 0) :
    (∃ e, setBit c.toInt s = .error e ∧ ¬0 ≤ c.toInt) ∨
      ∃ s' map', setBit c.toInt s = .ok s' ∧ 0 ≤ c.toInt ∧ Frame s s' ∧ s'.sp = s.sp ∧
        Mapped s' pre map' ∧ has map' 0 = false := by
  rcases lt_or_ge c.toInt 0 with hneg | hpos
  · exact Or.inl ⟨_, setBit_negative hneg, Int.not_le.mpr hneg⟩
  · obtain ⟨buf, hbit, hmap⟩ := h.bit hpos (toInt_lt c)
    exact Or.inr ⟨_, _, hbit, hpos, ⟨rfl, rfl, rfl, rfl, rfl⟩, rfl, hmap,
      has_setMap_zero h.length h0 (toInt_pos hc hpos) (toInt_lt c)⟩

/-- A range begins with a character of 7 bits, or is a fault. -/
theorem Mapped.range (h : Mapped s pre map) (h0 : has map 0 = false) {first : Byte} (hfirst : first ≠ 0)
    (last : Byte) :
    (∃ e, (setBits (last.toInt - first.toInt).toNat first.toInt s >>= fun s =>
        setBit (max first.toInt last.toInt) { s with sp := s.sp + 1 }) = .error e ∧ ¬0 ≤ first.toInt) ∨
      ∃ s' map', (setBits (last.toInt - first.toInt).toNat first.toInt s >>= fun s =>
          setBit (max first.toInt last.toInt) { s with sp := s.sp + 1 }) = .ok s' ∧ 0 ≤ first.toInt ∧
            Frame s s' ∧
        s'.sp = s.sp + 1 ∧ Mapped s' pre map' ∧ has map' 0 = false := by
  have hn : ((last.toInt - first.toInt).toNat : Int) = max first.toInt last.toInt - first.toInt := by omega
  have hlast := toInt_lt last
  have hlt := toInt_lt first
  rcases lt_or_ge first.toInt 0 with hneg | hpos
  · refine Or.inl ⟨.bitmap, ?_, Int.not_le.mpr hneg⟩
    cases hk : (last.toInt - first.toInt).toNat with
    | zero => exact setBit_negative (by omega)
    | succ k => exact bind_of_error (bind_of_error (setBit_negative hneg))
  · obtain ⟨buf₁, hbits, hmap₁⟩ := h.bits hpos (n := (last.toInt - first.toInt).toNat) (by omega)
    have hpos' := toInt_pos hfirst hpos
    have hupto : first.toInt.toNat + (last.toInt - first.toInt).toNat ≤ 128 := by omega
    have h0₁ := has_setMaps_zero h.length h0 (show 0 < first.toInt.toNat by omega) hupto
    have hmap₁' : Mapped { s with
        sp := s.sp + 1
        expbuf := buf₁ } pre (setMaps map first.toInt.toNat (last.toInt - first.toInt).toNat) :=
      ⟨hmap₁.filled, hmap₁.ep, hmap₁.length⟩
    obtain ⟨buf, hbit, hmap⟩ := hmap₁'.bit (c := max first.toInt last.toInt) (by omega) (by omega)
    exact Or.inr ⟨_, _, bind_of_ok hbits hbit, hpos, ⟨rfl, rfl, rfl, rfl, rfl⟩, rfl, hmap,
      has_setMap_zero hmap₁.length h0₁ (by omega) (by omega)⟩

theorem inList_range {cstart : Nat} {first last : Byte} (hsp : cstart < s.sp)
    (hfirst : char pat (s.sp - 2) = .ok first) (hlast : char pat s.sp = .ok last) (hne : last ≠ chr ']') :
    inList pat cstart (chr '-') s =
      (setBits (last.toInt - first.toInt).toNat first.toInt s >>= fun s' =>
        setBit (max first.toInt last.toInt) { s' with sp := s'.sp + 1 }) := by
  unfold inList
  rw [if_pos ⟨rfl, hsp⟩]
  refine bind_of_ok hlast ?_
  rw [if_pos hne]
  exact bind_of_ok hfirst rfl

theorem fits_chr {prev : Byte} (hend : c ≠ chr ']') (hdash : c ≠ chr '-') :
    Fits (some prev) pl (c :: rest) ↔ 0 ≤ c.toInt ∧ Fits (some c) pl rest := by
  rw [Fits.eq_def]
  exact iff_of_eq ((if_neg hend).trans (if_neg hdash))

theorem fits_cut (prev : Byte) : ¬Fits (some prev) pl [chr '-'] := by
  rw [Fits, if_neg (by decide), if_pos rfl]
  exact not_false

theorem fits_dash_end (prev : Byte) :
    Fits (some prev) pl (chr '-' :: chr ']' :: rest) ↔ Fits none (pl.atom 17) rest := by
  rw [Fits, if_neg (by decide), if_pos rfl]
  exact iff_of_eq (if_pos rfl)

theorem fits_range {prev last : Byte} (hlast : last ≠ chr ']') :
    Fits (some prev) pl (chr '-' :: last :: rest) ↔ 0 ≤ prev.toInt ∧ Fits (some last) pl rest := by
  rw [Fits, if_neg (by decide), if_pos rfl]
  exact iff_of_eq (if_neg hlast)

theorem inList_chr {cstart : Nat} (hc : c ≠ chr '-') : inList pat cstart c s = setBit c.toInt s :=
  if_neg fun h => hc h.1

theorem listRest_spec (hnul : 0 ∉ pat) {cstart : Nat} {rest : List Byte} {n : Nat} (hn : rest.length < n)
    {s : Comp} {map : List Byte} {prev : Byte} (hsp : 1 ≤ s.sp) (hstart : cstart ≤ s.sp)
    (hprev : Rest pat (s.sp - 1) (prev :: rest)) (hmap : Mapped s pre map) (h0 : has map 0 = false) :
    ListEnds pat pre s pl rest.length (Fits (some prev) pl rest) (listRest pat cstart n s) := by
  obtain ⟨len, hlen⟩ : ∃ len, rest.length = len := ⟨_, rfl⟩
  induction len using Nat.strong_induction_on generalizing rest n s map prev with
  | _ len ih =>
    obtain ⟨n, rfl⟩ : ∃ m, n = m + 1 := ⟨n - 1, by omega⟩
    have hrest : Rest pat s.sp rest := by
      have := hprev.tail
      rwa [Nat.sub_add_cancel hsp] at this
    cases rest with
    | nil =>
      refine Or.inr (Or.inl ⟨bind_of_ok hrest.char_end ?_, trivial⟩)
      rw [if_neg (by decide)]
      exact if_pos rfl
    | cons c rest =>
      have hc : c ≠ 0 := fun h => hnul (h ▸ hrest.mem)
      obtain ⟨s₁, hs₁⟩ : ∃ s₁ : Comp, { s with sp := s.sp + 1 } = s₁ := ⟨_, rfl⟩
      have hsp₁ : s₁.sp = s.sp + 1 := by rw [← hs₁]
      have hframe₁ : Frame s s₁ := by
        rw [← hs₁]
        exact ⟨rfl, rfl, rfl, rfl, rfl⟩
      have hmap₁ : Mapped s₁ pre map := by
        rw [← hs₁]
        exact ⟨hmap.filled, hmap.ep, hmap.length⟩
      have hread : listRest pat cstart (n + 1) s =
          if c = chr ']' then .ok (some s₁) else listLoop pat cstart (n + 1) c s₁ :=
        bind_of_ok hrest.char (by rw [← hs₁]; rfl)
      rw [List.length_cons] at hlen hn
      rw [hread]
      by_cases hend : c = chr ']'
      · -- the end of the list
        rw [if_pos hend]
        subst hend
        exact Or.inr (Or.inr ⟨s₁, map, rest, rfl, hframe₁, hsp₁ ▸ hrest.tail, Nat.le_succ _, hmap₁, h0,
          fits_end prev⟩)
      rw [if_neg hend, listLoop_succ _ _ hc]
      have hprev₁ : Rest pat (s₁.sp - 1) (c :: rest) := by rwa [hsp₁, Nat.add_sub_cancel]
      by_cases hdash : c = chr '-'
      · subst hdash
        have hprevc : char pat (s₁.sp - 2) = .ok prev := by
          rw [hsp₁, show s.sp + 1 - 2 = s.sp - 1 by omega]
          exact hprev.char
        have hpos : prev ≠ 0 := fun h => hnul (h ▸ hprev.mem)
        have hlt : cstart < s₁.sp := by omega
        have hrest₁ : Rest pat s₁.sp rest := hsp₁ ▸ hrest.tail
        cases rest with
        | nil =>
          -- the range has no end: the loop goes on behind the pattern
          refine Or.inl ?_
          rw [inList_range hlt hprevc hrest₁.char_end (by decide)]
          rcases hmap₁.range h0 hpos 0 with ⟨e, he, -⟩ | ⟨s₂, map₂, h₂, -, -, hsp₂, -, -⟩
          · exact ⟨e, bind_of_error he, fits_cut prev⟩
          · have hend := hrest₁.end
            exact ⟨.pattern, bind_of_ok h₂ (bind_of_error (char_behind (by omega))), fits_cut prev⟩
        | cons last rest =>
          rw [List.length_cons] at hlen hn
          by_cases hlast : last = chr ']'
          · subst hlast
            -- `-` in front of the end of the list
            have hchr : inList pat cstart (chr '-') s₁ = setBit (chr '-').toInt s₁ := by
              unfold inList
              rw [if_pos ⟨rfl, hlt⟩]
              exact bind_of_ok hrest₁.char (if_neg (not_not.mpr rfl))
            rcases hmap₁.character h0 hc with ⟨e, -, hneg⟩ | ⟨s₂, map₂, h₂, -, hframe₂, hsp₂, hmap₂, h0₂⟩
            · exact absurd (by decide) hneg
            · have hread₂ : listRest pat cstart n s₂ = .ok (some { s₂ with sp := s₂.sp + 1 }) :=
                bind_of_ok (hsp₂ ▸ hrest₁.char) (if_pos rfl)
              rw [hchr]
              refine Or.inr (Or.inr ⟨_, map₂, rest, bind_of_ok h₂ hread₂, ?_, ?_, ?_,
                ⟨hmap₂.filled, hmap₂.ep, hmap₂.length⟩, h0₂, fits_dash_end prev⟩)
              · exact hframe₁.trans ⟨hframe₂.lastep, hframe₂.bracket, hframe₂.bracketp, hframe₂.numbra,
                  hframe₂.closed⟩
              · exact hsp₂ ▸ hrest₁.tail
              · simp only [List.length_cons]
                omega
          · rw [inList_range hlt hprevc hrest₁.char hlast]
            rcases hmap₁.range h0 hpos last with
              ⟨e, he, hneg⟩ | ⟨s₂, map₂, h₂, hpos', hframe₂, hsp₂, hmap₂, h0₂⟩
            · exact Or.inl ⟨e, bind_of_error he, fun h => hneg ((fits_range hlast).mp h).1⟩
            · have hprev₂ : Rest pat (s₂.sp - 1) (last :: rest) := by rwa [hsp₂, Nat.add_sub_cancel]
              have hnext := ih rest.length (by omega) (show rest.length < n by omega) (by omega) (by omega)
                hprev₂ hmap₂ h0₂ rfl
              refine (bind_of_ok h₂ rfl : _ = listRest pat cstart n s₂) ▸
                hnext.mono (hframe₁.trans hframe₂) (by simp only [List.length_cons]; omega) ?_
              exact (fits_range hlast).trans (and_iff_right hpos')
      · rw [inList_chr hdash]
        rcases hmap₁.character h0 hc with ⟨e, he, hneg⟩ | ⟨s₂, map₂, h₂, hpos, hframe₂, hsp₂, hmap₂, h0₂⟩
        · exact Or.inl ⟨e, bind_of_error he, fun h => hneg ((fits_chr hend hdash).mp h).1⟩
        · have hprev₂ : Rest pat (s₂.sp - 1) (c :: rest) := by rwa [hsp₂]
          have hnext := ih rest.length (by omega) (show rest.length < n by omega) (by omega) (by omega) hprev₂
            hmap₂ h0₂ rfl
          refine (bind_of_ok h₂ rfl : _ = listRest pat cstart n s₂) ▸
            hnext.mono (hframe₁.trans hframe₂) (by simp only [List.length_cons]; omega) ?_
          exact (fits_chr hend hdash).trans (and_iff_right hpos)

/-! ## The bit map of a list -/

theorem Filled.negate {buf : Bytes ESIZE} {pre map : List Byte} (h : Filled buf (pre ++ map)) {n : Nat}
    (hn : n ≤ map.length) :
    Filled ((List.range n).foldl (fun b i => b.put (pre.length + i) (~~~b.get (pre.length + i))) buf)
      (pre ++ ((map.take n).map (~~~·) ++ map.drop n)) := by
  induction n with
  | zero => exact h
  | succ n ih =>
    have hlt : n < map.length := hn
    obtain ⟨b, hb⟩ : ∃ b, (List.range n).foldl
      (fun b i => b.put (pre.length + i) (~~~b.get (pre.length + i))) buf = b := ⟨_, rfl⟩
    have hfilled := ih hlt.le
    rw [hb, List.drop_eq_getElem_cons hlt] at hfilled
    have hlen : ((map.take n).map (~~~·)).length = n := by rw [List.length_map, List.length_take_of_le hlt.le]
    have hat : pre.length + n < (pre ++ ((map.take n).map (~~~·) ++ map[n] :: map.drop (n + 1))).length := by
      rw [List.length_append, List.length_append, hlen, List.length_cons]
      omega
    have hget : b.get (pre.length + n) = map[n] := by
      rw [hfilled.get _ (lt_of_lt_of_le hat hfilled.room), List.getD_append_right _ _ _ _
        (Nat.le_add_right _ _),
        Nat.add_sub_cancel_left, List.getD_append_right _ _ _ _ hlen.le, hlen, Nat.sub_self]
      rfl
    have hset := hfilled.set hat (~~~map[n])
    rw [List.set_append_right _ _ (Nat.le_add_right _ _), Nat.add_sub_cancel_left,
      List.set_append_right _ _ hlen.le, hlen, Nat.sub_self, List.set_cons_zero] at hset
    rw [List.range_succ, List.foldl_append, List.foldl_cons, List.foldl_nil, hb, hget, List.take_add_one,
      List.getElem?_eq_getElem hlt, Option.toList_some, List.map_append, List.append_assoc]
    exact hset

/-- The bit map of a negated list. -/
def negMap (map : List Byte) : List Byte :=
  (map.map (~~~·)).set 0 ((map.map (~~~·)).getD 0 0 &&& 0o376)

theorem Mapped.negate (h : Mapped s pre map) :
    ∃ buf, negate s = { s with expbuf := buf } ∧ Mapped { s with expbuf := buf } pre (negMap map) := by
  have hlen := h.length
  have hflip := h.filled.negate hlen.ge
  rw [List.take_of_length_le hlen.le, List.drop_of_length_le hlen.le, List.append_nil, ← h.ep] at hflip
  have hat : s.ep < (pre ++ map.map (~~~·)).length := by
    rw [List.length_append, List.length_map, h.ep]
    omega
  have hset := hflip.set hat ((map.map (~~~·)).getD 0 0 &&& 0o376)
  rw [h.ep, List.set_append_right _ _ (le_refl _), Nat.sub_self] at hset
  have hget := hflip.get _ (lt_of_lt_of_le hat hflip.room)
  rw [h.ep, List.getD_append_right _ _ _ _ (le_refl _), Nat.sub_self] at hget
  refine ⟨_, rfl, ?_, h.ep, ?_⟩
  · dsimp only
    rw [h.ep, hget]
    exact hset
  · rw [negMap, List.length_set, List.length_map, hlen]

theorem has_negMap_zero (hmap : map.length = 16) : has (negMap map) 0 = false := by
  have hbit : ∀ b : Byte, (b &&& 0o376).getLsbD 0 = false := by decide
  unfold has negMap
  rw [List.getD_eq_getElem?_getD, List.getElem?_set_self (by rw [List.length_map, hmap]; decide)]
  exact hbit _

/-- The loop over a list from its first character on. -/
theorem listLoop_spec (hnul : 0 ∉ pat) {rest : List Byte} {n : Nat} (hn : rest.length < n) {s : Comp}
    {map : List Byte} {first : Byte} (hsp : 1 ≤ s.sp) (hfirst : Rest pat (s.sp - 1) (first :: rest))
    (hmap : Mapped s pre map) (h0 : has map 0 = false) :
    ListEnds pat pre s pl rest.length (0 ≤ first.toInt ∧ Fits (some first) pl rest)
      (listLoop pat s.sp (n + 1) first s) := by
  have hne : first ≠ 0 := fun h => hnul (h ▸ hfirst.mem)
  have hchr : inList pat s.sp first s = setBit first.toInt s := if_neg fun h => lt_irrefl _ h.2
  rw [listLoop_succ _ _ hne, hchr]
  rcases hmap.character h0 hne with ⟨e, he, hneg⟩ | ⟨s₁, map₁, h₁, hpos, hframe₁, hsp₁, hmap₁, h0₁⟩
  · exact Or.inl ⟨e, bind_of_error he, fun h => hneg h.1⟩
  · have hnext : ListEnds pat pre s₁ pl rest.length (Fits (some first) pl rest) (listRest pat s.sp n s₁) :=
      listRest_spec hnul hn (by omega) hsp₁.ge (by rwa [hsp₁]) hmap₁ h0₁
    exact (bind_of_ok h₁ rfl : _ = listRest pat s.sp n s₁) ▸
      hnext.mono hframe₁ (le_refl _) (and_iff_right hpos)

/-- How a turn ends that reads a list. -/
def ListTurn (pat : List Byte) (pl : Place) (items : List Item) (n : Nat) (fits : Prop)
    (r : Except Fault Ended) : Prop :=
  (∃ e, r = .error e ∧ ¬fits) ∨ (r = .ok (.done none) ∧ fits) ∨
    ∃ s' map rest, r = .ok (.more s') ∧ Built pat s' (pl.atom 17) (items ++ [.one (.ccl map) false]) rest ∧
      rest.length ≤ n ∧ (fits ↔ Fits none (pl.atom 17) rest)

theorem Built.list_done (h : Built pat s pl items rest) {j : Nat} {s₁ : Comp} (hframe : Frame (s.piece j) s₁)
    {n : Nat} {fits : Prop} {r : Except Fault (Option Comp)}
    (hr : ListEnds pat (code items ++ [CCL]) s₁ pl n fits r) (neg : Bool) :
    ListTurn pat pl items n fits (r >>= listDone neg) := by
  rcases hr with ⟨e, rfl, hnot⟩ | ⟨rfl, hyes⟩ | ⟨s', map, rest', rfl, hf, hrest, hlen, hmap, h0, hiff⟩
  · exact Or.inl ⟨e, rfl, hnot⟩
  · exact Or.inr (Or.inl ⟨rfl, hyes⟩)
  · -- the bit map is complete, as it is or negated
    obtain ⟨s'', map', hs'', hsp'', hf'', hmap'', h0''⟩ : ∃ s'' map', (if neg then negate s' else s') = s'' ∧
        s''.sp = s'.sp ∧ Frame s' s'' ∧ Mapped s'' (code items ++ [CCL]) map' ∧ has map' 0 = false := by
      cases neg with
      | false => exact ⟨s', map, rfl, rfl, ⟨rfl, rfl, rfl, rfl, rfl⟩, hmap, h0⟩
      | true =>
        obtain ⟨buf, hneg, hmap'⟩ := hmap.negate
        exact ⟨_, _, hneg, rfl, ⟨rfl, rfl, rfl, rfl, rfl⟩, hmap', has_negMap_zero hmap.length⟩
    have hframe' := hframe.trans (hf.trans hf'')
    refine Or.inr (Or.inr ⟨{ s'' with ep := s''.ep + 16 }, map', rest', ?_, ?_, hlen, hiff⟩)
    · change continue_ { (if neg then negate s' else s') with ep := (if neg then negate s' else s').ep + 16 } =
        _
      rw [hs'']
      rfl
    · have hcode : code items ++ (Item.one (.ccl map') false).code = code items ++ [CCL] ++ map' := by
        rw [code_plain, List.append_assoc]
        rfl
      have hlen' : (Item.one (.ccl map') false).code.length = 17 := by
        rw [code_plain]
        exact congrArg (· + 1) hmap''.length
      rw [← hlen']
      refine h.atom (a := .ccl map') ⟨hmap''.length, h0''⟩ (fun k hk => by cases hk) (hsp'' ▸ hrest)
        (hcode ▸ ⟨hmap''.filled, ?_⟩) hframe'.lastep hframe'.bracket hframe'.bracketp hframe'.numbra
        hframe'.closed
      rw [List.length_append, ← hmap''.ep, hmap''.length]

theorem fits_list (hoff : pl.offset + 17 < ESIZE) (h : c ≠ chr '^') :
    Fits none pl (chr '[' :: c :: rest) ↔ 0 ≤ c.toInt ∧ Fits (some c) pl rest := by
  rw [Fits.eq_def]
  exact iff_of_eq <| (if_neg (by omega)).trans <| (if_neg (by decide)).trans <|
    (if_neg fun h => absurd h.1 (by decide)).trans <| (if_neg (by decide)).trans <|
    (if_neg fun h => absurd h.1 (by decide)).trans <| (if_pos rfl).trans <| (if_neg (by omega)).trans <|
    if_neg h

theorem fits_negated (hoff : pl.offset + 17 < ESIZE) :
    Fits none pl (chr '[' :: chr '^' :: c :: rest) ↔ 0 ≤ c.toInt ∧ Fits (some c) pl rest := by
  rw [Fits.eq_def]
  exact iff_of_eq <| (if_neg (by omega)).trans <| (if_neg (by decide)).trans <|
    (if_neg fun h => absurd h.1 (by decide)).trans <| (if_neg (by decide)).trans <|
    (if_neg fun h => absurd h.1 (by decide)).trans <| (if_pos rfl).trans <| (if_neg (by omega)).trans <|
    if_pos rfl

theorem fits_list_open (hoff : pl.offset + 17 < ESIZE) (hrest : rest = [] ∨ rest = [chr '^']) :
    Fits none pl (chr '[' :: rest) := by
  have hopen : ∀ P : Prop, (P = True) → P := fun P h => h ▸ trivial
  rw [Fits.eq_def]
  rcases hrest with rfl | rfl
  · exact hopen _ <| (if_neg (by omega)).trans <| (if_neg (by decide)).trans <|
      (if_neg fun h => absurd h.1 (by decide)).trans <| (if_neg (by decide)).trans <|
      (if_neg fun h => absurd h.1 (by decide)).trans <| (if_pos rfl).trans <| if_neg (by omega)
  · exact hopen _ <| (if_neg (by omega)).trans <| (if_neg (by decide)).trans <|
      (if_neg fun h => absurd h.1 (by decide)).trans <| (if_neg (by decide)).trans <|
      (if_neg fun h => absurd h.1 (by decide)).trans <| (if_pos rfl).trans <| (if_neg (by omega)).trans <|
      if_pos rfl

theorem Rest.length_lt (h : Rest pat i (c :: rest)) : rest.length < pat.length := by
  have := congrArg List.length h.drop
  rw [List.length_drop, List.length_cons] at this
  omega

/-- A list. -/
theorem Built.list (h : Built pat s pl items (chr '[' :: rest)) (hnul : 0 ∉ pat)
    (hroom : pl.offset + 17 < ESIZE) :
    ListTurn pat pl items rest.length (Fits none pl (chr '[' :: rest)) (turn pat s) := by
  obtain ⟨hs, hlen⟩ := h.room (show pl.offset < ESIZE by omega)
  obtain ⟨s₁, hs₁⟩ : ∃ s₁, (s.piece (s.sp + 1)).push CCL = s₁ := ⟨_, rfl⟩
  have hsp₁ : s₁.sp = s.sp + 1 := by rw [← hs₁]; rfl
  have hframe₁ : ∀ i, Frame (s.piece (s.sp + 1)) { s₁ with sp := i } := fun i => by
    rw [← hs₁]
    exact ⟨rfl, rfl, rfl, rfl, rfl⟩
  have hmap₁ : ∀ i, Mapped { s₁ with sp := i } (code items ++ [CCL]) (List.replicate 16 0) := fun i => by
    have hholds : (s.piece (s.sp + 1)).Holds (code items) := ⟨h.holds.filled, h.holds.ep⟩
    have hpush := hholds.push hlen CCL
    rw [hs₁] at hpush
    refine ⟨hpush.filled.pad ?_, hpush.ep, List.length_replicate⟩
    rw [List.length_append, List.length_singleton, ← h.holds.ep, ← h.offset]
    omega
  have h0 : has (List.replicate 16 0) 0 = false := by decide
  have hturn : turn pat s = (char pat s₁.sp >>= fun c => negated pat c { s₁ with sp := s₁.sp + 1 } >>= fun r =>
      listLoop pat r.2.2.sp (pat.length + 1) r.2.1 r.2.2 >>= listDone r.1) := by
    refine (turn_room hs h.rest.char).trans ?_
    rw [next_piece (by decide)]
    unfold dispatch
    rw [if_neg (by decide), if_neg (by decide), if_neg (by decide), if_neg (by decide), if_pos rfl]
    refine (if_neg ?_).trans (bind_of_ok (emit_room (s := s.piece (s.sp + 1)) hs CCL) ?_)
    · change ¬s.ep + 17 ≥ ESIZE
      rw [← h.offset]
      omega
    · rw [hs₁]
  have hrest : Rest pat s₁.sp rest := hsp₁ ▸ h.rest.tail
  rw [hturn]
  cases rest with
  | nil =>
    refine Or.inr (Or.inl ⟨bind_of_ok hrest.char_end (bind_of_ok (if_neg (by decide)) ?_),
      fits_list_open hroom (Or.inl rfl)⟩)
    exact bind_of_ok (if_pos rfl) rfl
  | cons c rest =>
    by_cases hneg : c = chr '^'
    · subst hneg
      cases rest with
      | nil =>
        refine Or.inr (Or.inl ⟨bind_of_ok hrest.char (bind_of_ok ((if_pos rfl).trans
          (bind_of_ok hrest.tail.char_end rfl)) ?_), fits_list_open hroom (Or.inr rfl)⟩)
        exact bind_of_ok (if_pos rfl) rfl
      | cons c rest =>
        have hread : (char pat s₁.sp >>= fun c => negated pat c { s₁ with sp := s₁.sp + 1 } >>= fun r =>
            listLoop pat r.2.2.sp (pat.length + 1) r.2.1 r.2.2 >>= listDone r.1) =
            (listLoop pat (s₁.sp + 2) (pat.length + 1) c { s₁ with sp := s₁.sp + 2 } >>= listDone true) :=
          bind_of_ok hrest.char (bind_of_ok ((if_pos rfl).trans (bind_of_ok hrest.tail.char rfl)) rfl)
        have hloop : ListEnds pat (code items ++ [CCL]) { s₁ with sp := s₁.sp + 2 } pl rest.length
            (0 ≤ c.toInt ∧ Fits (some c) pl rest)
            (listLoop pat (s₁.sp + 2) (pat.length + 1) c { s₁ with sp := s₁.sp + 2 }) :=
          listLoop_spec hnul hrest.tail.length_lt (Nat.succ_pos _) hrest.tail (hmap₁ _) h0
        rw [hread]
        refine h.list_done (hframe₁ _) (hloop.mono ⟨rfl, rfl, rfl, rfl, rfl⟩ ?_ (fits_negated hroom)) true
        simp only [List.length_cons]
        omega
    · have hread : (char pat s₁.sp >>= fun c => negated pat c { s₁ with sp := s₁.sp + 1 } >>= fun r =>
          listLoop pat r.2.2.sp (pat.length + 1) r.2.1 r.2.2 >>= listDone r.1) =
          (listLoop pat (s₁.sp + 1) (pat.length + 1) c { s₁ with sp := s₁.sp + 1 } >>= listDone false) :=
        bind_of_ok hrest.char (bind_of_ok (if_neg hneg) rfl)
      have hloop : ListEnds pat (code items ++ [CCL]) { s₁ with sp := s₁.sp + 1 } pl rest.length
          (0 ≤ c.toInt ∧ Fits (some c) pl rest)
          (listLoop pat (s₁.sp + 1) (pat.length + 1) c { s₁ with sp := s₁.sp + 1 }) :=
        listLoop_spec hnul hrest.length_lt (Nat.succ_pos _) hrest (hmap₁ _) h0
      rw [hread]
      exact h.list_done (hframe₁ _) (hloop.mono ⟨rfl, rfl, rfl, rfl, rfl⟩ (Nat.le_succ _)
        (fits_list hroom hneg)) false

/-! ## All pieces -/

theorem fits_full (hoff : ESIZE ≤ pl.offset) (rest : List Byte) : Fits none pl rest := by
  cases rest with
  | nil => trivial
  | cons c rest =>
    rw [Fits.eq_def]
    exact of_eq_true (if_pos hoff)

section

variable (hoff : pl.offset < ESIZE)

include hoff

theorem fits_dot : Fits none pl (chr '.' :: rest) ↔ Fits none (pl.atom 1) rest := by
  rw [Fits.eq_def]
  exact iff_of_eq <| (if_neg (Nat.not_le.mpr hoff)).trans <| if_pos rfl

theorem fits_star (hcan : pl.can = true) : Fits none pl (chr '*' :: rest) ↔ Fits none pl rest := by
  rw [Fits.eq_def]
  exact iff_of_eq <| (if_neg (Nat.not_le.mpr hoff)).trans <| (if_neg (by decide)).trans <| if_pos ⟨rfl, hcan⟩

theorem fits_star_alone (hcan : pl.can = false) : Fits none pl (chr '*' :: rest) ↔
    pl.offset ≠ 255 ∧ Fits none { pl with offset := pl.offset + 2 } rest := by
  have hnot : ¬(chr '*' = chr '*' ∧ pl.can = true) := fun h => Bool.false_ne_true (hcan.symm.trans h.2)
  rw [Fits.eq_def]
  exact iff_of_eq <| (if_neg (Nat.not_le.mpr hoff)).trans <| (if_neg (by decide)).trans <|
    (if_neg hnot).trans <| if_pos rfl

theorem fits_dollar_end : Fits none pl [chr '$'] := by
  rw [Fits.eq_def]
  exact of_eq_true <| (if_neg (Nat.not_le.mpr hoff)).trans <| (if_neg (by decide)).trans <|
    (if_neg fun h => absurd h.1 (by decide)).trans <| (if_neg (by decide)).trans <| if_pos ⟨rfl, rfl⟩

theorem fits_list_full (hlist : ESIZE ≤ pl.offset + 17) : Fits none pl (chr '[' :: rest) := by
  rw [Fits.eq_def]
  exact of_eq_true <| (if_neg (Nat.not_le.mpr hoff)).trans <| (if_neg (by decide)).trans <|
    (if_neg fun h => absurd h.1 (by decide)).trans <| (if_neg (by decide)).trans <|
    (if_neg fun h => absurd h.1 (by decide)).trans <| (if_pos rfl).trans <| if_pos hlist

/-- A character of its own. -/
theorem fits_lit (hdot : c ≠ chr '.') (hstar : c ≠ chr '*') (hdollar : ¬(c = chr '$' ∧ rest = []))
    (hlist : c ≠ chr '[') (hescape : c ≠ chr '\\') :
    Fits none pl (c :: rest) ↔ pl.offset ≠ 255 ∧ Fits none (pl.atom 2) rest := by
  rw [Fits.eq_def]
  exact iff_of_eq <| (if_neg (Nat.not_le.mpr hoff)).trans <| (if_neg hdot).trans <|
    (if_neg fun h => absurd h.1 hstar).trans <| (if_neg hstar).trans <| (if_neg hdollar).trans <|
    (if_neg hlist).trans <| if_neg hescape

theorem fits_escape_end : Fits none pl [chr '\\'] ↔ pl.offset = 254 := by
  rw [Fits.eq_def]
  exact iff_of_eq <| (if_neg (Nat.not_le.mpr hoff)).trans <| (if_neg (by decide)).trans <|
    (if_neg fun h => absurd h.1 (by decide)).trans <| (if_neg (by decide)).trans <|
    (if_neg fun h => absurd h.1 (by decide)).trans <| (if_neg (by decide)).trans <| if_pos rfl

/-- Behind a backslash. -/
theorem fits_escape : Fits none pl (chr '\\' :: c :: rest) ↔
    if c = chr '(' then
      if pl.numbra ≥ NBRA then True
      else pl.offset ≠ 255 ∧ Fits none { pl with
        offset := pl.offset + 2
        can := false
        depth := pl.depth + 1
        numbra := pl.numbra + 1 } rest
    else if c = chr ')' then
      if pl.depth = 0 then True
      else pl.offset ≠ 255 ∧ Fits none { pl with
        offset := pl.offset + 2
        can := false
        depth := pl.depth - 1
        closed := pl.closed + 1 } rest
    else if chr '1' ≤ c ∧ c ≤ chr '9' ∧ (c - chr '1').toNat ≥ pl.closed then True
    else pl.offset ≠ 255 ∧ Fits none (pl.atom 2) rest := by
  rw [Fits.eq_def]
  exact iff_of_eq <| (if_neg (Nat.not_le.mpr hoff)).trans <| (if_neg (by decide)).trans <|
    (if_neg fun h => absurd h.1 (by decide)).trans <| (if_neg (by decide)).trans <|
    (if_neg fun h => absurd h.1 (by decide)).trans <| (if_neg (by decide)).trans <| if_pos rfl

end

/-! ## The loop -/

theorem Twice.settles {P : Comp → Prop} {offset n : Nat} {fits : Prop} (h : Twice pat s offset P)
    (hP : ∀ s', P s' → Settles fits (compileLoop pat n s')) :
    Settles (offset ≠ 255 ∧ fits) (compileLoop pat (n + 1) s) := by
  by_cases h255 : offset = 255
  · rw [loop_error (h.1 h255)]
    exact .of_error (fun hne => hne.1 h255) _
  · obtain ⟨s', hturn, hs'⟩ := h.2 h255
    rw [loop_more hturn, and_iff_right h255]
    exact hP s' hs'

/-- The rest of the pattern is compiled safely exactly when it fits. -/
theorem loop_settles (hnul : 0 ∉ pat) {n : Nat} {rest : List Byte} (hn : rest.length < n)
    (h : Built pat s pl items rest) : Settles (Fits none pl rest) (compileLoop pat n s) := by
  obtain ⟨len, hlen⟩ : ∃ len, rest.length = len := ⟨_, rfl⟩
  induction len using Nat.strong_induction_on generalizing rest n s pl items with
  | _ len ih =>
    obtain ⟨n, rfl⟩ : ∃ m, n = m + 1 := ⟨n - 1, by omega⟩
    rcases Nat.lt_or_ge pl.offset ESIZE with hroom | hfull
    · cases rest with
      | nil => exact .of_safe trivial (safe_end h.rest h.holds h.program n)
      | cons c rest =>
        rw [List.length_cons] at hn hlen
        have hc : c ≠ 0 := fun h0 => hnul (h0 ▸ h.rest.mem)
        obtain ⟨hs, -⟩ := h.room hroom
        by_cases hdot : c = chr '.'
        · subst hdot
          obtain ⟨s', hturn, hs'⟩ := h.dot hroom
          rw [loop_more hturn, fits_dot hroom]
          exact ih rest.length (by omega) (by omega) hs' rfl
        by_cases hstar : c = chr '*'
        · subst hstar
          cases hcan : pl.can with
          | true =>
            obtain ⟨s', _, _, _, -, hturn, hs'⟩ := h.star hroom hcan
            rw [loop_more hturn, fits_star hroom hcan]
            exact ih rest.length (by omega) (by omega) hs' rfl
          | false =>
            have htwice := h.star_alone hroom hcan
            rw [fits_star_alone hroom hcan]
            exact Twice.settles htwice fun s' hs' => ih rest.length (by omega) (by omega) hs' rfl
        by_cases hlist : c = chr '['
        · subst hlist
          rcases Nat.lt_or_ge (pl.offset + 17) ESIZE with hfew | hmany
          · rcases h.list hnul hfew with ⟨e, he, hnot⟩ | ⟨hnone, hyes⟩ | ⟨s', map, rest', hmore, hs', hle, hiff⟩
            · rw [loop_error he]
              exact .of_error hnot e
            · rw [loop_done hnone]
              exact .of_safe hyes safe_none
            · rw [loop_more hmore, hiff]
              exact ih rest'.length (by omega) (by omega) hs' rfl
          · rw [loop_done (h.list_full hroom hmany)]
            exact .of_safe (fits_list_full hroom hmany) safe_none
        by_cases hescape : c = chr '\\'
        · subst hescape
          cases rest with
          | nil =>
            obtain ⟨n, rfl⟩ : ∃ m, n = m + 1 := ⟨n - 1, by omega⟩
            rw [fits_escape_end hroom]
            exact h.escape_end hroom n
          | cons c rest =>
            rw [List.length_cons] at hn hlen
            have hc : c ≠ 0 := fun h0 => hnul (h0 ▸ h.rest.tail.mem)
            obtain ⟨stack, hnest⟩ := h.nest
            rw [fits_escape hroom]
            by_cases hbra : c = chr '('
            · subst hbra
              rw [if_pos rfl]
              rcases Nat.lt_or_ge pl.numbra NBRA with hfew | hmany
              · rw [if_neg (Nat.not_le.mpr hfew)]
                exact (h.bra hroom hfew).settles fun s' hs' => ih rest.length (by omega) (by omega) hs' rfl
              · rw [if_pos hmany, loop_done (h.bra_many hroom hmany)]
                exact .of_safe trivial safe_none
            rw [if_neg hbra]
            by_cases hket : c = chr ')'
            · subst hket
              rw [if_pos rfl]
              rcases Nat.eq_zero_or_pos pl.depth with hzero | hopen
              · rw [if_pos hzero, loop_done (h.ket_none hroom hzero)]
                exact .of_safe trivial safe_none
              · rw [if_neg hopen.ne']
                exact (h.ket hroom hopen).settles fun s' hs' =>
                  hs'.elim fun k hk => ih rest.length (by omega) (by omega) hk rfl
            rw [if_neg hket]
            by_cases hdigit : chr '1' ≤ c ∧ c ≤ chr '9'
            · rcases Nat.lt_or_ge (c - chr '1').toNat pl.closed with hclosed | hopen
              · rw [if_neg fun h => Nat.not_le.mpr hclosed h.2.2]
                exact (h.back hroom hdigit hclosed).settles fun s' hs' =>
                  ih rest.length (by omega) (by omega) hs' rfl
              · rw [if_pos ⟨hdigit.1, hdigit.2, hopen⟩, loop_done (h.back_none hroom hdigit hopen)]
                exact .of_safe trivial safe_none
            · rw [if_neg fun h => hdigit ⟨h.1, h.2.1⟩]
              have htwice := Twice.of_defchar h hroom h.rest.tail.tail hc
                (h.escape_chr hroom hbra hket hdigit)
              exact htwice.settles fun s' hs' => ih rest.length (by omega) (by omega) hs' rfl
        by_cases hdollar : c = chr '$' ∧ rest = []
        · obtain ⟨rfl, rfl⟩ := hdollar
          obtain ⟨n, rfl⟩ : ∃ m, n = m + 1 := ⟨n - 1, by omega⟩
          exact .of_safe (fits_dollar_end hroom) (h.dollar_end hroom n)
        have hturn : turn pat s = defchar c (s.piece (s.sp + 1)) := by
          by_cases hd : c = chr '$'
          · subst hd
            exact h.dollar hnul hroom fun hrest => hdollar ⟨rfl, hrest⟩
          · refine (turn_room hs h.rest.char).trans ?_
            rw [next_piece hstar]
            unfold dispatch
            rw [if_neg hc, if_neg hdot, if_neg hstar, if_neg hd, if_neg hlist, if_neg hescape]
        have htwice := Twice.of_defchar h hroom h.rest.tail hc hturn
        rw [fits_lit hroom hdot hstar hdollar hlist hescape]
        exact htwice.settles fun s' hs' => ih rest.length (by omega) (by omega) hs' rfl
    · rw [loop_done (turn_full (h.offset ▸ hfull))]
      exact .of_safe (fits_full hfull rest) safe_none

/-! ## `compile` -/

/-- The pattern behind its `^`. -/
def body (pat : List Byte) : List Byte := if pat.head? = some (chr '^') then pat.drop 1 else pat

theorem built_start (pat : List Byte) (bracket : Bytes NBRA) :
    Built pat (start pat Bytes.zero bracket).2 ⟨0, false, 0, 0, 0⟩ [] (body pat) := by
  refine ⟨?_, ⟨Filled.zero, rfl⟩, rfl, fun it hit => absurd hit List.not_mem_nil,
    ⟨[], rfl, trivial, rfl, rfl, rfl, rfl, rfl, Nat.zero_le _⟩, Or.inl rfl⟩
  unfold start body
  by_cases hcirc : pat.head? = some (chr '^')
  · rw [if_pos hcirc, decide_eq_true hcirc]
    refine ⟨?_, rfl⟩
    cases pat with
    | nil => cases hcirc
    | cons c pat => exact Nat.succ_le_succ (Nat.zero_le _)
  · rw [if_neg hcirc, decide_eq_false hcirc]
    exact ⟨Nat.zero_le _, rfl⟩

theorem body_length (pat : List Byte) : (body pat).length ≤ pat.length := by
  unfold body
  split
  · rw [List.length_drop]
    omega
  · exact le_refl _

/-- What `compile` accepts is a complete program. -/
theorem compile_complete {pat : CString} {bracket : Bytes NBRA} {circf : Bool} {prog : Bytes ESIZE}
    (h : compile pat.val bracket = .ok (some (circf, prog))) : Complete prog := by
  have hlen := body_length pat.val
  have hsettles := loop_settles pat.property (show (body pat.val).length < pat.val.length + 2 by omega)
    (built_start pat.val bracket)
  rcases hsettles with ⟨-, p, hp, hprog⟩ | ⟨-, e, he⟩
  · have hcompile : compile pat.val bracket =
        .ok (p.map fun expbuf => ((start pat.val Bytes.zero bracket).1, expbuf)) := bind_of_ok hp rfl
    rw [hcompile] at h
    cases p with
    | none => cases h
    | some expbuf =>
      cases h
      exact hprog _ rfl
  · rw [show compile pat.val bracket = .error e from bind_of_error he] at h
    cases h

/-- `compile` keeps to its buffers, its bit maps and its pattern, and leaves a complete program or finds an
error, exactly when the pieces of the pattern fit. -/
theorem compile_safe_iff (pat : CString) (bracket : Bytes NBRA) :
    (∃ r, compile pat.val bracket = .ok r ∧ ∀ circf prog, r = some (circf, prog) → Complete prog) ↔
      Fits none ⟨0, false, 0, 0, 0⟩ (body pat.val) := by
  have hlen := body_length pat.val
  have hsettles := loop_settles pat.property (show (body pat.val).length < pat.val.length + 2 by omega)
    (built_start pat.val bracket)
  rcases hsettles with ⟨hfits, p, hp, -⟩ | ⟨hnot, e, he⟩
  · refine iff_of_true ⟨_, bind_of_ok hp rfl, fun circf prog hr => ?_⟩ hfits
    exact compile_complete (show compile pat.val bracket = _ from (bind_of_ok hp rfl).trans (congrArg Except.ok hr))
  · refine iff_of_false ?_ hnot
    rintro ⟨r, hr, -⟩
    rw [show compile pat.val bracket = .error e from bind_of_error he] at hr
    cases hr

def faultOf {α : Type} : Except Fault α → Option Fault
  | .error e => some e
  | .ok _ => none

theorem eq_of_faultOf {α : Type} {r : Except Fault α} {e : Fault} (h : faultOf r = some e) : r = .error e := by
  cases r with
  | error e' => exact congrArg Except.error (Option.some.inj h)
  | ok a => cases h

theorem Built.dots {n : Nat} (h : Built pat s pl items (List.replicate n (chr '.') ++ rest))
    (hroom : pl.offset + n ≤ ESIZE) (m : Nat) : ∃ s' pl' items', compileLoop pat (m + n) s = compileLoop pat m s' ∧
      pl'.offset = pl.offset + n ∧ Built pat s' pl' items' rest := by
  induction n generalizing s pl items with
  | zero => exact ⟨s, pl, items, rfl, rfl, h⟩
  | succ n ih =>
    obtain ⟨s₁, hturn, hs₁⟩ := Built.dot (show Built pat s pl items
      (chr '.' :: (List.replicate n (chr '.') ++ rest)) from h) (by omega)
    obtain ⟨s', pl', items', hrun, hoff, hbuilt⟩ := ih hs₁ (show pl.offset + 1 + n ≤ ESIZE by omega)
    refine ⟨s', pl', items', (loop_more hturn (m + n)).trans hrun, ?_, hbuilt⟩
    have hone : (pl.atom 1).offset = pl.offset + 1 := rfl
    omega

/-- A character of its own behind 255 bytes. -/
theorem Built.full (h : Built pat s pl items [chr 'a']) (hoff : pl.offset = 255) (n : Nat) :
    compileLoop pat (n + 1) s = .error .expbuf := by
  have hroom : pl.offset < ESIZE := hoff ▸ Nat.lt_succ_self 255
  have hturn : turn pat s = Venix.Grep.defchar (chr 'a') (s.piece (s.sp + 1)) := by
    refine (turn_room (h.room hroom).1 h.rest.char).trans ?_
    rw [next_piece (by decide)]
    rfl
  exact loop_error ((Twice.of_defchar h hroom h.rest.tail (by decide) hturn).1 hoff) n

theorem compile_dots : compile (List.replicate 255 (chr '.') ++ [chr 'a']) (fun _ => 0) = .error .expbuf := by
  obtain ⟨pat, hpat⟩ : ∃ pat, pat = List.replicate 255 (chr '.') ++ [chr 'a'] := ⟨_, rfl⟩
  have hbody : body pat = List.replicate 255 (chr '.') ++ [chr 'a'] := by
    rw [hpat]
    exact if_neg (by decide)
  have hbuilt := built_start pat (fun _ => 0)
  rw [hbody] at hbuilt
  obtain ⟨s', pl', items', hrun, hoff, hlast⟩ := hbuilt.dots (by decide) 3
  have hlen : pat.length + 2 = 3 + 255 := by
    rw [hpat, List.length_append, List.length_replicate, List.length_singleton]
  rw [← hpat]
  refine bind_of_error ?_
  rw [hlen]
  exact hrun.trans (hlast.full hoff 2)

/-- A list whose range has no end, a backslash at the end, an 8-bit character in a list, and a character
behind 255 dots. -/
theorem compile_faults :
    compile [chr '[', chr 'a', chr '-'] (fun _ => 0) = .error .pattern ∧
      compile [chr 'a', chr '\\'] (fun _ => 0) = .error .pattern ∧
      compile [chr '[', 0o351, chr ']'] (fun _ => 0) = .error .bitmap ∧
      compile (List.replicate 255 (chr '.') ++ [chr 'a']) (fun _ => 0) = .error .expbuf :=
  ⟨eq_of_faultOf (by decide), eq_of_faultOf (by decide), eq_of_faultOf (by decide),
    compile_dots⟩

end Venix.Grep
