/-
  `advance` comes to an end exactly when it does not come to a starred back reference to an empty string,
  and its answer then is whether the items read the line.

  The arrays of brackets are global: a call finds in them what an earlier one has left. A reference that
  stands behind the closing bracket of its number finds what was captured on the way to it; one that does
  not finds nothing, since no call can come to that closing bracket.
-/
import Venix.Grep.Match

namespace Venix.Grep

open Venix.Lib Function

/-! ## Fuel -/

section

variable {line : List Byte} {prog : Bytes ESIZE}

theorem tries_below {adv adv' : Nat → Bra → Except Stop (Bool × Bra)}
    (h : ∀ lp bra, Below .endless (adv lp bra) (adv' lp bra)) (first : Option Byte) (curlp k : Nat)
    (bra : Bra) :
    Below .endless (tries line adv first curlp k bra) (tries line adv' first curlp k bra) := by
  induction k generalizing bra with
  | zero =>
    refine (Below.refl _).bind fun skip => ?_
    split
    · exact .refl _
    · exact h _ _
  | succ k ih =>
    refine (Below.refl _).bind fun skip => ?_
    split
    · exact ih bra
    · refine (h _ _).bind fun ⟨r, bra⟩ => ?_
      dsimp only
      split
      · exact .refl _
      · exact ih bra

theorem grow_below (bbeg ct n lp : Nat) :
    Below .endless (grow line bbeg ct n lp) (grow line bbeg ct (n + 1) lp) := by
  induction n generalizing lp with
  | zero => exact Or.inl rfl
  | succ n ih =>
    refine (Below.refl _).bind fun r => ?_
    split
    · exact ih (lp + ct)
    · exact .refl _

theorem shrink_below {adv adv' : Nat → Bra → Except Stop (Bool × Bra)}
    (h : ∀ lp bra, Below .endless (adv lp bra) (adv' lp bra)) (curlp ct n lp : Nat) (bra : Bra) :
    Below .endless (shrink adv curlp ct n lp bra) (shrink adv' curlp ct (n + 1) lp bra) := by
  induction n generalizing lp bra with
  | zero => exact Or.inl rfl
  | succ n ih =>
    refine (h _ _).bind fun ⟨r, bra⟩ => ?_
    dsimp only
    split
    · exact .refl _
    · split
      · exact ih _ _
      · exact .refl _

theorem advance_below (n lp ep : Nat) (bra : Bra) :
    Below .endless (advance prog line n lp ep bra) (advance prog line (n + 1) lp ep bra) := by
  induction n generalizing lp ep bra with
  | zero => exact Or.inl rfl
  | succ n ih =>
    refine (Below.refl _).bind fun a => ?_
    cases a with
    | ret r => exact .refl _
    | go lp ep bra => exact ih lp ep bra
    | star lp curlp ep =>
      dsimp only
      split
      · exact ih lp ep bra
      · exact (Below.refl _).bind fun first => tries_below (fun lp bra => ih lp ep bra) _ _ _ _
    | backs bbeg ct ep =>
      exact (grow_below _ _ _ _).bind fun lp' => shrink_below (fun lp bra => ih lp ep bra) _ _ _ _ _

end

/-! ## Brackets -/

/-- What the numbers of brackets say about the items. -/
structure Ordered (items : List Item) (b : Brackets) : Prop where
  le : b.2.1 ≤ NBRA
  sum : b.1.length + b.2.2 = b.2.1
  nodup : b.1.Nodup
  lt : ∀ k ∈ b.1, k < b.2.1
  bra : ∀ k, Item.bra k ∈ items ↔ k < b.2.1
  ket : ∀ k, Item.ket k ∈ items ↔ k < b.2.1 ∧ k ∉ b.1

theorem Ordered.one {items : List Item} {b : Brackets} (h : Ordered items b) {it : Item}
    (hbra : ∀ k, Item.bra k ≠ it) (hket : ∀ k, Item.ket k ≠ it) : Ordered (items ++ [it]) b := by
  refine ⟨h.le, h.sum, h.nodup, h.lt, fun k => ?_, fun k => ?_⟩
  · rw [List.mem_append, List.mem_singleton, or_iff_left (hbra k)]
    exact h.bra k
  · rw [List.mem_append, List.mem_singleton, or_iff_left (hket k)]
    exact h.ket k

theorem Ordered.step {items : List Item} {b b' : Brackets} (h : Ordered items b) {it : Item}
    (hit : it.brackets b = some b') : Ordered (items ++ [it]) b' := by
  obtain ⟨st, n, c⟩ := b
  cases it with
  | one a star =>
    have hb : b' = (st, n, c) := by
      cases a with
      | back k =>
        have hback : (if k < c then some (st, n, c) else none) = some b' := hit
        exact (Option.some.inj (Option.ite_none_right_eq_some.mp hback).2).symm
      | chr c => exact (Option.some.inj hit).symm
      | dot => exact (Option.some.inj hit).symm
      | ccl map => exact (Option.some.inj hit).symm
    rw [hb]
    exact h.one (fun _ => nofun) (fun _ => nofun)
  | dol =>
    cases hit
    exact h.one (fun _ => nofun) (fun _ => nofun)
  | bra k =>
    have hopen : (if k = n ∧ k < NBRA then some (k :: st, n + 1, c) else none) = some b' := hit
    obtain ⟨⟨rfl, hlt⟩, hb⟩ := Option.ite_none_right_eq_some.mp hopen
    cases hb
    have hsum := h.sum
    dsimp only at hlt hsum
    refine ⟨hlt, ?_, List.nodup_cons.mpr ⟨fun hmem => Nat.lt_irrefl _ (h.lt _ hmem), h.nodup⟩, fun k hk => ?_,
      fun k => ?_, fun k => ?_⟩
    · dsimp only
      rw [List.length_cons]
      omega
    · rcases List.mem_cons.mp hk with rfl | hk
      · exact Nat.lt_succ_self _
      · exact Nat.lt_succ_of_lt (h.lt k hk)
    · rw [List.mem_append, h.bra, List.mem_singleton, Item.bra.injEq]
      exact Nat.lt_succ_iff_lt_or_eq.symm
    · rw [List.mem_append, h.ket, List.mem_singleton, or_iff_left (nofun), List.mem_cons, not_or]
      dsimp only
      have := h.lt k
      constructor
      · rintro ⟨hkn, hkst⟩
        exact ⟨by omega, by omega, hkst⟩
      · rintro ⟨hkn, hne, hkst⟩
        exact ⟨by omega, hkst⟩
  | ket k =>
    cases st with
    | nil => cases hit
    | cons j st =>
      have hclose : (if k = j then some (st, n, c + 1) else none) = some b' := hit
      obtain ⟨rfl, hb⟩ := Option.ite_none_right_eq_some.mp hclose
      cases hb
      have hsum := h.sum
      have hlt := h.lt
      obtain ⟨hfresh, hnodup⟩ := List.nodup_cons.mp h.nodup
      dsimp only at hsum
      rw [List.length_cons] at hsum
      refine ⟨h.le, by dsimp only; omega, hnodup, fun i hi => hlt i (List.mem_cons_of_mem _ hi), fun i => ?_,
        fun i => ?_⟩
      · rw [List.mem_append, h.bra, List.mem_singleton, or_iff_left (nofun)]
      · rw [List.mem_append, h.ket, List.mem_singleton, Item.ket.injEq, List.mem_cons, not_or]
        constructor
        · rintro (⟨hin, -, hst⟩ | rfl)
          · exact ⟨hin, hst⟩
          · exact ⟨hlt i List.mem_cons_self, hfresh⟩
        · rintro ⟨hin, hst⟩
          by_cases hik : i = k
          · exact Or.inr hik
          · exact Or.inl ⟨hin, hik, hst⟩

theorem brackets_ordered {items : List Item} {b : Brackets} (h : brackets items = some b) :
    Ordered items b := by
  induction items using List.reverseRecOn generalizing b with
  | nil =>
    cases h
    exact ⟨Nat.zero_le _, rfl, List.nodup_nil, fun k hk => absurd hk List.not_mem_nil,
      fun k => iff_of_false List.not_mem_nil (Nat.not_lt_zero k),
      fun k => iff_of_false List.not_mem_nil fun hk => Nat.not_lt_zero k hk.1⟩
  | append_singleton items it ih =>
    rw [brackets_concat] at h
    obtain ⟨b₀, hb₀, hit⟩ := Option.bind_eq_some_iff.mp h
    exact (ih hb₀).step hit

/-- The brackets in front of an item of a program. -/
theorem Program.in_front {init suf : List Item} {it : Item} (h : Program (init ++ it :: suf)) :
    ∃ b b', Ordered init b ∧ it.brackets b = some b' := by
  obtain ⟨b, hb⟩ := h.brackets
  unfold Grep.brackets at hb
  rw [List.foldlM_append] at hb
  obtain ⟨b₀, hb₀, hsuf⟩ := Option.bind_eq_some_iff.mp hb
  rw [List.foldlM_cons] at hsuf
  obtain ⟨b₁, hb₁, -⟩ := Option.bind_eq_some_iff.mp hsuf
  exact ⟨b₀, b₁, brackets_ordered hb₀, hb₁⟩

/-! ## The program and the line -/

variable {prog : Bytes ESIZE} {init suf : List Item} {it : Item}

theorem Filled.fetch (h : Filled prog (code (init ++ it :: suf) ++ [CEOF])) {j : Nat}
    (hj : j < it.code.length) :
    fetch prog ((code init).length + j) = .ok (it.code.getD j 0) := by
  have hcode : code (init ++ it :: suf) ++ [CEOF] = code init ++ (it.code ++ (code suf ++ [CEOF])) := by
    rw [code_append, List.append_assoc, ← List.append_assoc it.code]
    rfl
  have hlt : (code init).length + j < (code (init ++ it :: suf) ++ [CEOF]).length := by
    rw [hcode, List.length_append, List.length_append]
    omega
  have hin := lt_of_lt_of_le hlt h.room
  unfold Venix.Grep.fetch
  rw [if_pos hin, h.get _ hin, hcode, List.getD_append_right _ _ _ _ (Nat.le_add_right _ _),
    Nat.add_sub_cancel_left, List.getD_append _ _ _ _ hj]

theorem Filled.fetch_end (h : Filled prog (code init ++ [CEOF])) : Venix.Grep.fetch prog (code init).length =
    .ok CEOF := by
  have hlt : (code init).length < (code init ++ [CEOF]).length := by
    rw [List.length_append]
    exact Nat.lt_succ_self _
  have hin := lt_of_lt_of_le hlt h.room
  unfold Venix.Grep.fetch
  rw [if_pos hin, h.get _ hin, List.getD_append_right _ _ _ _ (le_refl _), Nat.sub_self]
  rfl

theorem code_length_concat (init : List Item) (it : Item) :
    (code (init ++ [it])).length = (code init).length + it.code.length := by
  rw [code_concat, List.length_append]

variable {line : List Byte} {lp : Nat} {bra : Bra}

theorem read_le (hlp : lp ≤ line.length) : read line lp = .ok (byteAt line lp) := by
  unfold read
  rcases Nat.eq_or_lt_of_le hlp with heq | hlt
  · rw [if_neg (by omega), if_pos heq, byteAt, List.getD_eq_default _ _ heq.ge]
  · rw [if_pos hlt]

theorem lt_of_byteAt (h : byteAt line lp ≠ 0) : lp < line.length := by
  by_contra hge
  exact h (List.getD_eq_default _ _ (Nat.not_lt.mp hge))

theorem span_spec {test : Byte → Except Stop Bool} {p : Byte → Bool} (htest : ∀ d, test d = .ok (p d))
    (hzero : p 0 = false) {n : Nat} (hlp : lp ≤ line.length) (hn : line.length - lp < n) :
    ∃ lp', span line test n lp = .ok lp' ∧ lp ≤ lp' ∧ lp' ≤ line.length ∧
      (∀ i, lp ≤ i → i < lp' → p (byteAt line i) = true) ∧ p (byteAt line lp') = false := by
  induction n generalizing lp with
  | zero => exact absurd hn (Nat.not_lt_zero _)
  | succ n ih =>
    cases hd : p (byteAt line lp) with
    | false =>
      refine ⟨lp, bind_of_ok (read_le hlp) (bind_of_ok (htest _) ?_), le_refl _, hlp, fun i h1 h2 => ?_, hd⟩
      · exact if_neg (by rw [hd]; exact Bool.false_ne_true)
      · omega
    | true =>
      have hlt : lp < line.length := lt_of_byteAt fun h0 => by
        rw [h0, hzero] at hd
        cases hd
      obtain ⟨lp', hspan, hle, hlen, hall, hstop⟩ := ih (show lp + 1 ≤ line.length from hlt) (by omega)
      refine ⟨lp', bind_of_ok (read_le hlp) (bind_of_ok (htest _) ((if_pos hd).trans hspan)), by omega, hlen,
        fun i h1 h2 => ?_, hstop⟩
      rcases Nat.eq_or_lt_of_le h1 with rfl | hgt
      · exact hd
      · exact hall i hgt h2

theorem seven_bits (d : Byte) : (d &&& 0o177).toNat < 128 := by
  have hall : ∀ d : Byte, (d &&& 0o177).toNat < 128 := by decide
  exact hall d

/-- The bit map of a program. -/
theorem inClass_map {map : List Byte} {star : Bool}
    (h : Filled prog (code (init ++ .one (.ccl map) star :: suf) ++ [CEOF])) (hmap : map.length = 16)
    (d : Byte) :
    inClass prog ((code init).length + 1) d = .ok ((Atom.ccl map).accepts d) := by
  have hbits := seven_bits d
  have hj : 1 + (d &&& 0o177).toNat / 8 < (Item.one (.ccl map) star).code.length := by
    change 1 + (d &&& 0o177).toNat / 8 < map.length + 1
    omega
  have hfetch := h.fetch hj
  rw [← Nat.add_assoc, Nat.add_comm 1] at hfetch
  exact bind_of_ok hfetch rfl

/-! ## One item -/

/-- An operation is the first byte of its item. -/
theorem Filled.fetch_op (h : Filled prog (code (init ++ it :: suf) ++ [CEOF])) {op : Byte} {args : List Byte}
    (hcode : it.code = op :: args) : Venix.Grep.fetch prog (code init).length = .ok op := by
  have hfetch := h.fetch (j := 0)
  rw [hcode] at hfetch
  exact hfetch (Nat.succ_pos _)

theorem Filled.fetch_arg (h : Filled prog (code (init ++ it :: suf) ++ [CEOF])) {op c : Byte} {args : List Byte}
    (hcode : it.code = op :: c :: args) : Venix.Grep.fetch prog ((code init).length + 1) = .ok c := by
  have hfetch := h.fetch (j := 1)
  rw [hcode] at hfetch
  exact hfetch (Nat.succ_lt_succ (Nat.succ_pos _))

/-- An atom with a star. -/
theorem code_star (a : Atom) : (Item.one a true).code = (a.op ||| STAR) :: a.args := rfl

/-- The number of a bracket is in front of the 9 numbers. -/
theorem slot_eq {k : Nat} (hk : k < NBRA) {ep : Nat} (h : fetch prog ep = .ok (BitVec.ofNat 8 k)) :
    slot prog ep = .ok k := by
  have hnat : (BitVec.ofNat 8 k).toNat = k := by
    rw [BitVec.toNat_ofNat]
    exact Nat.mod_eq_of_lt (lt_trans hk (by decide))
  refine bind_of_ok h ?_
  rw [hnat]
  exact if_pos hk

theorem act_one {a : Atom} (h : Filled prog (code (init ++ .one a false :: suf) ++ [CEOF]))
    (hproper : a.Proper) (hback : ∀ k, a ≠ .back k) (hlp : lp ≤ line.length) :
    act prog line lp (code init).length bra = .ok (if a.accepts (byteAt line lp) then
      .go (lp + 1) ((code init).length + (Item.one a false).code.length) bra else .ret false) := by
  have hread := read_le hlp
  have hop := h.fetch_op (code_plain a)
  rw [code_plain]
  cases a with
  | back k => exact absurd rfl (hback k)
  | chr c =>
    refine bind_of_ok hop ((if_pos rfl).trans (bind_of_ok (h.fetch_arg (code_plain _)) (bind_of_ok hread ?_)))
    simp only [Atom.accepts, decide_eq_true_eq, eq_comm (a := c)]
    rfl
  | dot =>
    refine bind_of_ok hop ((if_neg (by decide)).trans ((if_pos rfl).trans (bind_of_ok hread ?_)))
    simp only [Atom.accepts, decide_eq_true_eq]
    rfl
  | ccl map =>
    have hop : fetch prog (code init).length = .ok CCL := hop
    refine bind_of_ok hop ((if_neg (by decide)).trans ((if_neg (by decide)).trans ((if_neg (by decide)).trans
      ((if_neg (by decide)).trans ((if_pos rfl).trans (bind_of_ok hread
        (bind_of_ok (inClass_map h hproper.1 _) ?_)))))))
    rw [List.length_cons, show (Atom.ccl map).args.length = 16 from hproper.1]
    rfl

/-- The loop over the characters that a starred atom takes. -/
theorem act_star {a : Atom} (h : Filled prog (code (init ++ .one a true :: suf) ++ [CEOF]))
    (hproper : a.Proper) (hback : ∀ k, a ≠ .back k) (hlp : lp ≤ line.length) :
    ∃ m, act prog line lp (code init).length bra =
        .ok (.star (lp + m) lp ((code init).length + (Item.one a true).code.length)) ∧
      lp + m ≤ line.length ∧ (∀ j < m, a.accepts (byteAt line (lp + j)) = true) ∧
      a.accepts (byteAt line (lp + m)) = false := by
  have hop := h.fetch_op (code_star a)
  rw [code_star]
  -- what the loop of the atom leaves
  have hspan : ∀ test : Byte → Except Stop Bool, (∀ d, test d = .ok (a.accepts d)) →
      ∃ m, span line test (line.length + 2) lp = .ok (lp + m) ∧ lp + m ≤ line.length ∧
        (∀ j < m, a.accepts (byteAt line (lp + j)) = true) ∧ a.accepts (byteAt line (lp + m)) = false := by
    intro test htest
    obtain ⟨lp', hrun, hle, hlen, hall, hstop⟩ := span_spec htest hproper.accepts_zero hlp
      (show line.length - lp < line.length + 2 by omega)
    obtain ⟨m, rfl⟩ := Nat.exists_eq_add_of_le hle
    exact ⟨m, hrun, hlen, fun j hj => hall _ (Nat.le_add_right _ _) (Nat.add_lt_add_left hj _), hstop⟩
  cases a with
  | back k => exact absurd rfl (hback k)
  | chr c =>
    have hop : fetch prog (code init).length = .ok (CCHR ||| STAR) := hop
    obtain ⟨m, hrun, hlen, hall, hstop⟩ := hspan (fun d => .ok (decide (d = c))) fun d => rfl
    refine ⟨m, bind_of_ok hop ?_, hlen, hall, hstop⟩
    exact (if_neg (by decide)).trans ((if_neg (by decide)).trans ((if_neg (by decide)).trans
      ((if_neg (by decide)).trans ((if_neg (by decide)).trans ((if_neg (by decide)).trans
      ((if_neg (by decide)).trans ((if_neg (by decide)).trans ((if_neg (by decide)).trans
      ((if_neg (by decide)).trans ((if_pos rfl).trans (bind_of_ok (h.fetch_arg (code_star _))
      (bind_of_ok hrun rfl))))))))))))
  | dot =>
    have hop : fetch prog (code init).length = .ok (CDOT ||| STAR) := hop
    obtain ⟨m, hrun, hlen, hall, hstop⟩ := hspan (fun d => .ok (decide (d ≠ 0))) fun d => rfl
    refine ⟨m, bind_of_ok hop ?_, hlen, hall, hstop⟩
    exact (if_neg (by decide)).trans ((if_neg (by decide)).trans ((if_neg (by decide)).trans
      ((if_neg (by decide)).trans ((if_neg (by decide)).trans ((if_neg (by decide)).trans
      ((if_neg (by decide)).trans ((if_neg (by decide)).trans ((if_neg (by decide)).trans
      ((if_pos rfl).trans (bind_of_ok hrun rfl))))))))))
  | ccl map =>
    have hop : fetch prog (code init).length = .ok (CCL ||| STAR) := hop
    obtain ⟨m, hrun, hlen, hall, hstop⟩ := hspan (inClass prog ((code init).length + 1))
      (inClass_map h hproper.1)
    refine ⟨m, bind_of_ok hop ?_, hlen, hall, hstop⟩
    rw [List.length_cons, show (Atom.ccl map).args.length = 16 from hproper.1]
    exact (if_neg (by decide)).trans ((if_neg (by decide)).trans ((if_neg (by decide)).trans
      ((if_neg (by decide)).trans ((if_neg (by decide)).trans ((if_neg (by decide)).trans
      ((if_neg (by decide)).trans ((if_neg (by decide)).trans ((if_neg (by decide)).trans
      ((if_neg (by decide)).trans ((if_neg (by decide)).trans ((if_pos rfl).trans
      (bind_of_ok hrun rfl))))))))))))

theorem act_dol (h : Filled prog (code (init ++ .dol :: suf) ++ [CEOF])) (hlp : lp ≤ line.length) :
    act prog line lp (code init).length bra = .ok (if byteAt line lp = 0 then
      .go lp ((code init).length + Item.dol.code.length) bra else .ret false) :=
  bind_of_ok (h.fetch_op rfl) ((if_neg (by decide)).trans ((if_neg (by decide)).trans ((if_pos rfl).trans
    (bind_of_ok (read_le hlp) rfl))))

theorem act_end (h : Filled prog (code init ++ [CEOF])) :
    act prog line lp (code init).length bra = .ok (.ret true) :=
  bind_of_ok h.fetch_end ((if_neg (by decide)).trans ((if_neg (by decide)).trans ((if_neg (by decide)).trans
    (if_pos rfl))))

theorem act_bra {k : Nat} (h : Filled prog (code (init ++ .bra k :: suf) ++ [CEOF])) (hk : k < NBRA) :
    act prog line lp (code init).length bra = .ok (.go lp ((code init).length + (Item.bra k).code.length)
      { bra with braslist := update bra.braslist k (some lp) }) :=
  bind_of_ok (h.fetch_op rfl)
    ((if_neg (by decide)).trans ((if_neg (by decide)).trans ((if_neg (by decide)).trans
    ((if_neg (by decide)).trans ((if_neg (by decide)).trans ((if_pos rfl).trans
    (bind_of_ok (slot_eq hk (h.fetch_arg rfl)) rfl)))))))

theorem act_ket {k : Nat} (h : Filled prog (code (init ++ .ket k :: suf) ++ [CEOF])) (hk : k < NBRA) :
    act prog line lp (code init).length bra = .ok (.go lp ((code init).length + (Item.ket k).code.length)
      { bra with braelist := update bra.braelist k (some lp) }) :=
  bind_of_ok (h.fetch_op rfl)
    ((if_neg (by decide)).trans ((if_neg (by decide)).trans ((if_neg (by decide)).trans
    ((if_neg (by decide)).trans ((if_neg (by decide)).trans ((if_neg (by decide)).trans ((if_pos rfl).trans
    (bind_of_ok (slot_eq hk (h.fetch_arg rfl)) rfl))))))))

/-! ## Captured strings -/

/-- What a bracket that was closed has captured. -/
theorem captured_some {k b e : Nat} (hb : bra.braslist k = some b) (he : bra.braelist k = some e)
    (hle : b ≤ e) :
    captured bra k = .ok (some (b, e - b)) := by
  unfold captured
  rw [hb, he]
  exact if_neg (Nat.not_lt.mpr hle)

theorem captured_none {k : Nat} (h : bra.braelist k = none) : captured bra k = .ok none := by
  unfold captured
  rw [h]

theorem string_some {k b e : Nat} (hb : bra.braslist k = some b) (he : bra.braelist k = some e) :
    bra.string k = some (b, e - b) := by
  unfold Bra.string
  rw [hb, he]

theorem string_none {k : Nat} (h : bra.braelist k = none) : bra.string k = none := by
  unfold Bra.string
  rw [h]
  split
  · next h' => cases h'
  · rfl

theorem drop_eq_byteAt {i : Nat} (hi : i < line.length) : line.drop i = byteAt line i :: line.drop (i + 1) := by
  rw [List.drop_eq_getElem_cons hi, byteAt, List.getD_eq_getElem _ _ hi]

theorem byteAt_ne_zero (hnul : 0 ∉ line) {i : Nat} (hi : i < line.length) : byteAt line i ≠ 0 := by
  intro h0
  rw [byteAt, List.getD_eq_getElem _ _ hi] at h0
  exact hnul (h0 ▸ List.getElem_mem hi)

theorem same_cons {ct b : Nat} (hb : b < line.length) (hlp : lp < line.length)
    (hc : byteAt line b = byteAt line lp) :
    same line b (ct + 1) lp = same line (b + 1) ct (lp + 1) := by
  unfold same
  refine decide_eq_decide.mpr ?_
  rw [drop_eq_byteAt hb, drop_eq_byteAt hlp, List.take_succ_cons, List.take_succ_cons, List.cons.injEq,
    and_iff_right hc]

theorem same_ne {ct b : Nat} (hb : b < line.length) (hc : byteAt line b ≠ byteAt line lp) :
    same line b (ct + 1) lp = false := by
  refine decide_eq_false fun heq => ?_
  rw [drop_eq_byteAt hb, List.take_succ_cons] at heq
  rcases Nat.lt_or_ge lp line.length with hlt | hge
  · rw [drop_eq_byteAt hlt, List.take_succ_cons] at heq
    exact hc (List.cons.inj heq).1
  · rw [List.drop_of_length_le hge] at heq
    cases heq

/-- `ecmp` keeps to the line when the first string does. -/
theorem ecmp_same (hnul : 0 ∉ line) {ct b : Nat} (hb : b + ct ≤ line.length) (hlp : lp ≤ line.length) :
    ecmp line ct b lp = .ok (same line b ct lp) ∧ (same line b ct lp = true → lp + ct ≤ line.length) := by
  induction ct generalizing b lp with
  | zero => exact ⟨congrArg Except.ok (decide_eq_true rfl).symm, fun _ => hlp⟩
  | succ ct ih =>
    have hlt : b < line.length := by omega
    have hread : read line b = .ok (byteAt line b) := read_le hlt.le
    by_cases hc : byteAt line b = byteAt line lp
    · have hlt' : lp < line.length := lt_of_byteAt (hc ▸ byteAt_ne_zero hnul hlt)
      obtain ⟨hrun, hin⟩ := ih (show b + 1 + ct ≤ line.length by omega) (show lp + 1 ≤ line.length from hlt')
      rw [same_cons hlt hlt' hc]
      refine ⟨bind_of_ok hread (bind_of_ok (read_le hlp) ((if_neg (not_not.mpr hc)).trans hrun)), fun h => ?_⟩
      have := hin h
      omega
    · rw [same_ne hlt hc]
      exact ⟨bind_of_ok hread (bind_of_ok (read_le hlp) (if_pos hc)), fun h => absurd h Bool.false_ne_true⟩

/-- How often a string that is not empty is repeated. -/
theorem copies (hnul : 0 ∉ line) {ct b : Nat} (hct : ct ≠ 0) (hb : b + ct ≤ line.length)
    (hlp : lp ≤ line.length) :
    ∃ m ≤ line.length, (∀ j < m, same line b ct (lp + j * ct) = true) ∧ same line b ct (lp + m * ct) = false ∧
      lp + m * ct ≤ line.length := by
  -- the places of the copies stay in the line
  have hin : ∀ m, (∀ j < m, same line b ct (lp + j * ct) = true) → lp + m * ct ≤ line.length := by
    intro m hm
    induction m with
    | zero => omega
    | succ m ih =>
      have := (ecmp_same hnul hb (ih fun j hj => hm j (Nat.lt_succ_of_lt hj))).2 (hm m (Nat.lt_succ_self m))
      rw [Nat.succ_mul]
      omega
  have hle : ∀ m, m ≤ m * ct := fun m => Nat.le_mul_of_pos_right m (Nat.pos_of_ne_zero hct)
  have hstop : ∃ m, same line b ct (lp + m * ct) = false := by
    by_contra hall
    have htrue : ∀ m, same line b ct (lp + m * ct) = true := fun m =>
      Bool.not_eq_false _ |>.mp fun hm => hall ⟨m, hm⟩
    have := hin (line.length + 1) fun j _ => htrue j
    have := hle (line.length + 1)
    omega
  have hall : ∀ j < Nat.find hstop, same line b ct (lp + j * ct) = true := fun j hj =>
    Bool.not_eq_false _ |>.mp (Nat.find_min hstop hj)
  have hfound := hin _ hall
  refine ⟨Nat.find hstop, ?_, hall, Nat.find_spec hstop, hfound⟩
  have := hle (Nat.find hstop)
  omega

theorem Filled.fetch_back {k : Nat} {star : Bool}
    (h : Filled prog (code (init ++ .one (.back k) star :: suf) ++ [CEOF])) :
    Venix.Grep.fetch prog (code init).length = .ok (CBACK ||| if star then STAR else 0) ∧
      Venix.Grep.fetch prog ((code init).length + 1) = .ok (BitVec.ofNat 8 k) :=
  ⟨h.fetch_op rfl, h.fetch_arg rfl⟩

/-- A reference to a bracket that was not closed. -/
theorem act_back_none {k : Nat} {star : Bool}
    (h : Filled prog (code (init ++ .one (.back k) star :: suf) ++ [CEOF])) (hk : k < NBRA)
    (hcap : captured bra k = .ok none) : act prog line lp (code init).length bra = .ok (.ret false) := by
  obtain ⟨hop, harg⟩ := h.fetch_back
  cases star with
  | false =>
    exact bind_of_ok hop ((if_neg (by decide)).trans ((if_neg (by decide)).trans ((if_neg (by decide)).trans
      ((if_neg (by decide)).trans ((if_neg (by decide)).trans ((if_neg (by decide)).trans
      ((if_neg (by decide)).trans ((if_pos rfl).trans (bind_of_ok (slot_eq hk harg)
      (bind_of_ok hcap rfl))))))))))
  | true =>
    exact bind_of_ok hop ((if_neg (by decide)).trans ((if_neg (by decide)).trans ((if_neg (by decide)).trans
      ((if_neg (by decide)).trans ((if_neg (by decide)).trans ((if_neg (by decide)).trans
      ((if_neg (by decide)).trans ((if_neg (by decide)).trans ((if_pos rfl).trans
      (bind_of_ok (slot_eq hk harg) (bind_of_ok hcap rfl)))))))))))

theorem act_back {k b ct : Nat} {r : Bool}
    (h : Filled prog (code (init ++ .one (.back k) false :: suf) ++ [CEOF])) (hk : k < NBRA)
    (hcap : captured bra k = .ok (some (b, ct))) (hcmp : ecmp line ct b lp = .ok r) :
    act prog line lp (code init).length bra =
      .ok (if r then .go (lp + ct) ((code init).length + 2) bra else .ret false) := by
  obtain ⟨hop, harg⟩ := h.fetch_back
  exact bind_of_ok hop ((if_neg (by decide)).trans ((if_neg (by decide)).trans ((if_neg (by decide)).trans
    ((if_neg (by decide)).trans ((if_neg (by decide)).trans ((if_neg (by decide)).trans
    ((if_neg (by decide)).trans ((if_pos rfl).trans (bind_of_ok (slot_eq hk harg)
    (bind_of_ok hcap (bind_of_ok hcmp rfl)))))))))))

theorem act_backs {k b ct : Nat} (h : Filled prog (code (init ++ .one (.back k) true :: suf) ++ [CEOF]))
    (hk : k < NBRA) (hcap : captured bra k = .ok (some (b, ct))) :
    act prog line lp (code init).length bra = .ok (.backs b ct ((code init).length + 2)) := by
  obtain ⟨hop, harg⟩ := h.fetch_back
  exact bind_of_ok hop ((if_neg (by decide)).trans ((if_neg (by decide)).trans ((if_neg (by decide)).trans
    ((if_neg (by decide)).trans ((if_neg (by decide)).trans ((if_neg (by decide)).trans
    ((if_neg (by decide)).trans ((if_neg (by decide)).trans ((if_pos rfl).trans (bind_of_ok (slot_eq hk harg)
    (bind_of_ok hcap rfl)))))))))))

/-! ## Loops over places -/

theorem range_down (m : Nat) : (List.range (m + 1)).reverse = m :: (List.range m).reverse := by
  rw [List.range_succ, List.reverse_append]
  rfl

/-- The places behind `star`, from the last one down; one that is skipped is one that fails. -/
theorem tries_eq {adv : Nat → Bra → Except Stop (Bool × Bra)} {first : Option Byte} {skip : Nat → Bool}
    {curlp k : Nat} (hskip : ∀ m ≤ k, skips line first (curlp + m) = .ok (skip m)) :
    tries line adv first curlp k bra =
      tryEach (fun m bra => if skip m then .ok (false, bra) else adv (curlp + m) bra)
        (List.range (k + 1)).reverse
        bra := by
  induction k generalizing bra with
  | zero =>
    refine bind_of_ok (hskip 0 (le_refl 0)) ?_
    have hone : (List.range (0 + 1)).reverse = [0] := rfl
    rw [hone]
    unfold tryEach
    cases skip 0 with
    | true => rfl
    | false =>
      rw [if_neg Bool.false_ne_true, if_neg Bool.false_ne_true]
      cases adv (curlp + 0) bra with
      | error e => rfl
      | ok rs =>
        obtain ⟨r, bra'⟩ := rs
        cases r with
        | true => rfl
        | false => rfl
  | succ k ih =>
    have hrest := fun {bra'} => @ih bra' fun m hm => hskip m (Nat.le_succ_of_le hm)
    rw [range_down]
    refine bind_of_ok (hskip (k + 1) (le_refl _)) ?_
    unfold tryEach
    cases hs : skip (k + 1) with
    | true => exact hrest
    | false =>
      rw [if_neg Bool.false_ne_true, if_neg Bool.false_ne_true]
      refine congrArg _ (funext fun rs => ?_)
      obtain ⟨r, bra'⟩ := rs
      cases r with
      | true => rfl
      | false => exact hrest

theorem shrink_eq {adv : Nat → Bra → Except Stop (Bool × Bra)} {curlp ct m n : Nat} (hct : ct ≠ 0)
    (hm : m < n) :
    shrink adv curlp ct n (curlp + m * ct) bra =
      tryEach (fun j bra => adv (curlp + j * ct) bra) (List.range (m + 1)).reverse bra := by
  induction n generalizing m bra with
  | zero => exact absurd hm (Nat.not_lt_zero m)
  | succ n ih =>
    rw [range_down]
    refine congrArg _ (funext fun rs => ?_)
    obtain ⟨r, bra'⟩ := rs
    cases r with
    | true => rfl
    | false =>
      cases m with
      | zero =>
        have hgt : ¬curlp + ct ≤ curlp + 0 * ct := by omega
        exact if_neg hgt
      | succ m =>
        have hle : curlp + ct ≤ curlp + (m + 1) * ct := by
          rw [Nat.succ_mul]
          omega
        have hsub : curlp + (m + 1) * ct - ct = curlp + m * ct := by
          rw [Nat.succ_mul]
          omega
        refine (if_pos hle).trans ?_
        rw [hsub]
        exact ih (Nat.lt_of_succ_lt_succ hm)

theorem grow_less {b ct m n : Nat} (hall : ∀ j < m, ecmp line ct b (lp + j * ct) = .ok true) (hn : n ≤ m) :
    grow line b ct n lp = .error .endless := by
  induction n generalizing m lp with
  | zero => rfl
  | succ n ih =>
    obtain ⟨m, rfl⟩ : ∃ k, m = k + 1 := ⟨m - 1, by omega⟩
    have h0 := hall 0 (Nat.succ_pos m)
    rw [Nat.zero_mul, Nat.add_zero] at h0
    refine bind_of_ok h0 (ih (m := m) (fun j hj => ?_) (Nat.le_of_succ_le_succ hn))
    have := hall (j + 1) (Nat.succ_lt_succ hj)
    rwa [Nat.succ_mul, Nat.add_comm (j * ct), ← Nat.add_assoc] at this

theorem grow_large {b ct m n : Nat} (hall : ∀ j < m, ecmp line ct b (lp + j * ct) = .ok true)
    (hstop : ecmp line ct b (lp + m * ct) = .ok false) (hn : m < n) :
    grow line b ct n lp = .ok (lp + m * ct) := by
  induction n generalizing m lp with
  | zero => exact absurd hn (Nat.not_lt_zero m)
  | succ n ih =>
    cases m with
    | zero =>
      rw [Nat.zero_mul, Nat.add_zero] at hstop ⊢
      exact bind_of_ok hstop rfl
    | succ m =>
      have h0 := hall 0 (Nat.succ_pos m)
      rw [Nat.zero_mul, Nat.add_zero] at h0
      have hnext : grow line b ct n (lp + ct) = .ok (lp + ct + m * ct) := by
        refine ih (fun j hj => ?_) ?_ (Nat.lt_of_succ_lt_succ hn)
        · have := hall (j + 1) (Nat.succ_lt_succ hj)
          rwa [Nat.succ_mul, Nat.add_comm (j * ct), ← Nat.add_assoc] at this
        · rwa [Nat.succ_mul, Nat.add_comm (m * ct), ← Nat.add_assoc] at hstop
      rw [Nat.succ_mul, Nat.add_comm (m * ct), ← Nat.add_assoc]
      exact bind_of_ok h0 hnext

/-- A string that is empty is repeated without end. -/
theorem grow_empty (b n : Nat) : grow line b 0 n lp = .error .endless :=
  grow_less (m := n) (fun _ _ => rfl) (le_refl n)

/-! ## The way to an item -/

/-- A number with a reference to it that no closing bracket is in front of. -/
def Dead (items : List Item) (k : Nat) : Prop :=
  ∃ i star, items[i]? = some (.one (.back k) star) ∧ Item.ket k ∉ items.take i

/-- The items `init` have read the line up to `lp`, and have captured `caps`. -/
structure Path (line : List Byte) (init : List Item) (lp : Nat) (caps : Bra) : Prop where
  le : lp ≤ line.length
  live : ∀ i k star, init[i]? = some (.one (.back k) star) → Item.ket k ∈ init.take i
  begun : ∀ k, Item.bra k ∈ init → ∃ b ≤ lp, caps.braslist k = some b
  ended : ∀ k, Item.ket k ∈ init →
    ∃ b e, caps.braslist k = some b ∧ caps.braelist k = some e ∧ b ≤ e ∧ e ≤ lp
  none : ∀ k, Item.ket k ∉ init → caps.braelist k = none

/-- The arrays hold what was captured, and nothing at the end of a bracket that is dead; elsewhere a call
may have left anything. -/
structure Holds (items init : List Item) (caps bra : Bra) : Prop where
  dead : ∀ k, Dead items k → bra.braelist k = none
  begun : ∀ k, Item.bra k ∈ init → bra.braslist k = caps.braslist k
  ended : ∀ k, Item.ket k ∈ init → bra.braelist k = caps.braelist k

theorem mem_concat {items : List Item} {x : Item} (h : x ≠ it) : x ∈ items ++ [it] ↔ x ∈ items := by
  rw [List.mem_append, List.mem_singleton, or_iff_left h]

theorem live_concat (hlive : ∀ i k star, init[i]? = some (.one (.back k) star) → Item.ket k ∈ init.take i)
    (hit : ∀ k star, it = .one (.back k) star → Item.ket k ∈ init) (i k : Nat) (star : Bool)
    (h : (init ++ [it])[i]? = some (.one (.back k) star)) : Item.ket k ∈ (init ++ [it]).take i := by
  rcases Nat.lt_trichotomy i init.length with hlt | heq | hgt
  · rw [List.getElem?_append_left hlt] at h
    rw [List.take_append_of_le_length hlt.le]
    exact hlive i k star h
  · rw [heq, List.getElem?_append_right (le_refl _), Nat.sub_self] at h
    rw [heq, List.take_left' rfl]
    exact hit k star (Option.some.inj h)
  · rw [List.getElem?_eq_none] at h
    · cases h
    · rw [List.length_append, List.length_singleton]
      exact hgt

variable {items : List Item} {caps caps' bra' : Bra}

/-- Behind an item that is no bracket. -/
theorem Path.take (h : Path line init lp caps) {lp' : Nat} (hle : lp ≤ lp') (hlen : lp' ≤ line.length)
    (hbra : ∀ k, Item.bra k ≠ it) (hket : ∀ k, Item.ket k ≠ it)
    (hit : ∀ k star, it = .one (.back k) star → Item.ket k ∈ init) : Path line (init ++ [it]) lp' caps := by
  refine ⟨hlen, live_concat h.live hit, fun k hk => ?_, fun k hk => ?_, fun k hk => ?_⟩
  · obtain ⟨b, hb, hs⟩ := h.begun k ((mem_concat (hbra k)).mp hk)
    exact ⟨b, le_trans hb hle, hs⟩
  · obtain ⟨b, e, hb, he, hbe, help⟩ := h.ended k ((mem_concat (hket k)).mp hk)
    exact ⟨b, e, hb, he, hbe, le_trans help hle⟩
  · exact h.none k fun hmem => hk ((mem_concat (hket k)).mpr hmem)

theorem Holds.take (h : Holds items init caps bra) (hbra : ∀ k, Item.bra k ≠ it) (hket : ∀ k, Item.ket k ≠ it) :
    Holds items (init ++ [it]) caps bra :=
  ⟨h.dead, fun k hk => h.begun k ((mem_concat (hbra k)).mp hk),
    fun k hk => h.ended k ((mem_concat (hket k)).mp hk)⟩

/-- What a call behind an item leaves is what a call in front of it leaves. -/
theorem Holds.before (h : Holds items (init ++ [it]) caps' bra)
    (hbra : ∀ k, Item.bra k ∈ init → caps'.braslist k = caps.braslist k)
    (hket : ∀ k, Item.ket k ∈ init → caps'.braelist k = caps.braelist k) : Holds items init caps bra :=
  ⟨h.dead, fun k hk => (h.begun k (List.mem_append_left _ hk)).trans (hbra k hk),
    fun k hk => (h.ended k (List.mem_append_left _ hk)).trans (hket k hk)⟩

theorem bra_ne_ket (j k : Nat) : Item.bra j ≠ .ket k := nofun

theorem ket_ne_bra (j k : Nat) : Item.ket j ≠ .bra k := nofun

theorem Path.next_bra {k : Nat} (h : Path line init lp caps) (hket : Item.ket k ∉ init) :
    Path line (init ++ [.bra k]) lp { caps with braslist := update caps.braslist k (some lp) } := by
  refine ⟨h.le, live_concat h.live (fun _ _ => nofun), fun j hj => ?_, fun j hj => ?_, fun j hj => ?_⟩
  · dsimp only
    by_cases hjk : j = k
    · rw [hjk, update_self]
      exact ⟨lp, le_refl lp, rfl⟩
    · rw [update_of_ne hjk]
      exact h.begun j ((mem_concat (by rwa [Ne, Item.bra.injEq])).mp hj)
  · have hj := (mem_concat (ket_ne_bra j k)).mp hj
    have hjk : j ≠ k := fun hjk => hket (hjk ▸ hj)
    dsimp only
    rw [update_of_ne hjk]
    exact h.ended j hj
  · exact h.none j fun hmem => hj (List.mem_append_left _ hmem)

theorem Path.next_ket {k : Nat} (h : Path line init lp caps) (hbra : Item.bra k ∈ init) :
    Path line (init ++ [.ket k]) lp { caps with braelist := update caps.braelist k (some lp) } := by
  refine ⟨h.le, live_concat h.live (fun _ _ => nofun), fun j hj =>
    h.begun j ((mem_concat (bra_ne_ket j k)).mp hj),
    fun j hj => ?_, fun j hj => ?_⟩
  · dsimp only
    by_cases hjk : j = k
    · obtain ⟨b, hb, hs⟩ := h.begun k hbra
      rw [hjk, update_self]
      exact ⟨b, lp, hs, rfl, hb, le_refl lp⟩
    · rw [update_of_ne hjk]
      exact h.ended j ((mem_concat (by rwa [Ne, Item.ket.injEq])).mp hj)
  · have hjk : j ≠ k := fun hjk => hj (hjk ▸ List.mem_append_right _ List.mem_cons_self)
    dsimp only
    rw [update_of_ne hjk]
    exact h.none j fun hmem => hj (List.mem_append_left _ hmem)

theorem Holds.next_bra {k : Nat} (h : Holds items init caps bra) :
    Holds items (init ++ [.bra k]) { caps with braslist := update caps.braslist k (some lp) }
      { bra with braslist := update bra.braslist k (some lp) } := by
  refine ⟨h.dead, fun j hj => ?_, fun j hj => h.ended j ((mem_concat (ket_ne_bra j k)).mp hj)⟩
  dsimp only
  by_cases hjk : j = k
  · rw [hjk, update_self, update_self]
  · rw [update_of_ne hjk, update_of_ne hjk]
    exact h.begun j ((mem_concat (by rwa [Ne, Item.bra.injEq])).mp hj)

theorem Holds.next_ket {k : Nat} (h : Holds items init caps bra) (hdead : ¬Dead items k) :
    Holds items (init ++ [.ket k]) { caps with braelist := update caps.braelist k (some lp) }
      { bra with braelist := update bra.braelist k (some lp) } := by
  refine ⟨fun j hj => ?_, fun j hj => h.begun j ((mem_concat (bra_ne_ket j k)).mp hj), fun j hj => ?_⟩
  · dsimp only
    have hjk : j ≠ k := fun hjk => hdead (hjk ▸ hj)
    rw [update_of_ne hjk]
    exact h.dead j hj
  · dsimp only
    by_cases hjk : j = k
    · rw [hjk, update_self, update_self]
    · rw [update_of_ne hjk, update_of_ne hjk]
      exact h.ended j ((mem_concat (by rwa [Ne, Item.ket.injEq])).mp hj)

/-- A bracket that is closed on a way of the search is not dead. -/
theorem Path.not_dead {k : Nat} (h : Path line init lp caps) (hitems : items = init ++ .ket k :: suf)
    (hket : Item.ket k ∉ init) : ¬Dead items k := by
  rintro ⟨i, star, hi, hdead⟩
  subst hitems
  rcases Nat.lt_or_ge i init.length with hlt | hge
  · rw [List.getElem?_append_left hlt] at hi
    exact hket (List.mem_of_mem_take (h.live i k star hi))
  · rcases Nat.eq_or_lt_of_le hge with heq | hgt
    · rw [← heq, List.getElem?_append_right (le_refl _), Nat.sub_self] at hi
      cases hi
    · refine hdead ?_
      obtain ⟨j, rfl⟩ : ∃ j, i = init.length + (j + 1) := ⟨i - init.length - 1, by omega⟩
      rw [List.take_length_add_append, List.take_succ_cons]
      exact List.mem_append_right _ List.mem_cons_self

/-- What a reference finds, and what it is to find. -/
theorem Holds.captured (h : Holds items init caps bra) (hpath : Path line init lp caps) {k : Nat}
    (hbra : Item.ket k ∈ init → Item.bra k ∈ init) {star : Bool}
    (hitems : items = init ++ .one (.back k) star :: suf) :
    (captured bra k = .ok none ∧ caps.string k = none) ∨
      ∃ b ct, captured bra k = .ok (some (b, ct)) ∧ caps.string k = some (b, ct) ∧ b + ct ≤ lp ∧
        Item.ket k ∈ init := by
  by_cases hket : Item.ket k ∈ init
  · obtain ⟨b, e, hb, he, hbe, help⟩ := hpath.ended k hket
    refine Or.inr ⟨b, e - b, captured_some ((h.begun k (hbra hket)).trans hb) ((h.ended k hket).trans he) hbe,
      string_some hb he, by omega, hket⟩
  · have hdead : Dead items k := by
      refine ⟨init.length, star, ?_, ?_⟩
      · rw [hitems, List.getElem?_append_right (le_refl _), Nat.sub_self]
        rfl
      · rwa [hitems, List.take_left' rfl]
    exact Or.inl ⟨captured_none (h.dead k hdead), string_none (hpath.none k hket)⟩

/-! ## The search -/

/-- From behind `init` on, `advance` ends with whether the items of `suf` read the line, unless it gets
stuck. -/
def Runs (prog : Bytes ESIZE) (line : List Byte) (items init suf : List Item) : Prop :=
  ∀ lp caps bra, Path line init lp caps → Holds items init caps bra →
    Decides .endless (fun n => advance prog line n lp (code init).length bra) (reads line suf lp caps)
      (stuck line suf lp caps) (Holds items init caps)

theorem decides_ret {ep : Nat} {r : Bool} {I : Bra → Prop} (h : act prog line lp ep bra = .ok (.ret r))
    (hbra : I bra) : Decides .endless (fun n => advance prog line n lp ep bra) r false I :=
  (Decides.const (fun _ => rfl) hbra).of_succ rfl fun _ => bind_of_ok h rfl

theorem decides_go {lp' ep ep' : Nat} {M S : Bool} {I : Bra → Prop}
    (h : act prog line lp ep bra = .ok (.go lp' ep' bra'))
    (hnext : Decides .endless (fun n => advance prog line n lp' ep' bra') M S I) :
    Decides .endless (fun n => advance prog line n lp ep bra) M S I :=
  hnext.of_succ rfl fun _ => bind_of_ok h rfl

theorem reads_none (hit : choices line it lp caps = []) : reads line (it :: suf) lp caps = false := by
  unfold reads
  rw [hit]
  rfl

theorem stuck_none (hit : choices line it lp caps = []) (hends : it.endless caps = false) :
    stuck line (it :: suf) lp caps = false := by
  unfold stuck
  rw [hit, hends]
  rfl

theorem reads_one {lp' : Nat} (hit : choices line it lp caps = [(lp', caps')]) :
    reads line (it :: suf) lp caps = reads line suf lp' caps' := by
  conv_lhs => unfold reads
  rw [hit]
  exact Bool.or_false _

theorem stuck_one {lp' : Nat} (hit : choices line it lp caps = [(lp', caps')])
    (hends : it.endless caps = false) :
    stuck line (it :: suf) lp caps = stuck line suf lp' caps' := by
  conv_lhs => unfold stuck
  rw [hit, hends]
  simp only [meets, Bool.and_false, Bool.or_false, Bool.false_or]

theorem runs_end (hfill : Filled prog (code items ++ [CEOF])) (hitems : items = init) :
    Runs prog line items init [] := by
  subst hitems
  exact fun lp caps bra hpath hholds => decides_ret (act_end hfill) hholds

/-- Items that end in one place at most. -/
theorem runs_step (hnext : Runs prog line items (init ++ [it]) suf) (hbra : ∀ k, Item.bra k ≠ it)
    (hket : ∀ k, Item.ket k ≠ it)
    (hends : ∀ lp caps bra, Path line init lp caps → Holds items init caps bra → it.endless caps = false ∧
      ((act prog line lp (code init).length bra = .ok (.ret false) ∧ choices line it lp caps = []) ∨
        ∃ lp', act prog line lp (code init).length bra = .ok (.go lp' (code (init ++ [it])).length bra) ∧
          choices line it lp caps = [(lp', caps)] ∧ Path line (init ++ [it]) lp' caps)) :
    Runs prog line items init (it :: suf) := by
  intro lp caps bra hpath hholds
  obtain ⟨hfalse, ⟨hact, hchoices⟩ | ⟨lp', hact, hchoices, hpath'⟩⟩ := hends lp caps bra hpath hholds
  · rw [reads_none hchoices, stuck_none hchoices hfalse]
    exact decides_ret hact hholds
  · rw [reads_one hchoices, stuck_one hchoices hfalse]
    refine decides_go hact ((hnext lp' caps bra hpath' (hholds.take hbra hket)).imp fun bra' hbra' => ?_)
    exact hbra'.before (fun _ _ => rfl) (fun _ _ => rfl)

section

variable (hfill : Filled prog (code items ++ [CEOF]))

include hfill

theorem runs_dol (hitems : items = init ++ .dol :: suf) (hnext : Runs prog line items (init ++ [.dol]) suf)
    (hnul : 0 ∉ line) :
    Runs prog line items init (.dol :: suf) := by
  subst hitems
  refine runs_step hnext (fun _ => nofun) (fun _ => nofun) fun lp caps bra hpath hholds => ⟨rfl, ?_⟩
  have hact : act prog line lp (code init).length bra = .ok (if byteAt line lp = 0 then
    .go lp ((code init).length + Item.dol.code.length) bra else .ret false) := act_dol hfill hpath.le
  have hat : byteAt line lp = 0 ↔ lp = line.length := by
    refine ⟨fun h0 => ?_, fun h => List.getD_eq_default _ _ h.ge⟩
    exact le_antisymm hpath.le (Nat.not_lt.mp fun hlt => byteAt_ne_zero hnul hlt h0)
  have hchoices : choices line .dol lp caps = if lp = line.length then [(lp, caps)] else [] := rfl
  rw [hchoices]
  by_cases hend : lp = line.length
  · rw [if_pos (hat.mpr hend)] at hact
    rw [if_pos hend, code_length_concat]
    exact Or.inr ⟨lp, hact, rfl, hpath.take (le_refl lp) hpath.le (fun _ => nofun) (fun _ => nofun) fun _ _ =>
      nofun⟩
  · rw [if_neg fun h => hend (hat.mp h)] at hact
    rw [if_neg hend]
    exact Or.inl ⟨hact, rfl⟩

theorem runs_one {a : Atom} (hitems : items = init ++ .one a false :: suf)
    (hnext : Runs prog line items (init ++ [.one a false]) suf) (hproper : a.Proper)
    (hback : ∀ k, a ≠ .back k) :
    Runs prog line items init (.one a false :: suf) := by
  subst hitems
  refine runs_step hnext (fun _ => nofun) (fun _ => nofun) fun lp caps bra hpath hholds =>
    ⟨endless_one hback false, ?_⟩
  have hact : act prog line lp (code init).length bra = .ok (if a.accepts (byteAt line lp) then
      .go (lp + 1) ((code init).length + (Item.one a false).code.length) bra else .ret false) :=
    act_one hfill hproper hback hpath.le
  rw [choices_one hback]
  cases haccepts : a.accepts (byteAt line lp) with
  | true =>
    have hlt : lp < line.length := lt_of_byteAt fun h0 => by
      rw [h0, hproper.accepts_zero] at haccepts
      cases haccepts
    rw [haccepts] at hact
    rw [code_length_concat]
    refine Or.inr ⟨lp + 1, hact, rfl, hpath.take (Nat.le_succ lp) hlt (fun _ => nofun) (fun _ => nofun) ?_⟩
    intro k star hk
    exact absurd (Item.one.inj hk).1 (hback k)
  | false =>
    rw [haccepts] at hact
    exact Or.inl ⟨hact, rfl⟩

theorem runs_back {k : Nat} (hitems : items = init ++ .one (.back k) false :: suf)
    (hnext : Runs prog line items (init ++ [.one (.back k) false]) suf) (hk : k < NBRA)
    (hbra : Item.ket k ∈ init → Item.bra k ∈ init) (hnul : 0 ∉ line) :
    Runs prog line items init (.one (.back k) false :: suf) := by
  subst hitems
  refine runs_step hnext (fun _ => nofun) (fun _ => nofun) fun lp caps bra hpath hholds => ⟨rfl, ?_⟩
  rcases hholds.captured hpath hbra rfl with ⟨hcap, hstring⟩ | ⟨b, ct, hcap, hstring, hle, hket⟩
  · exact Or.inl ⟨act_back_none hfill hk hcap, choices_back_none hstring false⟩
  · have hpathle := hpath.le
    obtain ⟨hcmp, hin⟩ := ecmp_same hnul (show b + ct ≤ line.length by omega) hpath.le
    have hact := act_back hfill hk hcap hcmp
    rw [choices_back hstring, code_length_concat]
    cases hsame : same line b ct lp with
    | true =>
      rw [hsame] at hact
      refine Or.inr ⟨lp + ct, hact, rfl, hpath.take (Nat.le_add_right lp ct) (hin hsame) (fun _ => nofun)
        (fun _ => nofun) fun j star hj => ?_⟩
      cases hj
      exact hket
    | false =>
      rw [hsame] at hact
      exact Or.inl ⟨hact, rfl⟩

theorem runs_bra {k : Nat} (hitems : items = init ++ .bra k :: suf)
    (hnext : Runs prog line items (init ++ [.bra k]) suf) (hk : k < NBRA) (hbra : Item.bra k ∉ init)
    (hket : Item.ket k ∉ init) : Runs prog line items init (.bra k :: suf) := by
  subst hitems
  intro lp caps bra hpath hholds
  have hact : act prog line lp (code init).length bra = .ok (.go lp ((code init).length + 2)
    { bra with braslist := update bra.braslist k (some lp) }) := act_bra hfill hk
  have hlen : (code init).length + 2 = (code (init ++ [.bra k])).length :=
    (code_length_concat init (.bra k)).symm
  rw [hlen] at hact
  rw [reads_one rfl, stuck_one rfl rfl]
  refine decides_go hact ((hnext lp _ _ (hpath.next_bra hket) hholds.next_bra).imp fun bra' hbra' => ?_)
  refine hbra'.before (fun j hj => update_of_ne ?_ _ _) fun _ _ => rfl
  rintro rfl
  exact hbra hj

theorem runs_ket {k : Nat} (hitems : items = init ++ .ket k :: suf)
    (hnext : Runs prog line items (init ++ [.ket k]) suf) (hk : k < NBRA) (hbra : Item.bra k ∈ init)
    (hket : Item.ket k ∉ init) : Runs prog line items init (.ket k :: suf) := by
  intro lp caps bra hpath hholds
  have hdead := hpath.not_dead hitems hket
  subst hitems
  have hact : act prog line lp (code init).length bra = .ok (.go lp ((code init).length + 2)
    { bra with braelist := update bra.braelist k (some lp) }) := act_ket hfill hk
  have hlen : (code init).length + 2 = (code (init ++ [.ket k])).length :=
    (code_length_concat init (.ket k)).symm
  rw [hlen] at hact
  rw [reads_one rfl, stuck_one rfl rfl]
  refine decides_go hact ((hnext lp _ _ (hpath.next_ket hbra) (hholds.next_ket hdead)).imp fun bra' hbra' => ?_)
  refine hbra'.before (fun _ _ => rfl) fun j hj => update_of_ne ?_ _ _
  rintro rfl
  exact hket hj

/-! ## Items that end in many places -/

omit hfill in
/-- The tries of an item that ends in `m + 1` places, the last one first. -/
theorem tries_decide {m : Nat} (place : Nat → Nat) (skip : Nat → Bool)
    (hnext : Runs prog line items (init ++ [it]) suf) (hbra : ∀ k, Item.bra k ≠ it)
    (hket : ∀ k, Item.ket k ≠ it)
    (hchoices : choices line it lp caps = (List.range (m + 1)).reverse.map fun j => (place j, caps))
    (hends : it.endless caps = false) (hpath : ∀ j ≤ m, Path line (init ++ [it]) (place j) caps)
    (hskip : ∀ j ≤ m, skip j = true →
      reads line suf (place j) caps = false ∧ stuck line suf (place j) caps = false)
    (hholds : Holds items init caps bra) :
    Decides .endless (fun n => tryEach (fun j bra => if skip j then .ok (false, bra) else
        advance prog line n (place j) (code (init ++ [it])).length bra) (List.range (m + 1)).reverse bra)
      (reads line (it :: suf) lp caps) (stuck line (it :: suf) lp caps) (Holds items init caps) := by
  have hreads : reads line (it :: suf) lp caps =
      (List.range (m + 1)).reverse.any fun j => reads line suf (place j) caps := by
    conv_lhs => unfold reads
    rw [hchoices, List.any_map]
    rfl
  have hstuck : stuck line (it :: suf) lp caps = meets (fun j => reads line suf (place j) caps)
      (fun j => stuck line suf (place j) caps) (List.range (m + 1)).reverse := by
    conv_lhs => unfold stuck
    rw [hchoices, meets_map, hends, Bool.false_or]
    rfl
  rw [hreads, hstuck]
  refine tryEach_decides (fun n j bra => ?_) (fun j hj bra hbra' => ?_) hholds
  · split
    · exact .refl _
    · exact advance_below _ _ _ _
  · have hj : j ≤ m := by
      have := List.mem_range.mp (List.mem_reverse.mp hj)
      omega
    cases hs : skip j with
    | true =>
      obtain ⟨hno, hnot⟩ := hskip j hj hs
      rw [hno, hnot]
      exact .const (fun _ => rfl) hbra'
    | false =>
      refine (hnext _ _ _ (hpath j hj) (hbra'.take hbra hket)).imp fun bra'' hbra'' => ?_
      exact hbra''.before (fun _ _ => rfl) (fun _ _ => rfl)

/-- Whether a place is skipped since what is next does not begin with its character. -/
def skipped (line : List Byte) (first : Option Byte) (lp : Nat) : Bool :=
  first.any fun c => decide (byteAt line lp ≠ c)

omit hfill in
theorem skips_eq (first : Option Byte) (hlp : lp ≤ line.length) :
    skips line first lp = .ok (skipped line first lp) := by
  cases first with
  | none => rfl
  | some c => exact bind_of_ok (read_le hlp) rfl

omit hfill in
theorem code_cons (it : Item) : ∃ op args, it.code = op :: args := by
  cases it with
  | one a star => exact ⟨_, _, rfl⟩
  | bra k => exact ⟨_, _, rfl⟩
  | ket k => exact ⟨_, _, rfl⟩
  | dol => exact ⟨_, _, rfl⟩

omit hfill in
theorem code_chr {op : Byte} {args : List Byte} (hcode : it.code = op :: args) (hop : op = CCHR) :
    ∃ c, it = .one (.chr c) false := by
  subst hop
  have hhead : it.code.headD 0 = CCHR := congrArg (List.headD · 0) hcode
  cases it with
  | bra k => exact absurd (show CBRA = CCHR from hhead) (by decide)
  | ket k => exact absurd (show CKET = CCHR from hhead) (by decide)
  | dol => exact absurd (show CDOL = CCHR from hhead) (by decide)
  | one a star =>
    cases star with
    | true =>
      cases a with
      | chr c => exact absurd (show CCHR ||| STAR = CCHR from hhead) (by decide)
      | dot => exact absurd (show CDOT ||| STAR = CCHR from hhead) (by decide)
      | ccl map => exact absurd (show CCL ||| STAR = CCHR from hhead) (by decide)
      | back k => exact absurd (show CBACK ||| STAR = CCHR from hhead) (by decide)
    | false =>
      cases a with
      | chr c => exact ⟨c, rfl⟩
      | dot => exact absurd (show CDOT ||| 0 = CCHR from hhead) (by decide)
      | ccl map => exact absurd (show CCL ||| 0 = CCHR from hhead) (by decide)
      | back k => exact absurd (show CBACK ||| 0 = CCHR from hhead) (by decide)

/-- A place is skipped when what is next does not read the line there. -/
theorem shortcut_spec (hitems : items = init ++ suf) : ∃ first, shortcut prog (code init).length = .ok first ∧
    ∀ lp caps, skipped line first lp = true →
      reads line suf lp caps = false ∧ stuck line suf lp caps = false := by
  subst hitems
  cases suf with
  | nil =>
    rw [List.append_nil] at hfill
    exact ⟨none, bind_of_ok hfill.fetch_end (if_neg (by decide)), fun _ _ h => absurd h Bool.false_ne_true⟩
  | cons it suf =>
    obtain ⟨op, args, hcode⟩ := code_cons it
    by_cases hop : op = CCHR
    · obtain ⟨c, rfl⟩ := code_chr hcode hop
      rw [code_plain] at hcode
      cases hcode
      refine ⟨some c, bind_of_ok (hfill.fetch_op (code_plain _)) ((if_pos rfl).trans
        (bind_of_ok (hfill.fetch_arg (code_plain _)) rfl)), fun lp caps hskip => ?_⟩
      have hne : byteAt line lp ≠ c := of_decide_eq_true hskip
      have hnone : choices line (.one (.chr c) false) lp caps = [] := if_neg (by
        rw [Atom.accepts, decide_eq_false hne]
        exact Bool.false_ne_true)
      exact ⟨reads_none hnone, stuck_none hnone rfl⟩
    · exact ⟨none, bind_of_ok (hfill.fetch_op hcode) (if_neg hop), fun _ _ h => absurd h Bool.false_ne_true⟩

theorem runs_star {a : Atom} (hitems : items = init ++ .one a true :: suf)
    (hnext : Runs prog line items (init ++ [.one a true]) suf) (hproper : a.Proper) (hback : ∀ k, a ≠ .back k) :
    Runs prog line items init (.one a true :: suf) := by
  intro lp caps bra hpath hholds
  obtain ⟨first, hshort, hskip⟩ := shortcut_spec hfill (show items = (init ++ [.one a true]) ++ suf by
    rw [hitems, List.append_assoc]
    rfl)
  rw [hitems] at hfill
  obtain ⟨m, hact, hlen, hall, hstop⟩ : ∃ m, act prog line lp (code init).length bra =
      .ok (.star (lp + m) lp ((code init).length + (Item.one a true).code.length)) ∧ lp + m ≤ line.length ∧
      (∀ j < m, a.accepts (byteAt line (lp + j)) = true) ∧ a.accepts (byteAt line (lp + m)) = false :=
    act_star hfill hproper hback hpath.le
  rw [← code_length_concat] at hact
  have hchoices : choices line (.one a true) lp caps =
      (List.range (m + 1)).reverse.map fun j => (lp + j, caps) := by
    rw [choices_star hback, repeats_eq (by omega) hall hstop]
  have hpath' : ∀ j ≤ m, Path line (init ++ [.one a true]) (lp + j) caps := fun j hj =>
    hpath.take (Nat.le_add_right lp j) (by omega) (fun _ => nofun) (fun _ => nofun) fun k star hk =>
      absurd (Item.one.inj hk).1 (hback k)
  cases m with
  | zero =>
    -- the atom takes nothing: what is next is not tried but gone on with
    rw [reads_one hchoices, stuck_one hchoices (endless_one hback true)]
    have hgo := (hnext _ _ _ (hpath' 0 (le_refl 0)) (hholds.take (fun _ => nofun) fun _ => nofun)).imp
      fun bra' hbra' => hbra'.before (fun _ _ => rfl) fun _ _ => rfl
    exact hgo.of_succ rfl fun n => bind_of_ok hact (if_pos rfl)
  | succ m =>
    have hdecide := tries_decide (fun j => lp + j) (fun j => skipped line first (lp + j)) hnext
      (fun _ => nofun) (fun _ => nofun) hchoices (endless_one hback true) hpath'
      (fun j _ hs => hskip (lp + j) caps hs) hholds
    refine hdecide.of_succ rfl fun n => bind_of_ok hact ((if_neg (by omega)).trans (bind_of_ok hshort ?_))
    rw [Nat.add_sub_cancel_left]
    exact tries_eq fun j hj => skips_eq first (hpath' j hj).le

theorem runs_backs {k : Nat} (hitems : items = init ++ .one (.back k) true :: suf)
    (hnext : Runs prog line items (init ++ [.one (.back k) true]) suf) (hk : k < NBRA)
    (hbra : Item.ket k ∈ init → Item.bra k ∈ init) (hnul : 0 ∉ line) :
    Runs prog line items init (.one (.back k) true :: suf) := by
  subst hitems
  intro lp caps bra hpath hholds
  rcases hholds.captured hpath hbra rfl with ⟨hcap, hstring⟩ | ⟨b, ct, hcap, hstring, hle, hket⟩
  · have hnone : choices line (.one (.back k) true) lp caps = [] := choices_back_none hstring true
    rw [reads_none hnone, stuck_none hnone (endless_back_none hstring true)]
    exact decides_ret (act_back_none hfill hk hcap) hholds
  · have hpathle := hpath.le
    have hact : act prog line lp (code init).length bra = .ok (.backs b ct ((code init).length + 2)) :=
      act_backs hfill hk hcap
    have hlen : (code init).length + 2 = (code (init ++ [.one (.back k) true])).length :=
      (code_length_concat init (.one (.back k) true)).symm
    rw [hlen] at hact
    have hends := endless_backs hstring
    by_cases hct : ct = 0
    · subst hct
      have hstuck : stuck line (.one (.back k) true :: suf) lp caps = true := by
        unfold stuck
        rw [hends]
        rfl
      rw [hstuck]
      refine ⟨fun h => absurd h.symm Bool.false_ne_true, fun _ n => ?_⟩
      cases n with
      | zero => rfl
      | succ n => exact bind_of_ok hact (bind_of_error (grow_empty b n))
    · have hin : b + ct ≤ line.length := by omega
      obtain ⟨m, hm, hall, hstop, hend⟩ := copies hnul hct hin hpath.le
      have hplace : ∀ j ≤ m, lp + j * ct ≤ line.length := fun j hj => by
        have := Nat.mul_le_mul_right ct hj
        omega
      have hcmp : ∀ j ≤ m, ecmp line ct b (lp + j * ct) = .ok (same line b ct (lp + j * ct)) := fun j hj =>
        (ecmp_same hnul hin (hplace j hj)).1
      have htrue : ∀ j < m, ecmp line ct b (lp + j * ct) = .ok true := fun j hj =>
        (hcmp j hj.le).trans (congrArg Except.ok (hall j hj))
      have hfalse : ecmp line ct b (lp + m * ct) = .ok false := (hcmp m (le_refl m)).trans
        (congrArg Except.ok hstop)
      have hchoices : choices line (.one (.back k) true) lp caps =
          (List.range (m + 1)).reverse.map fun j => (lp + j * ct, caps) := by
        rw [choices_backs hstring, repeats_eq hm hall hstop]
      have hdecide := tries_decide (fun j => lp + j * ct) (fun _ => false) hnext
        (fun _ => nofun) (fun _ => nofun) hchoices (by rw [hends]; exact beq_false_of_ne hct)
        (fun j hj => hpath.take (Nat.le_add_right lp _) (hplace j hj) (fun _ => nofun) (fun _ => nofun)
          fun i star hi => by
            cases hi
            exact hket)
        (fun _ _ hs => absurd hs Bool.false_ne_true) hholds
      -- the turns of both loops
      have hturns : Decides .endless (fun n => grow line b ct n lp >>= fun lp' => shrink (fun lp bra =>
          advance prog line n lp (code (init ++ [.one (.back k) true])).length bra) lp ct n lp' bra)
          (reads line (.one (.back k) true :: suf) lp caps) (stuck line (.one (.back k) true :: suf) lp caps)
          (Holds (init ++ .one (.back k) true :: suf) init caps) :=
        hdecide.of_large (m + 1) (fun n hn => bind_of_error (grow_less htrue (Nat.le_of_lt_succ hn)))
          fun n hn => bind_of_ok (grow_large htrue hfalse hn) (shrink_eq hct hn)
      exact hturns.of_succ rfl fun n => bind_of_ok hact rfl

/-- From behind any number of its items on, a program ends with whether the others read the line, unless
they get stuck. -/
theorem runs (hprog : Program items) (hnul : 0 ∉ line) (hitems : items = init ++ suf) :
    Runs prog line items init suf := by
  induction suf generalizing init with
  | nil => exact runs_end hfill (hitems.trans (List.append_nil init))
  | cons it suf ih =>
    have hnext : Runs prog line items (init ++ [it]) suf := ih (hitems.trans (by
      rw [List.append_assoc]
      rfl))
    have hproper : it.Proper := hprog.proper it (by
      rw [hitems]
      exact List.mem_append_right init List.mem_cons_self)
    obtain ⟨b, b', hordered, hb⟩ : ∃ b b', Ordered init b ∧ it.brackets b = some b' := by
      rw [hitems] at hprog
      exact hprog.in_front
    have hpair : ∀ k, Item.ket k ∈ init → Item.bra k ∈ init := fun k hk =>
      (hordered.bra k).mpr ((hordered.ket k).mp hk).1
    cases it with
    | dol => exact runs_dol hfill hitems hnext hnul
    | bra k =>
      have hopen : (if k = b.2.1 ∧ k < NBRA then some (k :: b.1, b.2.1 + 1, b.2.2) else none) = some b' := hb
      obtain ⟨⟨hk, hlt⟩, -⟩ := Option.ite_none_right_eq_some.mp hopen
      exact runs_bra hfill hitems hnext hlt (fun h => hk.not_lt ((hordered.bra k).mp h)) fun h =>
        hk.not_lt ((hordered.ket k).mp h).1
    | ket k =>
      obtain ⟨st, n, c⟩ := b
      cases st with
      | nil => cases hb
      | cons j st =>
        have hclose : (if k = j then some (st, n, c + 1) else none) = some b' := hb
        obtain ⟨rfl, -⟩ := Option.ite_none_right_eq_some.mp hclose
        have hlt := hordered.lt k List.mem_cons_self
        exact runs_ket hfill hitems hnext (lt_of_lt_of_le hlt hordered.le) ((hordered.bra k).mpr hlt) fun h =>
          ((hordered.ket k).mp h).2 List.mem_cons_self
    | one a star =>
      by_cases hback : ∃ k, a = .back k
      · obtain ⟨k, rfl⟩ := hback
        have hclosed : (if k < b.2.2 then some b else none) = some b' := hb
        obtain ⟨hlt, -⟩ := Option.ite_none_right_eq_some.mp hclosed
        have hsum := hordered.sum
        have hk : k < NBRA := lt_of_lt_of_le (by omega) hordered.le
        cases star with
        | false => exact runs_back hfill hitems hnext hk (hpair k) hnul
        | true => exact runs_backs hfill hitems hnext hk (hpair k) hnul
      · have hback : ∀ k, a ≠ .back k := fun k hk => hback ⟨k, hk⟩
        cases star with
        | false => exact runs_one hfill hitems hnext hproper hback
        | true => exact runs_star hfill hitems hnext hproper hback

end

/-! ## `advance` -/

/-- What the calls so far can have left in the arrays of brackets. -/
inductive Left (prog : Bytes ESIZE) : Bra → Prop where
  | start : Left prog .none
  | call {bra bra' : Bra} {line : CString} {lp n : Nat} {r : Bool} : Left prog bra → lp ≤ line.val.length →
    advance prog line.val n lp 0 bra = .ok (r, bra') → Left prog bra'

theorem path_start (hlp : lp ≤ line.length) : Path line [] lp .none :=
  ⟨hlp, fun _ _ _ h => absurd (List.getElem?_nil.symm.trans h) (nofun), fun _ h => absurd h List.not_mem_nil,
    fun _ h => absurd h List.not_mem_nil,
    fun _ _ => rfl⟩

theorem Left.holds (hprog : Program items) (hfill : Filled prog (code items ++ [CEOF])) (h : Left prog bra) :
    Holds items [] .none bra := by
  induction h with
  | start => exact ⟨fun _ _ => rfl, fun _ _ => rfl, fun _ _ => rfl⟩
  | @call bra bra' line lp n r _ hlp hcall ih =>
    have hdecide := runs hfill hprog line.property (List.nil_append items).symm lp .none bra (path_start hlp) ih
    rcases hdecide.ok_or (fun n => advance_below n lp 0 bra) n with hout | ⟨-, s, hok, hs⟩
    · exact absurd (hout.symm.trans hcall) (nofun)
    · obtain ⟨-, rfl⟩ := Prod.mk.inj (Except.ok.inj (hok.symm.trans hcall))
      exact hs

/-- A call ends with whether the items read the line, unless it gets stuck. -/
theorem Left.decides (hprog : Program items) (hfill : Filled prog (code items ++ [CEOF])) (h : Left prog bra)
    (line : CString) (hlp : lp ≤ line.val.length) :
    Decides .endless (fun n => advance prog line.val n lp 0 bra) (reads line.val items lp .none)
      (stuck line.val items lp .none) (Holds items [] .none) :=
  runs hfill hprog line.property (List.nil_append items).symm lp .none bra (path_start hlp)
    (h.holds hprog hfill)

/-- For what `compile` accepts, `advance` comes to an end exactly when no starred back reference to an empty
string is met before the items have read the line. -/
theorem advance_ends_iff {pat : CString} {bracket : Bytes NBRA} {circf : Bool} {prog : Bytes ESIZE}
    (h : compile pat.val bracket = .ok (some (circf, prog))) :
    ∃ items, Program items ∧ Filled prog (code items ++ [CEOF]) ∧
      ∀ bra, Left prog bra → ∀ (line : CString) (lp : Nat), lp ≤ line.val.length →
        ((∃ n r, advance prog line.val n lp 0 bra = .ok r) ↔ stuck line.val items lp .none = false) := by
  obtain ⟨items, hprog, hfill⟩ := compile_complete h
  refine ⟨items, hprog, hfill, fun bra hleft line lp hlp => ?_⟩
  have hdecide := hleft.decides hprog hfill line hlp
  constructor
  · rintro ⟨n, r, hrun⟩
    rcases hdecide.ok_or (fun n => advance_below n lp 0 bra) n with hout | ⟨hstuck, -⟩
    · exact absurd (hout.symm.trans hrun) (nofun)
    · exact hstuck
  · intro hstuck
    obtain ⟨s, hends, -⟩ := hdecide.ends hstuck
    obtain ⟨n, hn⟩ := hends.exists_ok
    exact ⟨n, _, hn⟩

def accepted : Except Fault (Option (Bool × Bytes ESIZE)) → Option (Bytes ESIZE)
  | .ok (some (_, prog)) => some prog
  | _ => none

theorem exists_of_accepted {r : Except Fault (Option (Bool × Bytes ESIZE))} {p : Bytes ESIZE → Bool}
    (h : (accepted r).any p = true) : ∃ circf prog, r = .ok (some (circf, prog)) ∧ p prog = true := by
  cases r with
  | error e => cases h
  | ok r =>
    cases r with
    | none => cases h
    | some r => exact ⟨r.1, r.2, rfl, h⟩

/-- `\(a\)\1*` -/
def repeatedPattern : CString := ⟨"\\(a\\)\\1*".toList.map chr, by decide⟩

theorem advance_ends_repeated : ∃ circf prog, compile repeatedPattern.val (fun _ => 0) =
    .ok (some (circf, prog)) ∧
    ∃ items, Program items ∧ Filled prog (code items ++ [CEOF]) ∧
      ∀ bra, Left prog bra → ∀ (line : CString) (lp : Nat), lp ≤ line.val.length →
        ((∃ n r, advance prog line.val n lp 0 bra = .ok r) ↔ stuck line.val items lp .none = false) := by
  obtain ⟨circf, prog, hcompile, -⟩ :=
    exists_of_accepted (r := compile repeatedPattern.val (fun _ => 0)) (p := fun _ => true) (by decide)
  exact ⟨circf, prog, hcompile, advance_ends_iff hcompile⟩

/-- `\(\)\1*` -/
def emptyPattern : CString := ⟨"\\(\\)\\1*".toList.map chr, by decide⟩

/-- An empty string is repeated without end on every line. -/
theorem advance_endless : ∃ circf prog, compile emptyPattern.val (fun _ => 0) = .ok (some (circf, prog)) ∧
    ∀ n, advance prog [chr 'a'] n 0 0 .none = .error .endless := by
  let items : List Item := [.bra 0, .ket 0, .one (.back 0) true]
  obtain ⟨circf, prog, hcompile, hget⟩ :=
    exists_of_accepted (r := compile emptyPattern.val (fun _ => 0))
      (p := fun prog => decide (∀ i < ESIZE, prog.get i = (code items ++ [CEOF]).getD i 0)) (by decide +kernel)
  have hprog : Program items := by
    refine ⟨fun it hit => ?_, _, rfl⟩
    rcases List.mem_cons.mp hit with rfl | hit
    · trivial
    rcases List.mem_cons.mp hit with rfl | hit
    · trivial
    rw [List.mem_singleton.mp hit]
    trivial
  have hfill : Filled prog (code items ++ [CEOF]) := ⟨by decide, of_decide_eq_true hget⟩
  exact ⟨circf, prog, hcompile,
    (Left.start.decides hprog hfill ⟨[chr 'a'], by decide⟩ (Nat.zero_le _)).endless (by decide)⟩

end Venix.Grep
