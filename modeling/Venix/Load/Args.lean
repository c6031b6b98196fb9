/-
  The stack that a C program starts with.

  `crt0` is what the start-up code (`crt0.s`) makes of the stack, and `Agrees` that it finds the
  arguments and an empty environment. `Laid` is a stack as the loaders lay it, with offsets in the
  segment as numbers: the count, the addresses of the strings, and zero; `Laid.agrees_iff` says
  that it agrees if the word after that zero is zero too. `strMem` is how the strings get there.
-/
import Venix.Load.Exec

namespace Venix.Load

open Venix.Lib

/-! ## The start-up code -/

/-- The word at `a` of a segment. -/
def word (m : BitVec 16 → Byte) (a : BitVec 16) : BitVec 16 := m (a + 1) ++ m a

/-- The loop `L000`, which looks for a word of zero after `si`. -/
def findZero (m : BitVec 16 → Byte) : Nat → BitVec 16 → Option (BitVec 16)
  | 0, _ => none
  | n + 1, si =>
    let si := si + 2
    if word m si = 0 then some si else findZero m n si

/-- What `main` is called with: `argc`, `argv` and `envp`. The loop has seen the whole segment
    after 32 K words. -/
def crt0 (m : BitVec 16 → Byte) (sp : BitVec 16) : Option (BitVec 16 × BitVec 16 × BitVec 16) :=
  (findZero m 0x8000 sp).map fun si => (word m sp, sp + 2, si + 2)

/-- The string `s` is at `a`. -/
def StrAt (m : BitVec 16 → Byte) : BitVec 16 → List Byte → Prop
  | a, [] => m a = 0
  | a, c :: s => c ≠ 0 ∧ m a = c ∧ StrAt m (a + 1) s

/-- The words from `p` on are the addresses of the strings of `l`, and zero. -/
def VecAt (m : BitVec 16 → Byte) : BitVec 16 → List (List Byte) → Prop
  | p, [] => word m p = 0
  | p, s :: l => word m p ≠ 0 ∧ StrAt m (word m p) s ∧ VecAt m (p + 2) l

/-- The start-up code finds the arguments and no environment. -/
def Agrees (m : BitVec 16 → Byte) (sp : BitVec 16) (args : List (List Byte)) : Prop :=
  ∃ argc argv envp, crt0 m sp = some (argc, argv, envp) ∧ argc = BitVec.ofNat 16 args.length ∧
    VecAt m argv args ∧ VecAt m envp []

/-! ## A stack as it is laid -/

/-- A segment by the numbers of its bytes. -/
def seg (F : Nat → Byte) : BitVec 16 → Byte := fun a => F a.toNat

def wordN (F : Nat → Byte) (a : Nat) : BitVec 16 := F (a + 1) ++ F a

theorem toNat_ofNat_lt {a : Nat} (h : a < 65536) : (BitVec.ofNat 16 a).toNat = a := by
  rw [BitVec.toNat_ofNat, Nat.mod_eq_of_lt h]

theorem ofNat_add_one (a : Nat) : BitVec.ofNat 16 a + 1 = BitVec.ofNat 16 (a + 1) :=
  (BitVec.ofNat_add a 1).symm

theorem ofNat_add_two (a : Nat) : BitVec.ofNat 16 a + 2 = BitVec.ofNat 16 (a + 2) :=
  (BitVec.ofNat_add a 2).symm

theorem word_seg (F : Nat → Byte) {a : Nat} (h : a + 1 < 65536) :
    word (seg F) (BitVec.ofNat 16 a) = wordN F a := by
  unfold word seg wordN
  rw [ofNat_add_one, toNat_ofNat_lt h, toNat_ofNat_lt (by omega)]

/-- The string `s` and its 0 are at `p`. -/
def StrN (F : Nat → Byte) (p : Nat) (s : List Byte) : Prop :=
  ∀ j (h : j < (s ++ [0]).length), F (p + j) = (s ++ [0])[j]

theorem StrN.tail {F : Nat → Byte} {p : Nat} {c : Byte} {s : List Byte} (h : StrN F p (c :: s)) :
    StrN F (p + 1) s := by
  intro j hj
  have := h (j + 1) (by simpa using hj)
  rw [Nat.add_assoc, Nat.add_comm 1 j, this]
  rfl

theorem StrN.strAt {F : Nat → Byte} (s : List Byte) : ∀ p : Nat, StrN F p s → 0 ∉ s →
    p + s.length < 65536 → StrAt (seg F) (BitVec.ofNat 16 p) s := by
  induction s with
  | nil =>
    intro p h _ hp
    have := h 0 (by simp)
    rw [StrAt, seg, toNat_ofNat_lt (show p < 65536 from hp)]
    exact this
  | cons c s ih =>
    intro p h h0 hp
    rw [List.length_cons] at hp
    rw [List.mem_cons, not_or] at h0
    have hc := h 0 (by simp)
    refine ⟨Ne.symm h0.1, ?_, ?_⟩
    · rw [seg, toNat_ofNat_lt (by omega)]
      exact hc
    · rw [ofNat_add_one]
      exact ih (p + 1) h.tail h0.2 (by omega)

/-- The words of `ws` are at `p`. -/
def WordsN (F : Nat → Byte) : Nat → List (BitVec 16) → Prop
  | _, [] => True
  | p, w :: ws => wordN F p = w ∧ WordsN F (p + 2) ws

/-- The count at `c`, then the addresses of the strings, and zero. -/
structure Laid (F : Nat → Byte) (c : Nat) (args : List (List Byte)) (ps : List Nat) : Prop where
  count : wordN F c = BitVec.ofNat 16 args.length
  words : WordsN F (c + 2) (ps.map (BitVec.ofNat 16) ++ [0])
  strs : List.Forall₂ (fun p s => 0 < p ∧ p + s.length < 65536 ∧ StrN F p s) ps args
  nul : ∀ s ∈ args, 0 ∉ s
  fits : c + 2 * args.length + 6 ≤ 65536

section Laid

variable {F : Nat → Byte}

/-- The loop stops at the zero after the addresses. -/
theorem findZero_words (ps : List Nat) : ∀ (c n : Nat), ps.length < n →
    WordsN F (c + 2) (ps.map (BitVec.ofNat 16) ++ [0]) → (∀ p ∈ ps, 0 < p ∧ p < 65536) →
    c + 2 * ps.length + 4 ≤ 65536 →
    findZero (seg F) n (BitVec.ofNat 16 c) = some (BitVec.ofNat 16 (c + 2 * ps.length + 2)) := by
  induction ps with
  | nil =>
    intro c n hn hw _ hc
    obtain ⟨n, rfl⟩ : ∃ k, n = k + 1 := ⟨n - 1, by simp at hn; omega⟩
    rw [List.length_nil] at hc ⊢
    rw [findZero, ofNat_add_two, word_seg F (by omega), if_pos hw.1]
  | cons p ps ih =>
    intro c n hn hw hpos hc
    rw [List.length_cons] at hn hc ⊢
    obtain ⟨n, rfl⟩ : ∃ k, n = k + 1 := ⟨n - 1, by omega⟩
    obtain ⟨hp, hlt⟩ := hpos p List.mem_cons_self
    obtain ⟨hw1, hws⟩ := hw
    have hne : BitVec.ofNat 16 p ≠ 0 := by
      intro h0
      have := congrArg BitVec.toNat h0
      rw [toNat_ofNat_lt hlt] at this
      simp at this
      omega
    rw [findZero, ofNat_add_two, word_seg F (by omega), hw1, if_neg hne,
      ih (c + 2) n (by omega) hws (fun q hq => hpos q (List.mem_cons_of_mem _ hq)) (by omega)]
    congr 2
    omega

theorem vecAt_words {args : List (List Byte)} {ps : List Nat}
    (h : List.Forall₂ (fun p s => 0 < p ∧ p + s.length < 65536 ∧ StrN F p s) ps args) :
    ∀ c : Nat, WordsN F c (ps.map (BitVec.ofNat 16) ++ [0]) → (∀ s ∈ args, 0 ∉ s) →
    c + 2 * args.length + 2 ≤ 65536 → VecAt (seg F) (BitVec.ofNat 16 c) args := by
  induction h with
  | nil =>
    intro c hw _ hc
    rw [List.length_nil] at hc
    rw [VecAt, word_seg F (by omega)]
    exact hw.1
  | @cons p s ps args hps _ ih =>
    intro c hw hnul hc
    rw [List.length_cons] at hc
    obtain ⟨hp, hlt, hstr⟩ := hps
    obtain ⟨hw1, hws⟩ := hw
    have hne : BitVec.ofNat 16 p ≠ 0 := by
      intro h0
      have := congrArg BitVec.toNat h0
      rw [toNat_ofNat_lt (by omega)] at this
      simp at this
      omega
    rw [VecAt, word_seg F (by omega), hw1, ofNat_add_two]
    exact ⟨hne, hstr.strAt s p (hnul s List.mem_cons_self) hlt,
      ih (c + 2) hws (fun t ht => hnul t (List.mem_cons_of_mem _ ht)) (by omega)⟩

/-- A stack agrees with its arguments if the word after the zero is zero. -/
theorem Laid.agrees_iff {c : Nat} {args : List (List Byte)} {ps : List Nat}
    (h : Laid F c args ps) :
    Agrees (seg F) (BitVec.ofNat 16 c) args ↔ wordN F (c + 2 * args.length + 4) = 0 := by
  have hlen := h.strs.length_eq
  have hfits := h.fits
  have hrange : ∀ p ∈ ps, 0 < p ∧ p < 65536 := by
    intro p hp
    obtain ⟨i, hi, rfl⟩ := List.mem_iff_getElem.mp hp
    have := (List.forall₂_iff_get.mp h.strs).2 i hi (by omega)
    simp only [List.get_eq_getElem] at this
    omega
  have hfind := findZero_words ps c 0x8000 (by omega) h.words hrange (by omega)
  have hcrt : crt0 (seg F) (BitVec.ofNat 16 c) = some (BitVec.ofNat 16 args.length,
      BitVec.ofNat 16 (c + 2), BitVec.ofNat 16 (c + 2 * args.length + 4)) := by
    unfold crt0
    rw [hfind, Option.map_some, word_seg F (by omega), h.count, ofNat_add_two, ofNat_add_two, hlen]
  have hvec := vecAt_words h.strs (c + 2) h.words h.nul (by omega)
  unfold Agrees
  rw [hcrt, ← word_seg F (by omega)]
  constructor
  · rintro ⟨argc, argv, envp, heq, -, -, henv⟩
    cases heq
    exact henv
  · intro henv
    exact ⟨_, _, _, rfl, rfl, hvec, henv⟩

end Laid

/-! ## The strings -/

/-- Where a string pushed from `sp` on goes. -/
def below (sp : Nat) (s : List Byte) : Nat := (sp - (s.length + 1)) / 2 * 2

/-- The stack pointer after the strings. -/
def bottom : Nat → List (List Byte) → Nat
  | sp, [] => sp
  | sp, s :: rest => bottom (below sp s) rest

/-- The addresses of the strings. -/
def ptrs : Nat → List (List Byte) → List Nat
  | _, [] => []
  | sp, s :: rest => below sp s :: ptrs (below sp s) rest

/-- The memory with the strings. -/
def strMem (F : Nat → Byte) : Nat → List (List Byte) → (Nat → Byte)
  | _, [] => F
  | sp, s :: rest => strMem (store F (below sp s) (s ++ [0])) (below sp s) rest

theorem below_le (sp : Nat) (s : List Byte) : below sp s ≤ sp := by
  unfold below
  omega

/-- A string that has room is below the stack pointer. -/
theorem below_room {sp : Nat} {s : List Byte} (h : 0 < below sp s) :
    below sp s + (s.length + 1) ≤ sp := by
  unfold below at h ⊢
  omega

theorem bottom_le (args : List (List Byte)) : ∀ sp, bottom sp args ≤ sp := by
  induction args with
  | nil => exact fun sp => Nat.le_refl sp
  | cons s rest ih => exact fun sp => Nat.le_trans (ih _) (below_le sp s)

theorem ptrs_length (args : List (List Byte)) : ∀ sp, (ptrs sp args).length = args.length := by
  induction args with
  | nil => exact fun _ => rfl
  | cons s rest ih =>
    intro sp
    rw [ptrs, List.length_cons, List.length_cons, ih]

theorem strMem_above (args : List (List Byte)) : ∀ (F : Nat → Byte) (sp x : Nat),
    0 < bottom sp args → sp ≤ x → strMem F sp args x = F x := by
  induction args with
  | nil => exact fun _ _ _ _ _ => rfl
  | cons s rest ih =>
    intro F sp x h hx
    rw [bottom] at h
    have hpos : 0 < below sp s := Nat.lt_of_lt_of_le h (bottom_le rest _)
    have hroom := below_room hpos
    rw [strMem, ih _ _ x h (by omega),
      store_above _ _ (by rw [List.length_append, List.length_singleton]; omega)]

/-- The strings are there, in any memory that is the same from the bottom up. -/
theorem strMem_strs {G : Nat → Byte} (args : List (List Byte)) : ∀ (F : Nat → Byte) (sp : Nat),
    0 < bottom sp args → sp ≤ 65535 →
    (∀ x, bottom sp args ≤ x → G x = strMem F sp args x) →
    List.Forall₂ (fun p s => 0 < p ∧ p + s.length < 65536 ∧ StrN G p s) (ptrs sp args) args := by
  induction args with
  | nil => exact fun _ _ _ _ _ => List.Forall₂.nil
  | cons s rest ih =>
    intro F sp h hsp hG
    rw [bottom] at h hG
    have hle := bottom_le rest (below sp s)
    have hpos : 0 < below sp s := Nat.lt_of_lt_of_le h hle
    have hroom := below_room hpos
    refine List.Forall₂.cons ⟨hpos, by omega, ?_⟩ (ih _ _ h (by omega) hG)
    intro j hj
    rw [hG _ (by omega), strMem, strMem_above rest _ _ _ h (Nat.le_add_right _ _),
      store_add _ _ _ hj]

theorem wordBytes_append (w : BitVec 16) :
    ((w >>> 8).truncate 8 : Byte) ++ (w.truncate 8 : Byte) = w := by
  apply BitVec.eq_of_getLsbD_eq
  intro i hi
  rw [BitVec.getLsbD_append, BitVec.truncate_eq_setWidth, BitVec.truncate_eq_setWidth,
    BitVec.getLsbD_setWidth, BitVec.getLsbD_setWidth, BitVec.getLsbD_ushiftRight]
  by_cases h8 : i < 8
  · simp [h8]
  · have hsub : i - 8 < 8 := by omega
    simp [h8, hsub, Nat.add_sub_cancel' (Nat.not_lt.mp h8)]

theorem words_store (ws : List (BitVec 16)) : ∀ (F : Nat → Byte) (p : Nat),
    WordsN (store F p (ws.flatMap wordBytes)) p ws := by
  induction ws with
  | nil => exact fun _ _ => trivial
  | cons w ws ih =>
    intro F p
    rw [List.flatMap_cons, store_append]
    refine ⟨?_, ih _ _⟩
    have hlen : (wordBytes w).length = 2 := rfl
    rw [wordN, hlen, store_below _ (ws.flatMap wordBytes) (show p + 1 < p + 2 by omega),
      store_below _ (ws.flatMap wordBytes) (show p < p + 2 by omega)]
    have h0 := store_add F p (wordBytes w) (k := 0) (by rw [hlen]; decide)
    have h1 := store_add F p (wordBytes w) (k := 1) (by rw [hlen]; decide)
    rw [Nat.add_zero] at h0
    rw [h0, h1]
    exact wordBytes_append w

theorem words_append {F : Nat → Byte} (l l' : List (BitVec 16)) : ∀ p, WordsN F p (l ++ l') ↔
    WordsN F p l ∧ WordsN F (p + 2 * l.length) l' := by
  induction l with
  | nil =>
    intro p
    exact ⟨fun h => ⟨trivial, h⟩, fun h => h.2⟩
  | cons w l ih =>
    intro p
    rw [List.cons_append, WordsN, WordsN, ih, List.length_cons, and_assoc,
      show p + 2 * (l.length + 1) = p + 2 + 2 * l.length by omega]

/-! ## The whole stack -/

/-- The stack pointer that the program starts with. -/
def stackTop (sp : Nat) (args : List (List Byte)) (extra : List (BitVec 16)) : Nat :=
  bottom sp args / 2 * 2 - 2 * (args.length + 2 + extra.length)

/-- The words on the stack: the count, the addresses, zero and `extra`. -/
def stackWords (sp : Nat) (args : List (List Byte)) (extra : List (BitVec 16)) :
    List (BitVec 16) :=
  BitVec.ofNat 16 args.length :: ((ptrs sp args).map (BitVec.ofNat 16) ++ [0] ++ extra)

/-- The memory with the strings and the words. -/
def stackMem (F : Nat → Byte) (sp : Nat) (args : List (List Byte)) (extra : List (BitVec 16)) :
    Nat → Byte :=
  store (strMem F sp args) (stackTop sp args extra) ((stackWords sp args extra).flatMap wordBytes)

theorem flatMap_wordBytes_length (ws : List (BitVec 16)) :
    (ws.flatMap wordBytes).length = 2 * ws.length := by
  induction ws with
  | nil => rfl
  | cons w ws ih =>
    rw [List.flatMap_cons, List.length_append, ih, List.length_cons]
    unfold wordBytes
    simp only [List.length_cons, List.length_nil]
    omega

section Stack

variable {F : Nat → Byte} {sp : Nat} {args : List (List Byte)} {extra : List (BitVec 16)}

theorem stackWords_length :
    (stackWords sp args extra).length = args.length + 2 + extra.length := by
  unfold stackWords
  simp only [List.length_cons, List.length_append, List.length_map, ptrs_length, List.length_nil]
  omega

/-- The words end where the strings begin. -/
theorem stackMem_above (hroom : 2 * (args.length + 2 + extra.length) ≤ bottom sp args / 2 * 2)
    {x : Nat} (hx : bottom sp args / 2 * 2 ≤ x) :
    stackMem F sp args extra x = strMem F sp args x := by
  unfold stackMem
  rw [store_above]
  rw [flatMap_wordBytes_length, stackWords_length]
  unfold stackTop
  omega

theorem laid_stackMem (hroom : 2 * (args.length + 2 + extra.length) ≤ bottom sp args / 2 * 2)
    (hsp : sp ≤ 65535) (hnul : ∀ s ∈ args, 0 ∉ s) :
    Laid (stackMem F sp args extra) (stackTop sp args extra) args (ptrs sp args) := by
  have hle := bottom_le args sp
  have hwords : WordsN (stackMem F sp args extra) (stackTop sp args extra)
      (stackWords sp args extra) := words_store _ _ _
  obtain ⟨hcount, hrest⟩ := hwords
  refine ⟨hcount, ((words_append _ _ _).mp hrest).1, ?_, hnul, ?_⟩
  · exact strMem_strs args F sp (by omega) hsp (fun x hx => stackMem_above hroom (by omega))
  · unfold stackTop
    omega

/-- With a second zero the stack agrees. -/
theorem agrees_terminated (hroom : 2 * (args.length + 3) ≤ bottom sp args / 2 * 2)
    (hsp : sp ≤ 65535) (hnul : ∀ s ∈ args, 0 ∉ s) :
    Agrees (seg (stackMem F sp args [0])) (BitVec.ofNat 16 (stackTop sp args [0])) args := by
  have hlaid : Laid (stackMem F sp args [0]) (stackTop sp args [0]) args (ptrs sp args) :=
    laid_stackMem (by simpa using hroom) hsp hnul
  rw [hlaid.agrees_iff]
  have hwords : WordsN (stackMem F sp args [0]) (stackTop sp args [0])
      (stackWords sp args [0]) := words_store _ _ _
  have hlast := ((words_append _ _ _).mp hwords.2).2.1
  rw [List.length_append, List.length_map, ptrs_length, List.length_singleton] at hlast
  rw [show stackTop sp args [0] + 2 * args.length + 4 =
    stackTop sp args [0] + 2 + 2 * (args.length + 1) by omega]
  exact hlast

theorem low_zero {hi lo : Byte} (h : hi ++ lo = (0 : BitVec 16)) : lo = 0 := by
  apply BitVec.eq_of_getLsbD_eq
  intro i hi'
  have := congrArg (BitVec.getLsbD · i) h
  rw [BitVec.getLsbD_append] at this
  simpa [hi'] using this

/-- The word where the strings begin is zero only if the last string is empty. -/
theorem last_word {lo : Nat} (args : List (List Byte)) : ∀ (F : Nat → Byte) (sp : Nat),
    args ≠ [] → 0 < bottom sp args → lo ≤ bottom sp args →
    (∀ x, lo ≤ x → x < (sp + 1) / 2 * 2 → F x = 0) → (∀ s ∈ args, 0 ∉ s) →
    (wordN (strMem F sp args) (bottom sp args / 2 * 2) = 0 ↔ args.getLast? = some []) := by
  induction args with
  | nil => exact fun _ _ h => absurd rfl h
  | cons s rest ih =>
    intro F sp _ hpos hlo hzero hnul
    have heven : below sp s / 2 * 2 = below sp s := by
      unfold below
      omega
    by_cases hrest : rest = []
    · subst hrest
      rw [bottom, bottom] at hpos hlo ⊢
      rw [heven, strMem, strMem]
      have hroom := below_room hpos
      rw [List.getLast?_singleton, Option.some_inj]
      cases s with
      | nil =>
        -- the byte next to the 0 was never written
        have h0 : store F (below sp []) [0] (below sp []) = 0 := by
          have := store_add F (below sp []) [(0 : Byte)] (k := 0) (by simp)
          rwa [Nat.add_zero] at this
        have h1 : store F (below sp []) [0] (below sp [] + 1) = 0 := by
          rw [store_above _ _ (by rw [List.length_singleton])]
          refine hzero _ (by omega) ?_
          unfold below
          rw [List.length_nil]
          unfold below at hpos
          rw [List.length_nil] at hpos
          omega
        rw [List.nil_append, wordN, h0, h1]
        exact iff_of_true rfl rfl
      | cons c t =>
        have h0 : store F (below sp (c :: t)) (c :: t ++ [0]) (below sp (c :: t)) = c := by
          have := store_add F (below sp (c :: t)) (c :: t ++ [0]) (k := 0) (by simp)
          rw [Nat.add_zero] at this
          exact this
        have hc : c ≠ 0 := by
          rintro rfl
          exact hnul _ List.mem_cons_self List.mem_cons_self
        rw [wordN, h0]
        refine iff_of_false (fun hw => hc ?_) (by simp)
        exact low_zero hw
    · have hrest' : (s :: rest).getLast? = rest.getLast? := by
        obtain ⟨t, ts, rfl⟩ := List.exists_cons_of_ne_nil hrest
        rfl
      rw [bottom] at hpos hlo ⊢
      rw [strMem, hrest']
      refine ih _ _ hrest hpos hlo ?_ (fun t ht => hnul t (List.mem_cons_of_mem _ ht))
      intro x h1 h2
      have hb := below_le sp s
      rw [store_below _ _ (by omega)]
      exact hzero x h1 (by omega)

end Stack

end Venix.Load
