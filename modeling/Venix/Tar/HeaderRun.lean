/-
  The header that is written against the one that is read.

  `putChecksum` prints the sum in the six places of its field as long as it is not negative. A
  negative sum is printed with eleven digits, the last of which go into the fields that follow, and
  the header is rejected.

  Proved: a file's header is accepted, and read back as it was written, exactly when the signed
  characters of its name add up to no less than the other fields can make up for.
-/
import Venix.Tar.Header

namespace Venix.Tar

open Venix.Lib

/-! ## Parts of a block -/

theorem Block.poke_eq {b : Block} {A B C : List Int8} (off : Nat) (l : List Int8) (hb : b.bytes = A ++ B ++ C)
    (hA : A.length = off) (hB : B.length = l.length) :
    ∃ b', b.poke off l = some b' ∧ b'.bytes = A ++ l ++ C := by
  have hfull := b.full
  rw [hb, List.length_append, List.length_append] at hfull
  unfold Block.poke
  rw [dif_pos (by omega)]
  refine ⟨_, rfl, ?_⟩
  dsimp only
  rw [hb, ← hA, ← hB, ← List.length_append, List.drop_left, List.append_assoc A B C, List.take_left]

theorem Block.suffix_eq {b : Block} {A B : List Int8} {off : Nat} (hb : b.bytes = A ++ B)
    (hA : A.length = off) : b.suffix off = B := by
  unfold Block.suffix
  rw [hb, ← hA, List.drop_left]

theorem Block.suffix_name (b : Block) : b.suffix Block.name = b.bytes := rfl

@[simp] theorem total_nil : total [] = 0 := rfl

@[simp] theorem total_cons (c : Int8) (l : List Int8) : total (c :: l) = c.toInt + total l := by
  simp [total]

@[simp] theorem total_append (l m : List Int8) : total (l ++ m) = total l + total m := by
  simp [total]

@[simp] theorem total_replicate (n : Nat) (c : Int8) : total (List.replicate n c) = n * c.toInt := by
  simp [total]

theorem total_bounds (l : List Int8) : -128 * (l.length : Int) ≤ total l ∧ total l ≤ 127 * l.length := by
  induction l with
  | nil => simp
  | cons c l ih =>
    have h1 := c.le_toInt
    have h2 := c.toInt_lt
    rw [total_cons, List.length_cons]
    push_cast
    omega

/-! ## Numbers -/

theorem digit_toInt {d : Nat} (hd : d < 8) : (digit d).toInt = 48 + d := by
  unfold digit
  rw [Int8.toInt_ofNat_of_lt (by omega)]
  push_cast
  rfl

theorem isoctal_iff {c : Int8} : isoctal c = true ↔ 48 ≤ c.toInt ∧ c.toInt ≤ 55 := by
  have h1 : (48 : Int8).toInt = 48 := rfl
  have h2 : (55 : Int8).toInt = 55 := rfl
  unfold isoctal
  rw [decide_eq_true_iff, Int8.le_iff_toInt_le, Int8.le_iff_toInt_le, h1, h2]

theorem isoctal_digit {d : Nat} (hd : d < 8) : isoctal (digit d) = true := by
  rw [isoctal_iff, digit_toInt hd]
  omega

/-- The digits of a number, as they are printed. -/
def octal (n : Nat) : List Int8 := (numeral 8 n).map digit

theorem octal_isoctal (n : Nat) : ∀ c ∈ octal n, isoctal c = true := by
  intro c hc
  obtain ⟨d, hd, rfl⟩ := List.mem_map.mp hc
  exact isoctal_digit (numeral_lt (by decide) n d hd)

theorem octal_value (n : Nat) :
    ofNumeral 8 ((octal n).map fun c => (c - 48).toNatClampNeg) = n := by
  have hmap : (octal n).map (fun c => (c - 48).toNatClampNeg) = numeral 8 n := by
    unfold octal
    rw [List.map_map]
    refine (List.map_congr_left fun d hd => ?_).trans (List.map_id _)
    have hlt := numeral_lt (by decide) n d hd
    have h48 : (48 : Int8).toInt = 48 := rfl
    rw [Function.comp_apply, id, ← Int8.toNat_toInt, Int8.toInt_sub, digit_toInt hlt, h48,
      Int.bmod_eq_of_le] <;> omega
  rw [hmap, ofNumeral_numeral]

/-- The number is read back, whatever follows that is no digit. -/
theorem sscanf_octal (k n : Nat) {c : Int8} (hc : isoctal c = false) (rest : List Int8) :
    sscanf (List.replicate k 32 ++ octal n ++ c :: rest) = some n := by
  obtain ⟨x, xs, hx⟩ : ∃ x xs, octal n = x :: xs :=
    List.exists_cons_of_ne_nil (by simpa [octal] using numeral_ne_nil (b := 8) n)
  have hoct : 48 ≤ x.toInt ∧ x.toInt ≤ 55 :=
    isoctal_iff.mp (octal_isoctal n x (by rw [hx]; exact List.mem_cons_self))
  have hdrop : (List.replicate k 32 ++ octal n ++ c :: rest).dropWhile isspace =
      octal n ++ c :: rest := by
    rw [List.append_assoc, List.dropWhile_append_of_pos]
    · rw [hx, List.cons_append, List.dropWhile_cons_of_neg]
      have h32 : (32 : Int8).toInt = 32 := rfl
      have h9 : (9 : Int8).toInt = 9 := rfl
      have h13 : (13 : Int8).toInt = 13 := rfl
      unfold isspace
      rw [decide_eq_true_iff, ← Int8.toInt_inj, Int8.le_iff_toInt_le, Int8.le_iff_toInt_le, h32, h9,
        h13]
      omega
    · intro a ha
      rw [List.eq_of_mem_replicate ha]
      rfl
  have hhead : (octal n ++ c :: rest).head? = some x := by rw [hx]; rfl
  have hsign : x ≠ 43 ∧ x ≠ 45 := by
    constructor <;> rintro rfl
    · have : (43 : Int8).toInt = 43 := rfl
      omega
    · have : (45 : Int8).toInt = 45 := rfl
      omega
  have htake : (octal n ++ c :: rest).takeWhile isoctal = octal n := by
    rw [List.takeWhile_append_of_pos (octal_isoctal n), List.takeWhile_cons_of_neg (by simp [hc]),
      List.append_nil]
  have hne : octal n ≠ [] := by rw [hx]; simp
  unfold sscanf
  simp only [hdrop, hhead, Option.some.injEq, hsign.1, hsign.2, if_false, htake, hne, octal_value,
    one_mul]
  rfl

/-- A number in its field, with the blank after it. -/
def field (w n : Nat) : List Int8 := List.replicate (w - (octal n).length) 32 ++ octal n ++ [32]

theorem sprintf_blank (w n : Nat) : sprintf w n [32] = field w n ++ [0] := rfl

theorem octal_length {n k : Nat} (hk : 0 < k) (hn : n < 8 ^ k) : (octal n).length ≤ k := by
  unfold octal
  rw [List.length_map]
  exact numeral_length_le (by decide) hk hn

theorem field_length {w n : Nat} (hw : 0 < w) (hn : n < 8 ^ w) : (field w n).length = w + 1 := by
  have := octal_length hw hn
  unfold field
  simp only [List.length_append, List.length_replicate, List.length_singleton]
  omega

theorem scan_field (w n : Nat) (rest : List Int8) : sscanf (field w n ++ rest) = some n := by
  unfold field
  rw [List.append_assoc]
  exact sscanf_octal _ n (by decide) rest

/-- What the digits of a number add to the sum over blanks in their places. -/
def weight (n : Nat) : Int := ((numeral 8 n).map fun d : Nat => (16 + d : Int)).sum

theorem total_octal (n : Nat) : total (octal n) = 32 * (octal n).length + weight n := by
  unfold total octal weight
  rw [List.length_map, List.map_map]
  have hd := numeral_lt (b := 8) (by decide) n
  generalize numeral 8 n = l at hd
  induction l with
  | nil => rfl
  | cons d l ih =>
    rw [List.map_cons, List.map_cons, List.sum_cons, List.sum_cons, List.length_cons,
      ih fun e he => hd e (List.mem_cons_of_mem d he), Function.comp_apply,
      digit_toInt (hd d List.mem_cons_self)]
    push_cast
    ring

theorem total_field {w n : Nat} (hw : 0 < w) (hn : n < 8 ^ w) :
    total (field w n) = 32 * (w + 1) + weight n := by
  have hlen := octal_length hw hn
  have h32 : (32 : Int8).toInt = 32 := rfl
  unfold field
  rw [total_append, total_append, total_replicate, total_octal, total_cons, total_nil, h32]
  push_cast [Nat.cast_sub hlen]
  ring

/-! ## What is written -/

/-- The fields from `mode` to `mtime`. -/
def fields (sp : Stat) : List Int8 :=
  (field 6 (sp.st_mode &&& 0o7777).toNat ++ [0]) ++ (field 6 sp.st_uid.toNat ++ [0]) ++
    (field 6 sp.st_gid.toNat ++ [0]) ++ field 11 sp.st_size.toUInt64.toNat ++
    field 11 sp.st_mtime.toUInt64.toNat

/-- The numbers are within their fields. -/
structure Stat.Fits (sp : Stat) : Prop where
  uid : sp.st_uid.toNat < 8 ^ 6
  gid : sp.st_gid.toNat < 8 ^ 6
  size : 0 ≤ sp.st_size.toInt ∧ sp.st_size.toInt < 8 ^ 11
  mtime : 0 ≤ sp.st_mtime.toInt ∧ sp.st_mtime.toInt < 8 ^ 11

theorem mode_lt (m : UInt32) : (m &&& 0o7777).toNat < 8 ^ 6 := by
  have h : (m &&& 0o7777).toNat ≤ (0o7777 : UInt32).toNat := by
    rw [UInt32.toNat_and]
    exact Nat.and_le_right
  have h7 : (0o7777 : UInt32).toNat = 4095 := rfl
  omega

theorem long_toNat {x : Int64} (h0 : 0 ≤ x.toInt) : (x.toUInt64.toNat : Int) = x.toInt := by
  have h1 : x.toUInt64.toNat = x.toBitVec.toNat := rfl
  rw [h1, ← Int64.toInt_toBitVec, BitVec.toInt_eq_toNat_cond] at *
  split at h0
  · rw [if_pos ‹_›]
  · have := x.toBitVec.isLt
    omega

variable {sp : Stat}

theorem Stat.Fits.size_lt (hs : sp.Fits) : sp.st_size.toUInt64.toNat < 8 ^ 11 := by
  have := long_toNat hs.size.1
  have := hs.size.2
  omega

theorem Stat.Fits.mtime_lt (hs : sp.Fits) : sp.st_mtime.toUInt64.toNat < 8 ^ 11 := by
  have := long_toNat hs.mtime.1
  have := hs.mtime.2
  omega

theorem fields_length (hs : sp.Fits) : (fields sp).length = 48 := by
  unfold fields
  simp only [List.length_append, List.length_singleton, field_length (w := 6) (by decide) (mode_lt _),
    field_length (w := 6) (by decide) hs.uid, field_length (w := 6) (by decide) hs.gid,
    field_length (w := 11) (by decide) hs.size_lt, field_length (w := 11) (by decide) hs.mtime_lt]

/-- Characters stored where the rest of the block is still 0. -/
theorem Block.poke_next {b : Block} {A : List Int8} {n : Nat} (off : Nat) (l : List Int8)
    (hb : b.bytes = A ++ List.replicate n 0) (hA : A.length = off) (hl : l.length ≤ n) :
    ∃ b', b.poke off l = some b' ∧ b'.bytes = A ++ l ++ List.replicate (n - l.length) 0 := by
  refine b.poke_eq off l (B := List.replicate l.length 0) ?_ hA List.length_replicate
  rw [hb, List.append_assoc, List.replicate_append_replicate, Nat.add_sub_cancel' hl]

/-- The NUL after the size is overwritten by the time, that after the time stays in the field of
the sum. -/
theorem poke_fields {f₁ f₂ f₃ f₄ f₅ : List Int8} (h₁ : f₁.length = 7) (h₂ : f₂.length = 7)
    (h₃ : f₃.length = 7) (h₄ : f₄.length = 12) (h₅ : f₅.length = 12) :
    ∃ b₁ b₂ b₃ b₄ b₅, Block.zero.poke Block.mode (f₁ ++ [0]) = some b₁ ∧
      b₁.poke Block.uid (f₂ ++ [0]) = some b₂ ∧ b₂.poke Block.gid (f₃ ++ [0]) = some b₃ ∧
      b₃.poke Block.size (f₄ ++ [0]) = some b₄ ∧ b₄.poke Block.mtime (f₅ ++ [0]) = some b₅ ∧
      b₅.bytes = List.replicate 100 0 ++ ((f₁ ++ [0]) ++ (f₂ ++ [0]) ++ (f₃ ++ [0]) ++ f₄ ++ f₅) ++
        List.replicate 364 0 := by
  have hlen : ∀ {f : List Int8} {k : Nat}, f.length = k → (f ++ [0]).length = k + 1 := by
    intro f k hf
    rw [List.length_append, hf]
    rfl
  have hzero : Block.zero.bytes = List.replicate 100 0 ++ List.replicate 412 0 := by
    rw [List.replicate_append_replicate]
    rfl
  obtain ⟨b₁, h1, hb1⟩ := Block.poke_next Block.mode (f₁ ++ [0]) hzero
    List.length_replicate (by rw [hlen h₁]; decide)
  rw [hlen h₁] at hb1
  obtain ⟨b₂, h2, hb2⟩ := Block.poke_next Block.uid (f₂ ++ [0]) hb1
    (by rw [List.length_append, hlen h₁, List.length_replicate]; rfl) (by rw [hlen h₂]; decide)
  rw [hlen h₂] at hb2
  obtain ⟨b₃, h3, hb3⟩ := Block.poke_next Block.gid (f₃ ++ [0]) hb2
    (by rw [List.length_append, List.length_append, hlen h₁, hlen h₂, List.length_replicate]; rfl)
    (by rw [hlen h₃]; decide)
  rw [hlen h₃] at hb3
  obtain ⟨b₄, h4, hb4⟩ := Block.poke_next Block.size (f₄ ++ [0]) hb3
    (by rw [List.length_append, List.length_append, List.length_append, hlen h₁, hlen h₂, hlen h₃,
      List.length_replicate]; rfl) (by rw [hlen h₄]; decide)
  rw [hlen h₄, ← List.append_assoc, List.append_assoc _ [0],
    show [0] ++ List.replicate (412 - (7 + 1) - (7 + 1) - (7 + 1) - (12 + 1)) (0 : Int8) =
      List.replicate 376 0 from rfl] at hb4
  obtain ⟨b₅, h5, hb5⟩ := Block.poke_next Block.mtime (f₅ ++ [0]) hb4
    (by rw [List.length_append, List.length_append, List.length_append, List.length_append, hlen h₁,
      hlen h₂, hlen h₃, h₄, List.length_replicate]; rfl) (by rw [hlen h₅]; decide)
  refine ⟨b₁, b₂, b₃, b₄, b₅, h1, h2, h3, h4, h5, ?_⟩
  rw [hb5, hlen h₅, ← List.append_assoc, List.append_assoc _ [0],
    show [0] ++ List.replicate (376 - (12 + 1)) (0 : Int8) = List.replicate 364 0 from rfl]
  simp only [List.append_assoc]

theorem tomodes_eq (hs : sp.Fits) :
    ∃ b, tomodes sp = some b ∧
      b.bytes = List.replicate 100 0 ++ fields sp ++ List.replicate 364 0 := by
  obtain ⟨b₁, b₂, b₃, b₄, b₅, h1, h2, h3, h4, h5, hb⟩ :=
    poke_fields (field_length (w := 6) (by decide) (mode_lt sp.st_mode))
      (field_length (w := 6) (by decide) hs.uid) (field_length (w := 6) (by decide) hs.gid)
      (field_length (w := 11) (by decide) hs.size_lt) (field_length (w := 11) (by decide) hs.mtime_lt)
  refine ⟨b₅, ?_, hb⟩
  unfold tomodes
  simp only [sprintf_blank, h1, h2, h3, h4, h5, Option.bind_eq_bind, Option.bind_some]

theorem copyName_eq (cs : List Int8) : ∀ (i : Nat) (b : Block) (A B C : List Int8),
    b.bytes = A ++ B ++ C → A.length = i → B.length = cs.length + 1 → i + cs.length < NAMSIZ →
    ∃ b', copyName cs i b = some (i + cs.length, b') ∧ b'.bytes = A ++ (cs ++ [0]) ++ C := by
  induction cs with
  | nil =>
    intro i b A B C hb hA hB _
    obtain ⟨b', hp, hb'⟩ := b.poke_eq (Block.name + i) [0] hb
      (by rw [hA]; exact (Nat.zero_add i).symm) hB
    refine ⟨b', ?_, hb'⟩
    rw [copyName, hp]
    rfl
  | cons c cs ih =>
    intro i b A B C hb hA hB hi
    obtain ⟨x, B, rfl⟩ : ∃ x B', B = x :: B' := List.exists_cons_of_length_eq_add_one hB
    simp only [List.length_cons] at hB hi
    obtain ⟨b₁, hp, hb₁⟩ := b.poke_eq (Block.name + i) [c] (A := A) (B := [x]) (C := B ++ C)
      (by rw [hb]; simp) (by rw [hA]; exact (Nat.zero_add i).symm) rfl
    obtain ⟨b', hrun, hb'⟩ := ih (i + 1) b₁ (A ++ [c]) B C (by rw [hb₁]; simp) (by simp [hA])
      (by omega) (by omega)
    refine ⟨b', ?_, by rw [hb']; simp⟩
    have hlt : i < NAMSIZ := by omega
    rw [copyName, hp]
    simp only [Option.bind_eq_bind, Option.bind_some, hlt, if_true, hrun, List.length_cons]
    congr 2
    omega

/-- A header before its sum: the name, the fields and zeros. -/
theorem nameHeader_eq (hs : sp.Fits) {longname : List Int8} (hlen : longname.length ≤ 99) :
    ∃ b, nameHeader sp longname = some (some b) ∧
      b.bytes = (longname ++ 0 :: List.replicate (99 - longname.length) 0 ++ fields sp) ++
        List.replicate 8 0 ++ List.replicate 356 0 := by
  obtain ⟨b₀, hb₀, hbytes⟩ := tomodes_eq hs
  have hN : NAMSIZ = 100 := rfl
  obtain ⟨b, hcopy, hb⟩ := copyName_eq longname 0 b₀ [] (List.replicate (longname.length + 1) 0)
    (List.replicate (99 - longname.length) 0 ++ (fields sp ++ List.replicate 364 0))
    (by
      rw [hbytes, List.nil_append, ← List.append_assoc, List.replicate_append_replicate,
        show longname.length + 1 + (99 - longname.length) = 100 by omega, List.append_assoc])
    rfl List.length_replicate (by omega)
  rw [Nat.zero_add] at hcopy
  refine ⟨b, ?_, ?_⟩
  · unfold nameHeader
    have hlt : ¬NAMSIZ ≤ longname.length := by omega
    simp only [hb₀, hcopy, Option.bind_eq_bind, Option.bind_some, hlt, if_false]
    rfl
  · have h364 : List.replicate 364 (0 : Int8) = List.replicate 8 0 ++ List.replicate 356 0 := by
      rw [List.replicate_append_replicate]
    rw [hb, h364]
    simp only [List.append_assoc, List.cons_append, List.nil_append]

/-! ## The sum -/

theorem checksum_eq {b : Block} {H B T : List Int8} (hb : b.bytes = H ++ B ++ T)
    (hH : H.length = 148) (hB : B.length = 8) :
    ∃ b', checksum b = some (b', total H + 256 + total T) ∧
      b'.bytes = H ++ List.replicate 8 32 ++ T := by
  obtain ⟨b', hp, hb'⟩ := b.poke_eq Block.chksum (List.replicate 8 32) hb hH
    (by rw [hB, List.length_replicate])
  refine ⟨b', ?_, hb'⟩
  have h32 : ((8 : Nat) : Int) * (32 : Int8).toInt = 256 := rfl
  unfold checksum
  rw [hp]
  simp only [Option.bind_eq_bind, Option.bind_some, Option.pure_def]
  rw [hb', total_append, total_append, total_replicate, h32]

/-- A sum that is not negative fits into its field. -/
theorem putChecksum_nonneg {b : Block} {H B T : List Int8} (hb : b.bytes = H ++ B ++ T)
    (hH : H.length = 148) (hB : B.length = 8) (h0 : 0 ≤ total H + 256 + total T) :
    ∃ b' P, putChecksum b = some b' ∧ P.length = 8 ∧ b'.bytes = H ++ P ++ T ∧
      sscanf (b'.suffix Block.chksum) = some (total H + 256 + total T) := by
  obtain ⟨b₁, hsum, hb₁⟩ := checksum_eq hb hH hB
  have hfull := b.full
  have hT : T.length = 356 := by
    have h512 : TBLOCK = 512 := rfl
    rw [hb, List.length_append, List.length_append, hH, hB] at hfull
    omega
  have h1 := (total_bounds H).2
  have h2 := (total_bounds T).2
  rw [hH] at h1
  rw [hT] at h2
  obtain ⟨n, hn⟩ := Int.eq_ofNat_of_zero_le h0
  have hmod : ((total H + 256 + total T) % 2 ^ 32).toNat = n := by
    rw [Int.emod_eq_of_lt h0 (by omega), hn, Int.toNat_natCast]
  have hoct : (octal n).length ≤ 6 := octal_length (by decide) (by omega)
  have hprint : sprintf 6 n [] = List.replicate (6 - (octal n).length) 32 ++ octal n ++ [0] := by
    change List.replicate (6 - (octal n).length) 32 ++ octal n ++ [] ++ [0] = _
    rw [List.append_nil]
  have hlen : (sprintf 6 n []).length = 7 := by
    rw [hprint]
    simp only [List.length_append, List.length_replicate, List.length_singleton]
    omega
  obtain ⟨b', hp, hb'⟩ := b₁.poke_eq Block.chksum (sprintf 6 n []) (A := H)
    (B := List.replicate 7 32) (C := 32 :: T) (by rw [hb₁]; simp [List.replicate]) hH
    (by rw [hlen, List.length_replicate])
  refine ⟨b', sprintf 6 n [] ++ [32], ?_, by rw [List.length_append, hlen]; rfl,
    by rw [hb']; simp, ?_⟩
  · unfold putChecksum
    rw [hsum]
    simp only [Option.bind_eq_bind, Option.bind_some, hmod, hp]
  · rw [Block.suffix_eq (A := H) (B := sprintf 6 n [] ++ 32 :: T) (by rw [hb', List.append_assoc])
      (show H.length = Block.chksum from hH), hprint, List.append_assoc _ [0], hn]
    exact sscanf_octal _ n (by decide) _

/-- A negative sum goes on for three characters after its field. -/
theorem putChecksum_neg {b : Block} {H B : List Int8} (hb : b.bytes = H ++ B ++ List.replicate 356 0)
    (hH : H.length = 148) (hB : B.length = 8) (h0 : total H + 256 < 0) :
    ∃ b' P T, putChecksum b = some b' ∧ P.length = 8 ∧ b'.bytes = H ++ P ++ T ∧ 0 < total T ∧
      sscanf (b'.suffix Block.chksum) = some (2 ^ 32 + (total H + 256)) := by
  obtain ⟨b₁, hsum, hb₁⟩ := checksum_eq hb hH hB
  have h1 := (total_bounds H).1
  rw [hH] at h1
  have hzero : total (List.replicate 356 0) = 0 := by
    rw [total_replicate, Int8.toInt_zero, mul_zero]
  rw [hzero, add_zero] at hsum
  obtain ⟨n, hn⟩ := Int.eq_ofNat_of_zero_le (show 0 ≤ 2 ^ 32 + (total H + 256) by omega)
  have hmod : ((total H + 256) % 2 ^ 32).toNat = n := by
    rw [← Int.add_emod_left (2 ^ 32), hn, Int.emod_eq_of_lt (Int.natCast_nonneg n) (by omega),
      Int.toNat_natCast]
  have hlen : (octal n).length = 11 := by
    have h2 : (octal n).length ≤ 11 := octal_length (by decide) (by omega)
    have h3 : 10 < (numeral 8 n).length := lt_numeral_length (by decide) (by omega)
    unfold octal at h2 ⊢
    rw [List.length_map] at h2 ⊢
    omega
  have hprint : sprintf 6 n [] = octal n ++ [0] := by
    change List.replicate (6 - (octal n).length) 32 ++ octal n ++ [] ++ [0] = _
    rw [hlen]
    simp
  obtain ⟨b', hp, hb'⟩ := b₁.poke_eq Block.chksum (sprintf 6 n []) (A := H)
    (B := List.replicate 8 32 ++ List.replicate 4 0) (C := List.replicate 352 0) (by
      rw [hb₁, show List.replicate 356 (0 : Int8) = List.replicate 4 0 ++ List.replicate 352 0 by
        rw [List.replicate_append_replicate]]
      simp only [List.append_assoc]) hH
    (by rw [hprint, List.length_append, List.length_append, hlen]; rfl)
  refine ⟨b', (octal n).take 8, (octal n).drop 8 ++ 0 :: List.replicate 352 0, ?_, ?_, ?_, ?_, ?_⟩
  · unfold putChecksum
    rw [hsum]
    simp only [Option.bind_eq_bind, Option.bind_some, hmod, hp]
  · rw [List.length_take, hlen]
    rfl
  · rw [hb', hprint]
    conv_lhs => rw [← List.take_append_drop 8 (octal n)]
    simp only [List.append_assoc, List.cons_append, List.nil_append]
  · have hpos : ∀ l : List Int8, (∀ c ∈ l, isoctal c = true) → 48 * (l.length : Int) ≤ total l := by
      intro l hl
      induction l with
      | nil => simp
      | cons c l ih =>
        have h2 := isoctal_iff.mp (hl c List.mem_cons_self)
        have h3 := ih fun d hd => hl d (List.mem_cons_of_mem c hd)
        rw [total_cons, List.length_cons]
        push_cast
        omega
    have h2 := hpos ((octal n).drop 8) fun c hc => octal_isoctal n c (List.mem_of_mem_drop hc)
    rw [List.length_drop, hlen] at h2
    rw [total_append, total_cons, total_replicate, Int8.toInt_zero]
    omega
  · rw [Block.suffix_eq (A := H) (B := octal n ++ 0 :: List.replicate 352 0)
      (by rw [hb', hprint]; simp only [List.append_assoc, List.cons_append, List.nil_append])
      (show H.length = Block.chksum from hH), hn]
    exact sscanf_octal 0 n (by decide) _

/-! ## What is read -/

theorem scanInt_eq {l : List Int8} {x : UInt32} (h : sscanf l = some (x.toNat : Int)) (i : UInt32) :
    scanInt l i = x := by
  unfold scanInt
  rw [h]
  have hx := x.toNat_lt
  have hmod : ((x.toNat : Int) % 2 ^ 32).toNat = x.toNat := by omega
  change UInt32.ofNat ((x.toNat : Int) % 2 ^ 32).toNat = x
  rw [hmod, UInt32.ofNat_toNat]

/-- The number as the `int` that it is stored in. -/
theorem scanInt_toInt {l : List Int8} {v : Int} (h : sscanf l = some v) (i : UInt32) :
    (scanInt l i).toInt32.toInt = v.bmod 4294967296 := by
  unfold scanInt
  rw [h]
  change (UInt32.ofNat (v % 2 ^ 32).toNat).toInt32.toInt = _
  rw [UInt32.toInt32_ofNat', Int32.toInt_ofNat', Int.toNat_of_nonneg (Int.emod_nonneg _ (by decide))]
  exact Int.emod_bmod v (2 ^ 32)

theorem scanLong_eq {l : List Int8} {x : Int64} (hx : 0 ≤ x.toInt)
    (h : sscanf l = some (x.toUInt64.toNat : Int)) (y : Int64) : scanLong l y = x := by
  unfold scanLong
  rw [h, long_toNat hx]
  exact Int64.ofInt_toInt x

theorem getFields_eq (hs : sp.Fits) {d : Dir} {N R : List Int8}
    (hb : d.dblock.bytes = N ++ fields sp ++ R) (hN : N.length = 100) (i : UInt32) :
    getFields d i =
      { dblock := d.dblock
        stbuf :=
          { d.stbuf with
            st_mode := sp.st_mode &&& 0o7777
            st_uid := sp.st_uid
            st_gid := sp.st_gid
            st_size := sp.st_size
            st_mtime := sp.st_mtime }
        chksum := scanInt (d.dblock.suffix Block.chksum) d.chksum } := by
  have hmode := field_length (w := 6) (by decide) (mode_lt sp.st_mode)
  have huid := field_length (w := 6) (by decide) hs.uid
  have hgid := field_length (w := 6) (by decide) hs.gid
  have hsize := field_length (w := 11) (by decide) hs.size_lt
  have hscan : ∀ {A R : List Int8} {w n : Nat} (off : Nat), d.dblock.bytes = A ++ (field w n ++ R) →
      A.length = off → sscanf (d.dblock.suffix off) = some (n : Int) := by
    intro A R w n off hb hA
    rw [Block.suffix_eq hb hA]
    exact scan_field w n R
  generalize hf₁ : field 6 (sp.st_mode &&& 0o7777).toNat = f₁ at hmode
  generalize hf₂ : field 6 sp.st_uid.toNat = f₂ at huid
  generalize hf₃ : field 6 sp.st_gid.toNat = f₃ at hgid
  generalize hf₄ : field 11 sp.st_size.toUInt64.toNat = f₄ at hsize
  unfold fields at hb
  rw [hf₁, hf₂, hf₃, hf₄] at hb
  have h1 := hscan Block.mode (A := N) (w := 6) (n := (sp.st_mode &&& 0o7777).toNat)
    (by rw [hf₁, hb]; simp only [List.append_assoc]; rfl) hN
  have h2 := hscan Block.uid (A := N ++ (f₁ ++ [0])) (w := 6) (n := sp.st_uid.toNat)
    (by rw [hf₂, hb]; simp only [List.append_assoc]; rfl) (by simp [hN, hmode, Block.uid])
  have h3 := hscan Block.gid (A := N ++ (f₁ ++ [0]) ++ (f₂ ++ [0])) (w := 6)
    (n := sp.st_gid.toNat) (by rw [hf₃, hb]; simp only [List.append_assoc]; rfl)
    (by simp [hN, hmode, huid, Block.gid])
  have h4 := hscan Block.size (A := N ++ (f₁ ++ [0]) ++ (f₂ ++ [0]) ++ (f₃ ++ [0]))
    (w := 11) (n := sp.st_size.toUInt64.toNat)
    (by rw [hf₄, hb]; simp only [List.append_assoc]; rfl) (by simp [hN, hmode, huid, hgid, Block.size])
  have h5 := hscan Block.mtime (A := N ++ (f₁ ++ [0]) ++ (f₂ ++ [0]) ++ (f₃ ++ [0]) ++ f₄)
    (w := 11) (n := sp.st_mtime.toUInt64.toNat) (by rw [hb]; simp only [List.append_assoc]; rfl)
    (by simp [hN, hmode, huid, hgid, hsize, Block.mtime])
  unfold getFields
  simp only [scanInt_eq h1, scanInt_eq h2, scanInt_eq h3, scanLong_eq hs.size.1 h4,
    scanLong_eq hs.mtime.1 h5]

/-- The name at the start of a block. -/
theorem string_name {b : Block} {longname R : List Int8} (hnul : ∀ c ∈ longname, c ≠ 0)
    (hb : b.bytes = longname ++ 0 :: R) : b.string Block.name = longname := by
  unfold Block.string
  rw [Block.suffix_name, hb, List.takeWhile_append_of_pos (by simpa using hnul), List.takeWhile_cons_of_neg (by simp),
    List.append_nil]

/-- A header whose sum is printed as it is computed on reading: whatever `T` is from the link flag
on, the fields come back. -/
theorem getdir_accepts (hs : sp.Fits) {b : Block} {longname P T : List Int8}
    (hne : longname ≠ []) (hlen : longname.length ≤ 99) (hnul : ∀ c ∈ longname, c ≠ 0)
    (hb : b.bytes = (longname ++ 0 :: List.replicate (99 - longname.length) 0 ++ fields sp) ++ P ++ T)
    (hP : P.length = 8) (d : Dir) (i : UInt32) :
    ∃ (v : Verdict) (d' : Dir), getdir b d i = some (v, d') ∧
      (v = .accepted ↔ (scanInt (b.suffix Block.chksum) d.chksum).toInt32.toInt =
        total longname + total (fields sp) + 256 + total T) ∧ v ≠ .empty ∧
      d'.dblock.bytes = (longname ++ 0 :: List.replicate (99 - longname.length) 0 ++ fields sp) ++
        List.replicate 8 32 ++ T ∧
      d'.stbuf =
        { d.stbuf with
          st_mode := sp.st_mode &&& 0o7777
          st_uid := sp.st_uid
          st_gid := sp.st_gid
          st_size := sp.st_size
          st_mtime := sp.st_mtime } := by
  have hN : (longname ++ 0 :: List.replicate (99 - longname.length) 0).length = 100 := by
    simp only [List.length_append, List.length_cons, List.length_replicate]
    omega
  have hH : (longname ++ 0 :: List.replicate (99 - longname.length) 0 ++ fields sp).length = 148 := by
    rw [List.length_append, hN, fields_length hs]
  have hhead : (b.suffix Block.name).head? ≠ some 0 := by
    obtain ⟨c, cs, rfl⟩ := List.exists_cons_of_ne_nil hne
    rw [Block.suffix_name, hb]
    simpa using hnul c List.mem_cons_self
  obtain ⟨b', hsum, hb'⟩ := checksum_eq hb hH hP
  have htotal : total (longname ++ 0 :: List.replicate (99 - longname.length) 0 ++ fields sp) =
      total longname + total (fields sp) := by
    simp only [total_append, total_cons, total_replicate, Int8.toInt_zero]
    ring
  rw [htotal] at hsum
  have hfields := getFields_eq hs (d := { d with dblock := b }) (R := P ++ T)
    (show b.bytes = _ by rw [hb, List.append_assoc]) hN i
  unfold getdir
  simp only [hhead, if_false, hfields, hsum, Option.bind_eq_bind, Option.bind_some]
  by_cases heq : (scanInt (b.suffix Block.chksum) d.chksum).toInt32.toInt =
      total longname + total (fields sp) + 256 + total T
  · refine ⟨.accepted, ⟨b', _, scanInt (b.suffix Block.chksum) d.chksum⟩, ?_,
      iff_of_true rfl heq, by decide, hb', rfl⟩
    rw [if_neg (not_not.mpr heq)]
    rfl
  · refine ⟨.rejected, ⟨b', _, scanInt (b.suffix Block.chksum) d.chksum⟩, ?_,
      iff_of_false (by decide) heq, by decide, hb', rfl⟩
    rw [if_pos heq]
    rfl

theorem total_fields (hs : sp.Fits) :
    total (fields sp) = 1440 + (weight (sp.st_mode &&& 0o7777).toNat + weight sp.st_uid.toNat +
      weight sp.st_gid.toNat + weight sp.st_size.toUInt64.toNat +
      weight sp.st_mtime.toUInt64.toNat) := by
  have h0 : (0 : Int8).toInt = 0 := rfl
  unfold fields
  simp only [total_append, total_cons, total_nil, h0, total_field (w := 6) (by decide) (mode_lt _),
    total_field (w := 6) (by decide) hs.uid, total_field (w := 6) (by decide) hs.gid,
    total_field (w := 11) (by decide) hs.size_lt, total_field (w := 11) (by decide) hs.mtime_lt]
  push_cast
  ring

/-- The header of `longname` and `sp` comes back from `getdir` as it was, and no file looks like a
link. -/
def RoundTrip (sp : Stat) (longname : List Int8) (d : Dir) (i : UInt32) : Prop :=
  ∃ b d', fileHeader sp longname = some (some b) ∧ getdir b d i = some (.accepted, d') ∧
    d'.dblock.string Block.name = longname ∧ d'.stbuf.st_mode = sp.st_mode &&& 0o7777 ∧
    d'.stbuf.st_uid = sp.st_uid ∧ d'.stbuf.st_gid = sp.st_gid ∧
    d'.stbuf.st_size = sp.st_size ∧ d'.stbuf.st_mtime = sp.st_mtime ∧
    (d'.dblock.suffix Block.linkflag).head? = some 0

/-- A header is read back as it was written exactly when the signed characters of the name are not
too negative for the rest of the header. -/
theorem header_iff (sp : Stat) (longname : List Int8) (hname : longname ≠ [])
    (hlen : longname.length ≤ 99) (hnul : ∀ c ∈ longname, c ≠ 0) (hs : sp.Fits) (d : Dir)
    (i : UInt32) :
    RoundTrip sp longname d i ↔
      0 ≤ total longname + 1696 + (weight (sp.st_mode &&& 0o7777).toNat + weight sp.st_uid.toNat +
        weight sp.st_gid.toNat + weight sp.st_size.toUInt64.toNat +
        weight sp.st_mtime.toUInt64.toNat) := by
  obtain ⟨b₀, hheader, hb₀⟩ := nameHeader_eq hs hlen
  have hfields := total_fields hs
  have hH : (longname ++ 0 :: List.replicate (99 - longname.length) 0 ++ fields sp).length = 148 := by
    simp only [List.length_append, List.length_cons, List.length_replicate, fields_length hs]
    omega
  have htotal : total (longname ++ 0 :: List.replicate (99 - longname.length) 0 ++ fields sp) =
      total longname + total (fields sp) := by
    simp only [total_append, total_cons, total_replicate, Int8.toInt_zero]
    ring
  have hzero : total (List.replicate 356 (0 : Int8)) = 0 := by
    rw [total_replicate, Int8.toInt_zero, mul_zero]
  have hfile : ∀ b, putChecksum b₀ = some b → fileHeader sp longname = some (some b) := by
    intro b hb
    unfold fileHeader
    rw [hheader]
    simp only [Option.bind_eq_bind, Option.bind_some, hb]
    rfl
  have hbound := total_bounds (longname ++ 0 :: List.replicate (99 - longname.length) 0 ++ fields sp)
  rw [hH, htotal] at hbound
  by_cases h0 : 0 ≤ total longname + total (fields sp) + 256
  · refine iff_of_true ?_ (by omega)
    obtain ⟨b, P, hput, hP, hb, hscan⟩ := putChecksum_nonneg hb₀ hH List.length_replicate
      (by rw [htotal, hzero]; omega)
    rw [htotal, hzero, add_zero] at hscan
    obtain ⟨v, d', hget, hiff, -, hbytes, hstat⟩ := getdir_accepts hs hname hlen hnul hb hP d i
    have hv : v = .accepted := by
      rw [hiff, scanInt_toInt hscan, hzero, add_zero, Int.bmod_eq_of_le] <;> omega
    subst hv
    refine ⟨b, d', hfile b hput, hget, ?_, by rw [hstat], by rw [hstat], by rw [hstat],
      by rw [hstat], by rw [hstat], ?_⟩
    · exact string_name hnul (by rw [hbytes]; simp only [List.append_assoc, List.cons_append]; rfl)
    · rw [Block.suffix_eq hbytes (by rw [List.length_append, hH]; rfl)]
      rfl
  · refine iff_of_false ?_ (by omega)
    rintro ⟨b, d', hb', hget, -⟩
    obtain ⟨b₁, P, T, hput, hP, hb, hpos, hscan⟩ := putChecksum_neg hb₀ hH List.length_replicate
      (by rw [htotal]; omega)
    rw [hfile b₁ hput] at hb'
    cases hb'
    rw [htotal] at hscan
    obtain ⟨v, d₁, hget₁, hiff, -⟩ := getdir_accepts hs hname hlen hnul hb hP d i
    rw [hget] at hget₁
    cases hget₁
    have := hiff.mp rfl
    rw [scanInt_toInt hscan, Int.bmod_def] at this
    split at this <;> omega

/-- A file of 1000 bytes. -/
def small : Stat where
  st_dev := 1
  st_ino := 2
  st_nlink := 1
  st_mode := 0o100644
  st_uid := 10
  st_gid := 3
  st_size := 1000
  st_mtime := 315532800

theorem small_fits : small.Fits :=
  ⟨by decide, by decide, by decide, by decide⟩

/-- The header of the name `a`. -/
theorem header_iff_small : RoundTrip small [97] ⟨Block.zero, small, 0⟩ 0 :=
  (header_iff small [97] (by decide) (by decide) (by simp) small_fits _ 0).mpr (by decide)

/-- 33 characters of three bytes each, as UTF-8 has them for U+4E2D. -/
def wide : List Int8 := (List.replicate 33 [-28, -72, -83]).flatten

/-- The header that is written for this name is rejected. -/
theorem header_wide_rejected : wide ≠ [] ∧ wide.length ≤ 99 ∧ (∀ c ∈ wide, c ≠ 0) ∧ small.Fits ∧
    ((fileHeader small wide).bind fun b => b.bind fun b =>
      (getdir b ⟨Block.zero, small, 0⟩ 0).map Prod.fst) = some .rejected ∧
    ¬RoundTrip small wide ⟨Block.zero, small, 0⟩ 0 := by
  have hrun : ((fileHeader small wide).bind fun b => b.bind fun b =>
      (getdir b ⟨Block.zero, small, 0⟩ 0).map Prod.fst) = some .rejected := by decide +kernel
  have hnul : ∀ c ∈ wide, c ≠ 0 := by
    have hall : wide.all (· ≠ 0) = true := by decide
    simpa using hall
  refine ⟨by decide, by decide, hnul, small_fits, hrun, ?_⟩
  rintro ⟨b, d', hfile, hget, -⟩
  rw [hfile] at hrun
  simp [hget] at hrun

end Venix.Tar
