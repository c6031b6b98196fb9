/-
  Executable files (`struct venix_exec`), and how the two emulators read one into memory.

  The loaders of `86sim` and `vm86venix` make the same `memset` and `fread` calls, at addresses of
  their own: `placeTiny` is the branch for `OMAGIC`, and `placeData` is the part of the other
  branch that follows the text. `lo` and `hi` are the bounds of the memory; a call that stores
  next to it is `none`. The host's `size_t` has 64 bits.
-/
import Venix.Lib.Bytes
import Venix.Lib.Window

namespace Venix.Load

open Venix.Lib

/-- `struct venix_exec`, less the sizes that only the linker reads. -/
structure Exec where
  aMagic : BitVec 16
  aStack : BitVec 16
  aText : BitVec 32
  aData : BitVec 32
  aBss : BitVec 32
  aEntry : BitVec 32
  deriving DecidableEq, Repr

def omagic : BitVec 16 := 0o407
def nmagic : BitVec 16 := 0o411

/-- A memory and the rest of the file. -/
structure Loading where
  mem : Nat → Byte
  file : List Byte

/-- An `int32_t` as a `size_t`. -/
def sizeT (n : BitVec 32) : Nat := (n.signExtend 64).toNat

section Calls

variable (lo hi : Nat)

/-- `memset(&mem[a], 0, n)`. -/
def memset (a : BitVec 32) (n : Nat) (s : Loading) : Option Loading :=
  if n = 0 ∨ (lo ≤ a.toNat ∧ a.toNat + n ≤ hi) then
    some { s with mem := store s.mem a.toNat (List.replicate n 0) }
  else none

/-- `fread(&mem[a], n, 1, fp)`. -/
def fread (a : BitVec 32) (n : Nat) (s : Loading) : Option Loading :=
  let l := s.file.take n
  if l = [] ∨ (lo ≤ a.toNat ∧ a.toNat + l.length ≤ hi) then
    some { s with mem := store s.mem a.toNat l, file := s.file.drop n }
  else none

/-- The stack under the program, if it has one. -/
def zeroStack (base : BitVec 32) (hdr : Exec) (s : Loading) : Option Loading :=
  if hdr.aStack ≠ 0 then memset lo hi base hdr.aStack.toNat s else some s

/-- Stack, text, data and bss, for `OMAGIC`; and `ptr`. -/
def placeTiny (base : BitVec 32) (hdr : Exec) (s : Loading) : Option (Loading × BitVec 32) := do
  let ptr : BitVec 32 := hdr.aStack.setWidth 32
  let s ← zeroStack lo hi base hdr s
  let s ← fread lo hi (base + ptr) (sizeT hdr.aText) s
  let ptr := ptr + hdr.aText
  let s ← fread lo hi (base + ptr) (sizeT hdr.aData) s
  let ptr := ptr + hdr.aData
  let s ← memset lo hi (base + ptr) (sizeT hdr.aBss) s
  some (s, ptr + hdr.aBss)

/-- Stack, data and bss, for `NMAGIC`; and `ptr`. -/
def placeData (base : BitVec 32) (hdr : Exec) (s : Loading) : Option (Loading × BitVec 32) := do
  let ptr : BitVec 32 := hdr.aStack.setWidth 32
  let s ← zeroStack lo hi base hdr s
  let s ← fread lo hi (base + ptr) (sizeT hdr.aData) s
  let ptr := ptr + hdr.aData
  let s ← memset lo hi (base + ptr) (sizeT hdr.aBss) s
  some (s, ptr + hdr.aBss)

end Calls

/-- The text rounded up to the next click. -/
def roundText (aText : BitVec 32) : BitVec 32 := (aText + 511) &&& ~~~511

/-- The byte at `seg:off`. -/
def segByte (mem : Nat → Byte) (seg : Nat) (off : BitVec 16) : Byte :=
  mem ((16 * seg + off.toNat) % 0x100000)

/-- The stack pointer before anything is pushed. -/
def initialSp (hdr : Exec) : BitVec 16 :=
  if hdr.aStack ≠ 0 then hdr.aStack - 2 else 0xff80

/-- `if (sp & 1) sp--`. -/
def evenSp (sp : BitVec 16) : BitVec 16 := if sp &&& 1 ≠ 0 then sp - 1 else sp

/-- The bytes of a word in the memory of the host, which is little endian. -/
def wordBytes (w : BitVec 16) : List Byte := [w.truncate 8, (w >>> 8).truncate 8]

/-! ## Sizes -/

theorem toNat_stack (hdr : Exec) : (hdr.aStack.setWidth 32).toNat = hdr.aStack.toNat :=
  BitVec.toNat_setWidth_of_le (by decide)

theorem and_not_511 (x : BitVec 32) :
    (x &&& ~~~(511 : BitVec 32)).toNat = x.toNat / 512 * 512 := by
  have h : x &&& ~~~(511 : BitVec 32) = (x >>> 9) <<< 9 := by
    apply BitVec.eq_of_getLsbD_eq
    intro i hi
    have h511 : (511#32).getLsbD i = decide (i < 9) := by
      interval_cases i <;> decide
    rw [BitVec.getLsbD_and, BitVec.getLsbD_not, BitVec.getLsbD_shiftLeft,
      BitVec.getLsbD_ushiftRight, BitVec.ofNat_eq_ofNat, h511]
    by_cases h9 : i < 9
    · simp [h9]
    · simp [h9, hi, Nat.add_sub_cancel' (Nat.not_lt.mp h9)]
  rw [h, BitVec.toNat_shiftLeft, BitVec.toNat_ushiftRight, Nat.shiftLeft_eq,
    Nat.shiftRight_eq_div_pow]
  have := x.isLt
  omega

theorem toNat_roundText {n : BitVec 32} (h : n.toNat + 511 < 2 ^ 32) :
    (roundText n).toNat = (n.toNat + 511) / 512 * 512 := by
  unfold roundText
  rw [and_not_511, BitVec.toNat_add_of_lt h]
  rfl

/-! ## Calls that stay within the memory -/

section Calls

variable {lo hi : Nat}

theorem memset_ok {a : BitVec 32} {n : Nat} (s : Loading) (hlo : lo ≤ a.toNat)
    (hhi : a.toNat + n ≤ hi) :
    memset lo hi a n s = some { s with mem := store s.mem a.toNat (List.replicate n 0) } := by
  unfold memset
  rw [if_pos (Or.inr ⟨hlo, hhi⟩)]

theorem zeroStack_ok {base : BitVec 32} {hdr : Exec} (s : Loading) (hlo : lo ≤ base.toNat)
    (hhi : base.toNat + hdr.aStack.toNat ≤ hi) :
    zeroStack lo hi base hdr s =
      some { s with mem := store s.mem base.toNat (List.replicate hdr.aStack.toNat 0) } := by
  unfold zeroStack
  split
  · exact memset_ok s hlo hhi
  · next h =>
    rw [not_not.mp h]
    exact congrArg some (congrArg (Loading.mk · s.file) (store_nil s.mem _).symm)

theorem fread_ok {a : BitVec 32} {l rest : List Byte} (m : Nat → Byte) (hlo : lo ≤ a.toNat)
    (hhi : a.toNat + l.length ≤ hi) :
    fread lo hi a l.length ⟨m, l ++ rest⟩ = some ⟨store m a.toNat l, rest⟩ := by
  unfold fread
  dsimp only
  rw [List.take_left, List.drop_left, if_pos (Or.inr ⟨hlo, hhi⟩)]

/-- A file may be short. -/
theorem fread_some {a : BitVec 32} {n : Nat} (s : Loading) (hlo : lo ≤ a.toNat)
    (hhi : a.toNat + n ≤ hi) : ∃ s', fread lo hi a n s = some s' := by
  unfold fread
  have : (s.file.take n).length ≤ n := List.length_take_le n s.file
  dsimp only
  rw [if_pos (Or.inr ⟨hlo, by omega⟩)]
  exact ⟨_, rfl⟩

theorem sizeT_of_lt {n : BitVec 32} (h : n.toNat < 2 ^ 31) : sizeT n = n.toNat := by
  unfold sizeT
  rw [BitVec.signExtend_eq_setWidth_of_msb_false, BitVec.toNat_setWidth_of_le (by decide)]
  rw [BitVec.msb_eq_false_iff_two_mul_lt]
  omega

/-- A data segment within the bounds is placed, whatever the file holds. -/
theorem placeData_some {base : BitVec 32} {hdr : Exec} (s : Loading) (hlo : lo ≤ base.toNat)
    (hhi : base.toNat + hdr.aStack.toNat + hdr.aData.toNat + hdr.aBss.toNat ≤ hi)
    (hmax : hi ≤ 0x100000) : ∃ s', placeData lo hi base hdr s =
      some (s', hdr.aStack.setWidth 32 + hdr.aData + hdr.aBss) := by
  have hS := toNat_stack hdr
  have h1 : (hdr.aStack.setWidth 32 + hdr.aData).toNat = hdr.aStack.toNat + hdr.aData.toNat := by
    rw [BitVec.toNat_add_of_lt (by omega), hS]
  have a0 : (base + hdr.aStack.setWidth 32).toNat = base.toNat + hdr.aStack.toNat := by
    rw [BitVec.toNat_add_of_lt (by omega), hS]
  have a1 : (base + (hdr.aStack.setWidth 32 + hdr.aData)).toNat =
      base.toNat + (hdr.aStack.toNat + hdr.aData.toNat) := by
    rw [BitVec.toNat_add_of_lt (by omega), h1]
  have hsD : sizeT hdr.aData = hdr.aData.toNat := sizeT_of_lt (by clear * - hhi hmax; omega)
  have hsB : sizeT hdr.aBss = hdr.aBss.toNat := sizeT_of_lt (by omega)
  obtain ⟨s₁, hr₁⟩ : ∃ s₁, zeroStack lo hi base hdr s = some s₁ :=
    ⟨_, zeroStack_ok s hlo (by clear * - hhi; omega)⟩
  obtain ⟨s₂, hr₂⟩ : ∃ s₂, fread lo hi (base + hdr.aStack.setWidth 32) hdr.aData.toNat s₁ = some s₂ :=
    fread_some s₁ (by clear * - hlo a0; omega) (by omega)
  obtain ⟨s₃, hr₃⟩ : ∃ s₃, memset lo hi (base + (hdr.aStack.setWidth 32 + hdr.aData))
      hdr.aBss.toNat s₂ = some s₃ := ⟨_, memset_ok s₂ (by clear * - hlo a1; omega) (by omega)⟩
  refine ⟨s₃, ?_⟩
  unfold placeData
  dsimp only [Option.bind_eq_bind]
  rw [hr₁, hsD, hsB, Option.bind_some, hr₂, Option.bind_some, hr₃, Option.bind_some]

end Calls

end Venix.Load
