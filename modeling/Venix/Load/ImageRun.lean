/-
  What the two loaders leave in memory.

  `Image` is what a loaded program should be, as seen through CS and DS, and `Same` that two
  memories show the same program. The loaders are shown against `relImage`, the memory from the
  load address on. `load_image` says exactly when both do what they should: the stack, text, data
  and bss that share a segment must be shorter than 64 KiB, or the break wraps; and the data
  of 86sim must start below 64 KiB of physical memory, since `dataOffset` is a `Word`.
-/
import Venix.Sim86.Load
import Venix.Vm86.Load

namespace Venix.Load

open Venix.Lib

/-! ## The program -/

/-- A header of a program with this text and data, each segment of which fits. -/
structure Program (hdr : Exec) (text data : List Byte) : Prop where
  magic : hdr.aMagic = omagic ∨ hdr.aMagic = nmagic
  text_size : hdr.aText.toNat = text.length
  data_size : hdr.aData.toNat = data.length
  text_fits : text.length ≤ 0x10000
  data_fits : hdr.aStack.toNat + data.length + hdr.aBss.toNat ≤ 0x10000

section Layout

variable (hdr : Exec) (text data : List Byte)

def textOff : Nat := if hdr.aMagic = omagic then hdr.aStack.toNat else 0

def dataOff : Nat := hdr.aStack.toNat + if hdr.aMagic = omagic then text.length else 0

/-- The end of bss. -/
def bssEnd : Nat := dataOff hdr text + data.length + hdr.aBss.toNat

/-- The program through the segments `cs` and `ds` of a memory, with the break at `brk`. -/
structure Image (mem : Nat → Byte) (cs ds brk : Nat) : Prop where
  text_bytes : ∀ k (h : k < text.length),
    segByte mem cs (BitVec.ofNat 16 (textOff hdr + k)) = text[k]
  data_bytes : ∀ k (h : k < data.length),
    segByte mem ds (BitVec.ofNat 16 (dataOff hdr text + k)) = data[k]
  bss_zero : ∀ j < hdr.aBss.toNat,
    segByte mem ds (BitVec.ofNat 16 (dataOff hdr text + data.length + j)) = 0
  brk : brk = bssEnd hdr text data

/-- Two memories show the same through their segments. -/
structure Same (mem mem' : Nat → Byte) (cs ds brk cs' ds' brk' : Nat) : Prop where
  code : ∀ off, segByte mem cs off = segByte mem' cs' off
  data : ∀ off, segByte mem ds off = segByte mem' ds' off
  apart : ds + cs' = ds' + cs
  brk : brk = brk'

/-- Both loaders read the program as they should. -/
def BothLoad (rest : List Byte) : Prop :=
  ∃ v endMem sp w sp',
    Sim86.loadImage hdr (text ++ (data ++ rest)) Sim86.fresh = .ok (v, endMem, sp) ∧
    Vm86.loadImage hdr (text ++ (data ++ rest)) 0x10000 = some (w, sp') ∧
    Image hdr text data v.machine.ram v.machine.cs.toNat (v.machine.registers Sim86.rDS).toNat
      v.brk.toNat ∧
    Image hdr text data w.mem w.cs.toNat w.ds.toNat w.brk.toNat ∧
    Same v.machine.ram w.mem v.machine.cs.toNat (v.machine.registers Sim86.rDS).toNat v.brk.toNat
      w.cs.toNat w.ds.toNat w.brk.toNat

/-- The length of the text in whole clicks. -/
def clicks : Nat := (text.length + 511) / 512 * 512

/-- When they do. A data segment that 86sim puts 64 KiB too low is not missed if it is zero, and
    what it falls on in the text is zero. -/
def LoadFits : Prop :=
  bssEnd hdr text data < 0x10000 ∧
    (hdr.aMagic = omagic ∨ 0x2120 + clicks text < 0x10000 ∨
      ((∀ b ∈ data, b = 0) ∧
        ∀ b ∈ text.take (clicks text + bssEnd hdr text data - 0x10000), b = 0))

end Layout

/-! ## The memory from the load address on -/

/-- The text at `t` and the data at `d`. -/
def twoRuns (t d : Nat) (text data : List Byte) : Nat → Byte :=
  store (store (fun _ => 0) t text) d data

theorem twoRuns_shift (b t d a : Nat) (text data : List Byte) :
    twoRuns (b + t) (b + d) text data (b + a) = twoRuns t d text data a := by
  unfold twoRuns store
  simp only [Nat.add_le_add_iff_left, Nat.add_sub_add_left]

section Runs

variable {t d : Nat} {text data : List Byte}

theorem twoRuns_text {k : Nat} (h : k < text.length) (hd : t + text.length ≤ d) :
    twoRuns t d text data (t + k) = text[k] := by
  unfold twoRuns
  rw [store_below _ _ (by omega), store_add _ _ _ h]

theorem twoRuns_data {k : Nat} (h : k < data.length) :
    twoRuns t d text data (d + k) = data[k] := by
  unfold twoRuns
  rw [store_add _ _ _ h]

theorem twoRuns_above {a : Nat} (ht : t + text.length ≤ a) (hd : d + data.length ≤ a) :
    twoRuns t d text data a = 0 := by
  unfold twoRuns
  rw [store_above _ _ hd, store_above _ _ ht]

theorem twoRuns_between {a : Nat} (ht : t + text.length ≤ a) (hd : a < d) :
    twoRuns t d text data a = 0 := by
  unfold twoRuns
  rw [store_below _ _ hd, store_above _ _ ht]

end Runs

/-- Where DS is, from the load address on. -/
def dsOff (hdr : Exec) (text : List Byte) : Nat := if hdr.aMagic = omagic then 0 else clicks text

/-- The memory from the load address on. -/
def relImage (hdr : Exec) (text data : List Byte) : Nat → Byte :=
  twoRuns (textOff hdr) (dsOff hdr text + dataOff hdr text) text data

theorem text_le_clicks (text : List Byte) : text.length ≤ clicks text := by
  unfold clicks
  omega

/-- The text ends before the data. -/
theorem text_before_data (hdr : Exec) (text : List Byte) :
    textOff hdr + text.length ≤ dsOff hdr text + dataOff hdr text := by
  have := text_le_clicks text
  unfold textOff dsOff dataOff
  split <;> omega

section View

variable {hdr : Exec} {text data : List Byte} {mem : Nat → Byte} {cs ds brk : Nat}

/-- The segments show the program. -/
structure View (hdr : Exec) (text data : List Byte) (mem : Nat → Byte) (cs ds : Nat) : Prop where
  code : ∀ off, segByte mem cs off = relImage hdr text data off.toNat
  data : ∀ off, segByte mem ds off = relImage hdr text data (dsOff hdr text + off.toNat)
  apart : 16 * ds = 16 * cs + dsOff hdr text

theorem textOff_le_bssEnd (hdr : Exec) (text data : List Byte) (hom : hdr.aMagic = omagic) :
    textOff hdr + text.length ≤ bssEnd hdr text data := by
  unfold textOff bssEnd dataOff
  rw [if_pos hom, if_pos hom]
  omega

theorem View.image (h : View hdr text data mem cs ds) (hp : Program hdr text data)
    (hend : bssEnd hdr text data < 0x10000) (hbrk : brk = bssEnd hdr text data) :
    Image hdr text data mem cs ds brk := by
  have hbefore := text_before_data hdr text
  have hend' := hend
  unfold bssEnd at hend'
  refine ⟨?_, ?_, ?_, hbrk⟩
  · intro k hk
    have hlt : textOff hdr + k < 65536 := by
      by_cases hom : hdr.aMagic = omagic
      · have := textOff_le_bssEnd hdr text data hom
        omega
      · have := hp.text_fits
        unfold textOff
        rw [if_neg hom]
        omega
    rw [h.code, BitVec.toNat_ofNat, Nat.mod_eq_of_lt hlt]
    exact twoRuns_text hk hbefore
  · intro k hk
    rw [h.data, BitVec.toNat_ofNat, Nat.mod_eq_of_lt (by omega), ← Nat.add_assoc]
    exact twoRuns_data hk
  · intro j hj
    rw [h.data, BitVec.toNat_ofNat, Nat.mod_eq_of_lt (by omega)]
    exact twoRuns_above (by omega) (by omega)

theorem View.same {mem' : Nat → Byte} {cs' ds' brk' : Nat} (h : View hdr text data mem cs ds)
    (h' : View hdr text data mem' cs' ds') (hbrk : brk = brk') :
    Same mem mem' cs ds brk cs' ds' brk' := by
  refine ⟨fun off => (h.code off).trans (h'.code off).symm,
    fun off => (h.data off).trans (h'.data off).symm, ?_, hbrk⟩
  have h1 := h.apart
  have h2 := h'.apart
  omega

/-- A memory that is the program from `b` on. -/
theorem view_of_rel (b : Nat) (hp : Program hdr text data) (hb : b < 0x80000) (hcs : 16 * cs = b)
    (hds : 16 * ds = b + dsOff hdr text)
    (hmem : ∀ a < 0x30000, mem (b + a) = relImage hdr text data a) :
    View hdr text data mem cs ds := by
  have hdso : dsOff hdr text ≤ 0x10000 := by
    have := hp.text_fits
    unfold dsOff clicks
    split <;> omega
  refine ⟨?_, ?_, by omega⟩
  · intro off
    have := off.isLt
    unfold segByte
    rw [Nat.mod_eq_of_lt (by omega), hcs, hmem _ (by omega)]
  · intro off
    have := off.isLt
    unfold segByte
    rw [Nat.mod_eq_of_lt (by omega), hds, Nat.add_assoc, hmem _ (by omega)]

end View

/-! ## What the calls leave -/

/-- Stack, data and bss from `d` on. -/
def layData (m : Nat → Byte) (d stack : Nat) (data : List Byte) (bss : Nat) : Nat → Byte :=
  store (store (store m d (List.replicate stack 0)) (d + stack) data)
    (d + stack + data.length) (List.replicate bss 0)

section Place

variable {hdr : Exec} {text data : List Byte}

theorem Program.sizes (h : Program hdr text data) :
    sizeT hdr.aText = text.length ∧ sizeT hdr.aData = data.length ∧
      sizeT hdr.aBss = hdr.aBss.toNat := by
  have hT := h.text_size
  have hD := h.data_size
  have := h.text_fits
  have := h.data_fits
  rw [← hT, ← hD]
  exact ⟨sizeT_of_lt (by omega), sizeT_of_lt (by omega), sizeT_of_lt (by omega)⟩

theorem placeTiny_ok (lo hi : Nat) (base : BitVec 32) (m : Nat → Byte) (rest : List Byte)
    (h : Program hdr text data) (hlo : lo ≤ base.toNat)
    (hhi : base.toNat + hdr.aStack.toNat + text.length + data.length + hdr.aBss.toNat ≤ hi)
    (hmax : hi ≤ 0x100000) :
    ∃ ptr, placeTiny lo hi base hdr ⟨m, text ++ (data ++ rest)⟩ =
        some (⟨store (store (store (store m base.toNat (List.replicate hdr.aStack.toNat 0))
          (base.toNat + hdr.aStack.toNat) text)
          (base.toNat + hdr.aStack.toNat + text.length) data)
          (base.toNat + hdr.aStack.toNat + text.length + data.length)
          (List.replicate hdr.aBss.toNat 0), rest⟩, ptr) ∧
      ptr.toNat = hdr.aStack.toNat + text.length + data.length + hdr.aBss.toNat := by
  obtain ⟨hsT, hsD, hsB⟩ := h.sizes
  have hT := h.text_size
  have hD := h.data_size
  have hS := toNat_stack hdr
  have h1 : (hdr.aStack.setWidth 32 + hdr.aText).toNat = hdr.aStack.toNat + text.length := by
    rw [BitVec.toNat_add_of_lt (by omega), hS, hT]
  have h2 : (hdr.aStack.setWidth 32 + hdr.aText + hdr.aData).toNat =
      hdr.aStack.toNat + text.length + data.length := by
    rw [BitVec.toNat_add_of_lt (by omega), h1, hD]
  have a0 : (base + hdr.aStack.setWidth 32).toNat = base.toNat + hdr.aStack.toNat := by
    rw [BitVec.toNat_add_of_lt (by clear * - hhi hmax hS; omega), hS]
  have a1 : (base + (hdr.aStack.setWidth 32 + hdr.aText)).toNat =
      base.toNat + hdr.aStack.toNat + text.length := by
    rw [BitVec.toNat_add_of_lt (by clear * - hhi hmax h1; omega), h1, Nat.add_assoc]
  have a2 : (base + (hdr.aStack.setWidth 32 + hdr.aText + hdr.aData)).toNat =
      base.toNat + hdr.aStack.toNat + text.length + data.length := by
    rw [BitVec.toNat_add_of_lt (by clear * - hhi hmax h2; omega), h2]
    omega
  have h3 : (hdr.aStack.setWidth 32 + hdr.aText + hdr.aData + hdr.aBss).toNat =
      hdr.aStack.toNat + text.length + data.length + hdr.aBss.toNat := by
    clear a0 a1 a2
    rw [BitVec.toNat_add_of_lt (by omega), h2]
  unfold placeTiny
  dsimp only [Option.bind_eq_bind]
  refine ⟨_, ?_, h3⟩
  -- of the addresses only their numbers count from here on
  clear h1 h2 h3 hS hT hD
  generalize base + hdr.aStack.setWidth 32 = p0 at a0 ⊢
  generalize base + (hdr.aStack.setWidth 32 + hdr.aText) = p1 at a1 ⊢
  generalize base + (hdr.aStack.setWidth 32 + hdr.aText + hdr.aData) = p2 at a2 ⊢
  rw [zeroStack_ok _ hlo (by clear * - hhi; omega), hsT, hsD, hsB, Option.bind_some,
    fread_ok _ (by omega) (by omega), Option.bind_some, fread_ok _ (by omega) (by omega),
    Option.bind_some, memset_ok _ (by omega) (by omega), Option.bind_some, a0, a1, a2]

theorem placeData_ok (lo hi : Nat) (base : BitVec 32) (m : Nat → Byte) (rest : List Byte)
    (h : Program hdr text data) (hlo : lo ≤ base.toNat)
    (hhi : base.toNat + hdr.aStack.toNat + data.length + hdr.aBss.toNat ≤ hi)
    (hmax : hi ≤ 0x100000) :
    ∃ ptr, placeData lo hi base hdr ⟨m, data ++ rest⟩ =
        some (⟨layData m base.toNat hdr.aStack.toNat data hdr.aBss.toNat, rest⟩, ptr) ∧
      ptr.toNat = hdr.aStack.toNat + data.length + hdr.aBss.toNat := by
  obtain ⟨_, hsD, hsB⟩ := h.sizes
  have hD := h.data_size
  have hS := toNat_stack hdr
  have h1 : (hdr.aStack.setWidth 32 + hdr.aData).toNat = hdr.aStack.toNat + data.length := by
    rw [BitVec.toNat_add_of_lt (by omega), hS, hD]
  have a0 : (base + hdr.aStack.setWidth 32).toNat = base.toNat + hdr.aStack.toNat := by
    rw [BitVec.toNat_add_of_lt (by omega), hS]
  have a1 : (base + (hdr.aStack.setWidth 32 + hdr.aData)).toNat =
      base.toNat + hdr.aStack.toNat + data.length := by
    rw [BitVec.toNat_add_of_lt (by omega), h1, Nat.add_assoc]
  have h2 : (hdr.aStack.setWidth 32 + hdr.aData + hdr.aBss).toNat =
      hdr.aStack.toNat + data.length + hdr.aBss.toNat := by
    rw [BitVec.toNat_add_of_lt (by clear * - hhi hmax h1; omega), h1]
  unfold placeData layData
  dsimp only [Option.bind_eq_bind]
  refine ⟨_, ?_, h2⟩
  clear h1 h2 hS hD
  generalize base + hdr.aStack.setWidth 32 = p0 at a0 ⊢
  generalize base + (hdr.aStack.setWidth 32 + hdr.aData) = p1 at a1 ⊢
  rw [zeroStack_ok _ hlo (by omega), hsD, hsB, Option.bind_some,
    fread_ok _ (by omega) (by omega), Option.bind_some,
    memset_ok _ (by omega) (by omega), Option.bind_some, a0, a1]

end Place

/-- Stack and bss are zero already. -/
theorem layTiny_eq (b stack bss : Nat) (text data : List Byte) :
    store (store (store (store (fun _ => 0) b (List.replicate stack 0)) (b + stack) text)
      (b + stack + text.length) data) (b + stack + text.length + data.length)
      (List.replicate bss 0) = twoRuns (b + stack) (b + stack + text.length) text data := by
  rw [store_replicate_same (fun _ => 0) b stack 0 (fun _ _ _ => rfl), store_replicate_same]
  · rfl
  · intro a ha _
    rw [store_above _ _ ha, store_above _ _ (by omega)]

theorem layData_eq (b d stack bss : Nat) (text data : List Byte) (h : b + text.length ≤ d) :
    layData (store (fun _ => 0) b text) d stack data bss = twoRuns b (d + stack) text data := by
  unfold layData
  rw [store_replicate_same (store _ b text), store_replicate_same]
  · rfl
  · intro a ha _
    rw [store_above _ _ ha, store_above _ _ (by omega)]
  · intro a ha _
    exact store_above _ _ (by omega)

theorem roundText_toNat {hdr : Exec} {text data : List Byte} (h : Program hdr text data) :
    (roundText hdr.aText).toNat = clicks text := by
  have hT := h.text_size
  have := h.text_fits
  rw [toNat_roundText (by omega), hT]
  rfl

theorem clicks_le {hdr : Exec} {text data : List Byte} (h : Program hdr text data) :
    clicks text ≤ 0x10000 ∧ clicks text % 512 = 0 := by
  have := h.text_fits
  unfold clicks
  omega

/-! ## The loaders -/

section Loaders

variable {hdr : Exec} {text data : List Byte}

theorem Program.accepted (h : Program hdr text data) :
    ¬(hdr.aMagic ≠ omagic ∧ hdr.aMagic ≠ nmagic) := by
  rcases h.magic with hm | hm
  · exact fun hc => hc.1 hm
  · exact fun hc => hc.2 hm

theorem bssEnd_tiny (hom : hdr.aMagic = omagic) :
    bssEnd hdr text data = hdr.aStack.toNat + text.length + data.length + hdr.aBss.toNat := by
  unfold bssEnd dataOff
  rw [if_pos hom]

theorem bssEnd_sep (hom : hdr.aMagic ≠ omagic) :
    bssEnd hdr text data = hdr.aStack.toNat + data.length + hdr.aBss.toNat := by
  unfold bssEnd dataOff
  rw [if_neg hom, Nat.add_zero]

/-- Both runs in place, for `OMAGIC`. -/
theorem relImage_tiny (hom : hdr.aMagic = omagic) (b a : Nat) :
    twoRuns (b + hdr.aStack.toNat) (b + hdr.aStack.toNat + text.length) text data (b + a) =
      relImage hdr text data a := by
  unfold relImage textOff dsOff dataOff
  rw [if_pos hom, if_pos hom, if_pos hom, Nat.zero_add, Nat.add_assoc b, twoRuns_shift]

theorem relImage_sep (hom : hdr.aMagic ≠ omagic) (b a : Nat) :
    twoRuns b (b + clicks text + hdr.aStack.toNat) text data (b + a) = relImage hdr text data a := by
  unfold relImage textOff dsOff dataOff
  rw [if_neg hom, if_neg hom, if_neg hom, Nat.add_zero, Nat.add_assoc b]
  exact twoRuns_shift b 0 _ a text data

theorem vm_load (rest : List Byte) (h : Program hdr text data) :
    ∃ w, Vm86.loadImage hdr (text ++ (data ++ rest)) 0x10000 = some (w, initialSp hdr) ∧
      w.cs = 0x1000 ∧ View hdr text data w.mem w.cs.toNat w.ds.toNat ∧
      w.brk.toNat = bssEnd hdr text data % 65536 := by
  have htext := h.text_fits
  have hdata := h.data_fits
  obtain ⟨hcl, hmod⟩ := clicks_le h
  have hle := text_le_clicks text
  unfold Vm86.loadImage
  rw [if_neg h.accepted]
  by_cases hom : hdr.aMagic = omagic
  · obtain ⟨ptr, hplace, hptr⟩ := placeTiny_ok Vm86.mapLo Vm86.mapHi 0x10000 (fun _ => 0) rest h
      (Nat.le_refl _) (by unfold Vm86.mapHi; simp; omega) (Nat.le_refl _)
    rw [layTiny_eq, show (0x10000 : BitVec 32).toNat = 0x10000 from rfl] at hplace
    have hread : Vm86.readImage hdr (text ++ (data ++ rest)) 0x10000 =
        some ⟨twoRuns (0x10000 + hdr.aStack.toNat) (0x10000 + hdr.aStack.toNat + text.length) text
          data, 0x1000, ptr⟩ := by
      unfold Vm86.readImage
      rw [if_pos hom]
      dsimp only [Option.bind_eq_bind]
      rw [hplace]
      rfl
    rw [hread]
    refine ⟨_, rfl, rfl, ?_, ?_⟩
    · have hds : 16 * (0x1000 : BitVec 32).toNat = 0x10000 + dsOff hdr text := by
        unfold dsOff
        rw [if_pos hom]
        rfl
      exact view_of_rel 0x10000 h (by decide) rfl hds fun a _ => relImage_tiny hom 0x10000 a
    · rw [bssEnd_tiny hom, ← hptr]
      exact BitVec.toNat_setWidth 16 ptr
  · obtain ⟨hsT, _, _⟩ := h.sizes
    have hround := roundText_toNat h
    have hdat : (0x10000 + roundText hdr.aText).toNat = 0x10000 + clicks text := by
      rw [BitVec.toNat_add_of_lt (by rw [hround]; simp; omega), hround]
      rfl
    have hseg : (0x1000 + (roundText hdr.aText >>> 4)).toNat = 0x1000 + clicks text / 16 := by
      have hshift : (roundText hdr.aText >>> 4).toNat = clicks text / 16 := by
        rw [BitVec.toNat_ushiftRight, Nat.shiftRight_eq_div_pow, hround]
      rw [BitVec.toNat_add_of_lt (by rw [hshift]; simp; omega), hshift]
      rfl
    obtain ⟨ptr, hplace, hptr⟩ := placeData_ok Vm86.mapLo Vm86.mapHi (0x10000 + roundText hdr.aText)
      (store (fun _ => 0) 0x10000 text) rest h (by rw [hdat]; unfold Vm86.mapLo; omega)
      (by rw [hdat]; unfold Vm86.mapHi; omega) (Nat.le_refl _)
    rw [hdat, layData_eq _ _ _ _ _ _ (by omega)] at hplace
    have htxt : fread Vm86.mapLo Vm86.mapHi 0x10000 text.length ⟨fun _ => 0, text ++ (data ++ rest)⟩ =
        some ⟨store (fun _ => 0) 0x10000 text, data ++ rest⟩ :=
      fread_ok _ (Nat.le_refl _) (by unfold Vm86.mapHi; simp; omega)
    have hread : Vm86.readImage hdr (text ++ (data ++ rest)) 0x10000 =
        some ⟨twoRuns 0x10000 (0x10000 + clicks text + hdr.aStack.toNat) text data,
          0x1000 + (roundText hdr.aText >>> 4), ptr⟩ := by
      unfold Vm86.readImage
      rw [if_neg hom, hsT, htxt]
      dsimp only [Option.bind_eq_bind, Option.bind_some]
      rw [hplace]
      rfl
    rw [hread]
    refine ⟨_, rfl, rfl, ?_, ?_⟩
    · have hds : 16 * (0x1000 + (roundText hdr.aText >>> 4)).toNat = 0x10000 + dsOff hdr text := by
        unfold dsOff
        rw [if_neg hom, hseg]
        omega
      exact view_of_rel 0x10000 h (by decide) rfl hds fun a _ => relImage_sep hom 0x10000 a
    · rw [bssEnd_sep hom, ← hptr]
      exact BitVec.toNat_setWidth 16 ptr

/-- Where 86sim puts the data. -/
def simData (text : List Byte) : Nat := (0x2120 + clicks text) % 0x10000

/-- The memory of 86sim. -/
def simMem (hdr : Exec) (text data : List Byte) : Nat → Byte :=
  if hdr.aMagic = omagic then
    twoRuns (0x2120 + hdr.aStack.toNat) (0x2120 + hdr.aStack.toNat + text.length) text data
  else
    layData (store (fun _ => 0) 0x2120 text) (simData text) hdr.aStack.toNat data hdr.aBss.toNat

theorem sim_load (rest : List Byte) (h : Program hdr text data) :
    ∃ v ds endMem, Sim86.loadImage hdr (text ++ (data ++ rest)) Sim86.fresh =
        .ok (v, endMem, initialSp hdr) ∧
      v.machine = { Sim86.fresh with
        ram := simMem hdr text data
        registers := Sim86.loadRegisters Sim86.fresh ds
        ip := hdr.aEntry.truncate 16 } ∧
      16 * ds.toNat = 0x2120 + dsOff hdr text ∧
      v.brk.toNat = bssEnd hdr text data % 65536 := by
  have htext := h.text_fits
  have hdata := h.data_fits
  obtain ⟨hcl, hmod⟩ := clicks_le h
  have hle := text_le_clicks text
  have hoff : ((Sim86.fresh.loadSegment.zeroExtend 32 <<< 4 : BitVec 32)) = 0x2120 := rfl
  unfold Sim86.loadImage
  rw [if_neg h.accepted]
  by_cases hom : hdr.aMagic = omagic
  · obtain ⟨ptr, hplace, hptr⟩ := placeTiny_ok 0 0x100000 0x2120 (fun _ => 0) rest h
      (Nat.zero_le _) (by simp; omega) (Nat.le_refl _)
    rw [layTiny_eq, show (0x2120 : BitVec 32).toNat = 0x2120 from rfl] at hplace
    obtain ⟨endMem, hread⟩ : ∃ endMem, Sim86.readImage hdr (text ++ (data ++ rest)) Sim86.fresh =
        some ⟨simMem hdr text data, 0x212, endMem, ptr⟩ := by
      unfold Sim86.readImage simMem
      rw [if_pos hom, if_pos hom, hoff, show Sim86.fresh.ram = fun _ => 0 from rfl]
      dsimp only [Option.bind_eq_bind]
      rw [hplace]
      exact ⟨_, rfl⟩
    rw [hread]
    refine ⟨_, 0x212, endMem, rfl, rfl, ?_, ?_⟩
    · unfold dsOff
      rw [if_pos hom]
      rfl
    · rw [bssEnd_tiny hom, ← hptr]
      exact BitVec.toNat_setWidth 16 ptr
  · obtain ⟨hsT, _, _⟩ := h.sizes
    have hround := roundText_toNat h
    have hdat : ((0x2120 + roundText hdr.aText).truncate 16 : BitVec 16).toNat = simData text := by
      unfold simData
      rw [BitVec.truncate_eq_setWidth, BitVec.toNat_setWidth,
        BitVec.toNat_add_of_lt (by rw [hround]; simp; omega), hround]
      rfl
    have hdat' : ((((0x2120 + roundText hdr.aText).truncate 16 : BitVec 16)).zeroExtend 32).toNat =
        simData text := by
      rw [BitVec.toNat_setWidth_of_le (by decide), hdat]
    have hseg : (0x212 + (roundText hdr.aText >>> 4).truncate 16 : BitVec 16).toNat =
        0x212 + clicks text / 16 := by
      have hshift : ((roundText hdr.aText >>> 4).truncate 16 : BitVec 16).toNat =
          clicks text / 16 := by
        rw [BitVec.truncate_eq_setWidth, BitVec.toNat_setWidth, BitVec.toNat_ushiftRight,
          Nat.shiftRight_eq_div_pow, hround]
        clear * - hcl
        omega
      rw [BitVec.toNat_add_of_lt (by rw [hshift]; simp; omega), hshift]
      rfl
    have hlt : simData text < 0x10000 := Nat.mod_lt _ (by decide)
    obtain ⟨ptr, hplace, hptr⟩ := placeData_ok 0 0x100000
      (((0x2120 + roundText hdr.aText).truncate 16 : BitVec 16).zeroExtend 32)
      (store (fun _ => 0) 0x2120 text) rest h (Nat.zero_le _) (by rw [hdat']; omega) (Nat.le_refl _)
    rw [hdat'] at hplace
    have htxt : fread 0 0x100000 0x2120 text.length ⟨fun _ => 0, text ++ (data ++ rest)⟩ =
        some ⟨store (fun _ => 0) 0x2120 text, data ++ rest⟩ :=
      fread_ok _ (Nat.zero_le _) (by simp; omega)
    obtain ⟨endMem, hread⟩ : ∃ endMem, Sim86.readImage hdr (text ++ (data ++ rest)) Sim86.fresh =
        some ⟨simMem hdr text data, 0x212 + (roundText hdr.aText >>> 4).truncate 16, endMem, ptr⟩ := by
      unfold Sim86.readImage simMem
      rw [if_neg hom, if_neg hom, hsT, hoff, show Sim86.fresh.ram = fun _ => 0 from rfl, htxt]
      dsimp only [Option.bind_eq_bind, Option.bind_some]
      rw [hplace]
      exact ⟨_, rfl⟩
    rw [hread]
    refine ⟨_, _, endMem, rfl, rfl, ?_, ?_⟩
    · unfold dsOff
      rw [if_neg hom]
      dsimp only
      rw [hseg]
      omega
    · rw [bssEnd_sep hom, ← hptr]
      exact BitVec.toNat_setWidth 16 ptr

/-- Zeros laid over a memory. -/
theorem layData_zero (m : Nat → Byte) (d stack bss : Nat) {data : List Byte}
    (h : ∀ b ∈ data, b = 0) (x : Nat) :
    layData m d stack data bss x =
      if d ≤ x ∧ x < d + stack + data.length + bss then 0 else m x := by
  obtain ⟨n, rfl⟩ : ∃ n, data = List.replicate n 0 := ⟨_, List.eq_replicate_of_mem h⟩
  unfold layData
  rw [store_replicate, store_replicate, store_replicate, List.length_replicate]
  by_cases hx : d ≤ x ∧ x < d + stack + n + bss
  · rw [if_pos hx]
    split_ifs <;> first | rfl | omega
  · rw [if_neg hx, if_neg (by omega), if_neg (by omega), if_neg (by omega)]

theorem relImage_zero (hom : hdr.aMagic ≠ omagic) (h : ∀ b ∈ data, b = 0) (a : Nat) :
    relImage hdr text data a = store (fun _ => 0) 0 text a := by
  have hdata : data = List.replicate data.length 0 := List.eq_replicate_of_mem h
  have hbefore := text_before_data hdr text
  unfold relImage twoRuns
  unfold textOff at hbefore ⊢
  rw [if_neg hom] at hbefore ⊢
  rw [hdata, store_replicate_same]
  intro x hx _
  exact store_above _ _ (by omega)

theorem simData_low (h : Program hdr text data) (hhigh : 0x10000 ≤ 0x2120 + clicks text) :
    simData text + 0x10000 = 0x2120 + clicks text := by
  have := (clicks_le h).1
  unfold simData
  omega

/-- The memory of 86sim is the program where the data is in its place. -/
theorem simMem_fit (hfit : hdr.aMagic = omagic ∨ 0x2120 + clicks text < 0x10000) (a : Nat) :
    simMem hdr text data (0x2120 + a) = relImage hdr text data a := by
  have hle := text_le_clicks text
  unfold simMem
  by_cases hom : hdr.aMagic = omagic
  · rw [if_pos hom]
    exact relImage_tiny hom 0x2120 a
  · have hlow : simData text = 0x2120 + clicks text := by
      unfold simData
      rw [Nat.mod_eq_of_lt (hfit.resolve_left hom)]
    rw [if_neg hom, hlow, layData_eq _ _ _ _ _ _ (by omega)]
    exact relImage_sep hom 0x2120 a

/-- It is the program too where only zeros are out of place, over zeros. -/
theorem simMem_zero (h : Program hdr text data) (hom : hdr.aMagic ≠ omagic)
    (hhigh : 0x10000 ≤ 0x2120 + clicks text) (hdata : ∀ b ∈ data, b = 0)
    (htext : ∀ b ∈ text.take (clicks text + bssEnd hdr text data - 0x10000), b = 0) (a : Nat) :
    simMem hdr text data (0x2120 + a) = relImage hdr text data a := by
  have hlow := simData_low h hhigh
  have hend : bssEnd hdr text data = _ := bssEnd_sep hom
  unfold simMem
  rw [if_neg hom, layData_zero _ _ _ _ hdata, relImage_zero hom hdata]
  split
  · next hin =>
    by_cases ha : a < text.length
    · have hz := htext text[a] (List.mem_take_iff_getElem.mpr ⟨a, by omega, rfl⟩)
      have hget := store_add (fun _ => (0 : Byte)) 0 text ha
      rw [Nat.zero_add] at hget
      rw [hget, hz]
    · rw [store_above _ _ (by omega)]
  · unfold store
    simp only [Nat.le_add_right, Nat.zero_le, Nat.add_sub_cancel_left, Nat.sub_zero]

/-- Where 86sim puts the data too low, it reads as zero. -/
theorem simMem_high (hom : hdr.aMagic ≠ omagic) (h : Program hdr text data)
    (hhigh : 0x10000 ≤ 0x2120 + clicks text) (hend : bssEnd hdr text data < 0x10000) {a : Nat}
    (ha : clicks text ≤ a) : simMem hdr text data (0x2120 + a) = 0 := by
  have hlow := simData_low h hhigh
  have hle := text_le_clicks text
  rw [bssEnd_sep hom] at hend
  unfold simMem layData
  rw [if_neg hom, store_above _ _ (by rw [List.length_replicate]; omega),
    store_above _ _ (by omega), store_above _ _ (by rw [List.length_replicate]; omega),
    store_above _ _ (by omega)]

/-- Where both loaders do what they should although the data of 86sim is too low, it is zero. -/
theorem zero_of_image (hom : hdr.aMagic ≠ omagic) (h : Program hdr text data)
    (hhigh : 0x10000 ≤ 0x2120 + clicks text) (hend : bssEnd hdr text data < 0x10000)
    {ds brk : Nat} (hds : 16 * ds = 0x2120 + clicks text)
    (himg : Image hdr text data (simMem hdr text data) 0x212 ds brk) :
    (∀ b ∈ data, b = 0) ∧
      ∀ b ∈ text.take (clicks text + bssEnd hdr text data - 0x10000), b = 0 := by
  have hlow := simData_low h hhigh
  have hcl := (clicks_le h).1
  have hsum : bssEnd hdr text data = _ := bssEnd_sep hom
  have hdata : ∀ b ∈ data, b = 0 := by
    intro b hb
    obtain ⟨k, hk, rfl⟩ := List.mem_iff_getElem.mp hb
    have hoff : dataOff hdr text = hdr.aStack.toNat := by
      unfold dataOff
      rw [if_neg hom, Nat.add_zero]
    rw [← himg.data_bytes k hk, hoff]
    unfold segByte
    rw [BitVec.toNat_ofNat, Nat.mod_eq_of_lt (by omega), Nat.mod_eq_of_lt (by omega), hds,
      Nat.add_assoc]
    exact simMem_high hom h hhigh hend (by omega)
  refine ⟨hdata, ?_⟩
  intro b hb
  obtain ⟨k, hk, rfl⟩ := List.mem_take_iff_getElem.mp hb
  have hoff : textOff hdr = 0 := by
    unfold textOff
    rw [if_neg hom]
  have hfit := h.text_fits
  rw [← himg.text_bytes k (by omega), hoff]
  unfold segByte simMem
  rw [BitVec.toNat_ofNat, Nat.mod_eq_of_lt (by omega), Nat.mod_eq_of_lt (by omega), if_neg hom,
    layData_zero _ _ _ _ hdata, if_pos (by omega)]

end Loaders

theorem bothLoad_fits {hdr : Exec} {text data rest : List Byte} (h : Program hdr text data)
    (hboth : BothLoad hdr text data rest) : LoadFits hdr text data := by
  obtain ⟨v, ds, endMem, hsim, hmach, hds, _⟩ := sim_load rest h
  obtain ⟨v₁, e₁, sp₁, w₁, sp₁', h1, h2, himg, -, -⟩ := hboth
  rw [hsim] at h1
  cases h1
  have hend : bssEnd hdr text data < 0x10000 := by
    rw [← himg.brk]
    exact v.brk.isLt
  refine ⟨hend, ?_⟩
  by_cases hom : hdr.aMagic = omagic
  · exact Or.inl hom
  right
  by_cases hlow : 0x2120 + clicks text < 0x10000
  · exact Or.inl hlow
  right
  rw [hmach] at himg
  unfold dsOff at hds
  rw [if_neg hom] at hds
  exact zero_of_image hom h (by omega) hend hds himg

theorem fits_bothLoad {hdr : Exec} {text data rest : List Byte} (h : Program hdr text data)
    (hfits : LoadFits hdr text data) : BothLoad hdr text data rest := by
  obtain ⟨w, hvm, -, hview, hbrk⟩ := vm_load rest h
  obtain ⟨v, ds, endMem, hsim, hmach, hds, hbrk'⟩ := sim_load rest h
  obtain ⟨hend, hfit⟩ := hfits
  have hrel : ∀ a, simMem hdr text data (0x2120 + a) = relImage hdr text data a := by
    intro a
    by_cases hlow : hdr.aMagic = omagic ∨ 0x2120 + clicks text < 0x10000
    · exact simMem_fit hlow a
    · rw [not_or] at hlow
      obtain ⟨hdata, htext⟩ := (hfit.resolve_left hlow.1).resolve_left hlow.2
      exact simMem_zero h hlow.1 (by omega) hdata htext a
  rw [Nat.mod_eq_of_lt hend] at hbrk hbrk'
  have hsv : View hdr text data v.machine.ram v.machine.cs.toNat
      (v.machine.registers Sim86.rDS).toNat := by
    rw [hmach]
    exact view_of_rel 0x2120 h (by decide) rfl hds fun a _ => hrel a
  exact ⟨v, endMem, _, w, _, hsim, hvm, hsv.image h hend hbrk', hview.image h hend hbrk,
    hsv.same hview (hbrk'.trans hbrk.symm)⟩

/-- **Program loading.** Both loaders put text, data, bss and the break where they belong, and
    show the same memory, exactly where the program meets `LoadFits`. -/
theorem load_image (hdr : Exec) (text data rest : List Byte) (h : Program hdr text data) :
    BothLoad hdr text data rest ↔ LoadFits hdr text data :=
  ⟨bothLoad_fits h, fits_bothLoad h⟩

/-- A program with four bytes of bss. -/
theorem load_image_small :
    Program ⟨omagic, 0, 3, 2, 4, 0⟩ [1, 2, 3] [4, 5] ∧
      (BothLoad ⟨omagic, 0, 3, 2, 4, 0⟩ [1, 2, 3] [4, 5] [] ↔
        LoadFits ⟨omagic, 0, 3, 2, 4, 0⟩ [1, 2, 3] [4, 5]) := by
  have h : Program ⟨omagic, 0, 3, 2, 4, 0⟩ [1, 2, 3] [4, 5] :=
    ⟨by decide, by decide, by decide, by decide, by decide⟩
  exact ⟨h, load_image _ _ _ [] h⟩

theorem not_loaded {text : List Byte} (hlen : text.length = 0xde01)
    (h : Program ⟨nmagic, 0, 0xde01, 1, 0, 0⟩ text [7]) :
    ¬BothLoad ⟨nmagic, 0, 0xde01, 1, 0, 0⟩ text [7] [] := by
  intro hboth
  obtain ⟨_, hom | hlow | ⟨hdata, _⟩⟩ := bothLoad_fits h hboth
  · exact absurd hom (by decide)
  · unfold clicks at hlow
    rw [hlen] at hlow
    exact absurd hlow (by decide)
  · exact absurd (hdata 7 (by simp)) (by decide)

/-- A byte of data after 0xde01 bytes of text. -/
theorem long_text_loses_data :
    ¬BothLoad ⟨nmagic, 0, 0xde01, 1, 0, 0⟩ (List.replicate 0xde01 1) [7] [] := by
  have h : Program ⟨nmagic, 0, 0xde01, 1, 0, 0⟩ (List.replicate 0xde01 1) [7] := by
    refine ⟨by decide, ?_, by decide, ?_, by decide⟩ <;> rw [List.length_replicate]
    · rfl
    · decide
  exact not_loaded List.length_replicate h

end Venix.Load
