/-
  The disk address of a command packet (`dev/at.c`): the sector has 6 bits of its byte, the cylinder
  8 bits and the other 2 of the sector's byte, the head 5 bits of its byte and the drive the other 3.

  A block number is an `unsigned int`, so the packet is of the block modulo 65536.
-/
import Venix.Xt.DriverRun

namespace Venix.Xt

/-! ## Mixed radix -/

/-- Sector, head and cylinder of a block give the block. -/
theorem radix (n s k : Nat) : (n / s / k * k + n / s % k) * s + n % s = n := by
  rw [Nat.div_add_mod', Nat.div_add_mod']

theorem cyln_lt {n s k c : Nat} (h : n < s * k * c) : n / s / k < c := by
  rw [Nat.div_div_eq_div_mul]
  exact Nat.div_lt_of_lt_mul h

theorem pos_of_lt {n s k c : Nat} (h : n < s * k * c) : 0 < s ∧ 0 < k := by
  refine ⟨Nat.pos_of_ne_zero fun e => ?_, Nat.pos_of_ne_zero fun e => ?_⟩
  · simp [e] at h
  · simp [e] at h

/-! ## The bytes -/

/-- The two high bits of the cylinder. -/
theorem high_bits {cyln : Nat} (h : cyln < 1024) : cyln / 4 &&& 0xC0 = 2 ^ 6 * (cyln / 256) := by
  have hall : ∀ m < 256, m &&& 0xC0 = 2 ^ 6 * (m / 64) := by decide +kernel
  rw [hall (cyln / 4) (by omega), Nat.div_div_eq_div_mul]

theorem sect_byte {sector cyln : Nat} (hs : sector < 64) (hc : cyln < 1024) :
    sector % 256 ||| (cyln / 4 &&& 0xC0) = 64 * (cyln / 256) + sector := by
  rw [high_bits hc, Nat.mod_eq_of_lt (by omega), Nat.or_comm, ← Nat.two_pow_add_eq_or_of_lt hs]

theorem head_byte {head drive : Nat} (hh : head < 32) (hd : drive < 8) :
    (head ||| drive * 32) % 256 = 32 * drive + head := by
  rw [Nat.or_comm, mul_comm, ← Nat.two_pow_add_eq_or_of_lt (i := 5) hh]
  omega

/-! ## The packet -/

/-- The bytes of the packet that say where on which drive. -/
def Transfer.packet (t : Transfer) : Nat × Nat × Nat := (t.cyln, t.sect, t.head)

/-- The drive and the block that a packet is for, with the geometry of the drives. -/
def decode (parm : Nat → Xd) (p : Nat × Nat × Nat) : Nat × Nat :=
  let drive := p.2.2 / 32
  let cyln := p.2.1 / 64 * 256 + p.1
  (drive, (cyln * (parm drive).nhead + p.2.2 % 32) * (parm drive).sechd + p.2.1 % 64)

/-- The absolute block number. -/
def absolute (e : Env) (b : Buf) : Nat := b.blkno + (e.part b).oblock

/-- A block that is on its drive of `ncyls` cylinders, with a number of 16 bits. -/
structure OnDrive (e : Env) (ncyls : Nat) (b : Buf) : Prop where
  sechd : (e.xd b).sechd ≤ 64
  nhead : (e.xd b).nhead ≤ 32
  cyls : ncyls < 1024
  drive : b.drive < 8
  block : absolute e b < (e.xd b).sechd * (e.xd b).nhead * ncyls
  word : absolute e b < 65536

variable {e : Env} {b : Buf} {ncyls : Nat}

theorem xtstart_packet (e : Env) (b : Buf) :
    (xtstart e b).t.packet = (transfer e b (0, 0) 0).packet := by
  unfold xtstart
  split
  · split
    · rfl
    · rfl
  · rfl

theorem OnDrive.packet (h : OnDrive e ncyls b) :
    (xtstart e b).t.packet =
      (absolute e b / (e.xd b).sechd / (e.xd b).nhead % 256,
        64 * (absolute e b / (e.xd b).sechd / (e.xd b).nhead / 256) + absolute e b % (e.xd b).sechd,
        32 * b.drive + absolute e b / (e.xd b).sechd % (e.xd b).nhead) := by
  obtain ⟨hs, hk⟩ := pos_of_lt h.block
  have hcyln := (cyln_lt h.block).trans h.cyls
  have hsector := (Nat.mod_lt (absolute e b) hs).trans_le h.sechd
  have hhead := (Nat.mod_lt (absolute e b / (e.xd b).sechd) hk).trans_le h.nhead
  have hword : u16 (b.blkno + (e.part b).oblock) = absolute e b := Nat.mod_eq_of_lt h.word
  rw [xtstart_packet]
  unfold transfer Transfer.packet
  dsimp only
  rw [hword, sect_byte hsector hcyln, head_byte hhead h.drive]

theorem OnDrive.decode (h : OnDrive e ncyls b) :
    decode e.parm (xtstart e b).t.packet = (b.drive, absolute e b) := by
  obtain ⟨hs, hk⟩ := pos_of_lt h.block
  have hsector := (Nat.mod_lt (absolute e b) hs).trans_le h.sechd
  have hhead := (Nat.mod_lt (absolute e b / (e.xd b).sechd) hk).trans_le h.nhead
  rw [h.packet]
  unfold Xt.decode
  dsimp only
  have hdrive : (32 * b.drive + absolute e b / (e.xd b).sechd % (e.xd b).nhead) / 32 = b.drive := by
    omega
  have hlow : (32 * b.drive + absolute e b / (e.xd b).sechd % (e.xd b).nhead) % 32 =
      absolute e b / (e.xd b).sechd % (e.xd b).nhead := by omega
  have hcyln : (64 * (absolute e b / (e.xd b).sechd / (e.xd b).nhead / 256) +
      absolute e b % (e.xd b).sechd) / 64 * 256 + absolute e b / (e.xd b).sechd / (e.xd b).nhead % 256 =
      absolute e b / (e.xd b).sechd / (e.xd b).nhead := by omega
  have hlow₂ : (64 * (absolute e b / (e.xd b).sechd / (e.xd b).nhead / 256) +
      absolute e b % (e.xd b).sechd) % 64 = absolute e b % (e.xd b).sechd := by omega
  rw [hdrive, hlow, hcyln, hlow₂]
  exact congrArg (b.drive, ·) (radix _ _ _)

/-- A packet is of one block of one drive. -/
theorem packet_decodes (e : Env) (ncyls : Nat → Nat) :
    (∀ b, OnDrive e (ncyls b.drive) b →
      decode e.parm (xtstart e b).t.packet = (b.drive, absolute e b)) ∧
    ∀ b b', OnDrive e (ncyls b.drive) b → OnDrive e (ncyls b'.drive) b' →
      (b.drive, absolute e b) ≠ (b'.drive, absolute e b') →
      (xtstart e b).t.packet ≠ (xtstart e b').t.packet := by
  refine ⟨fun b hb => hb.decode, fun b b' hb hb' hne heq => hne ?_⟩
  rw [← hb.decode, ← hb'.decode, heq]

/-- Block 8 of the first partition of the first drive is not block 9. -/
theorem packet_decodes_drive0 :
    decode drive0.parm (xtstart drive0 (rawRead 0 (-256) 8)).t.packet = (0, 9) ∧
    (xtstart drive0 (rawRead 0 (-256) 8)).t.packet ≠
      (xtstart drive0 (rawRead 0 (-256) 9)).t.packet := by
  have hon : ∀ k, k = 8 ∨ k = 9 → OnDrive drive0 305 (rawRead 0 (-256) k) := by
    rintro k (rfl | rfl)
    · exact ⟨by decide, by decide, by decide, by decide, by decide, by decide⟩
    · exact ⟨by decide, by decide, by decide, by decide, by decide, by decide⟩
  have h := packet_decodes drive0 fun _ => 305
  exact ⟨h.1 _ (hon 8 (.inl rfl)), h.2 _ _ (hon 8 (.inl rfl)) (hon 9 (.inr rfl)) (by decide)⟩

/-- Drives of 1023 cylinders with as many heads and sectors as the packet has room for: partition 0
begins with block 1, the others with block 0. -/
def largest : Env where
  sizes := fun _ unit => if unit = 0 then ⟨65535, 1⟩ else ⟨65535, 0⟩
  parm := fun _ => ⟨64, 32, 5, 512 * 32⟩
  ndrv := 2
  ds := 0x1000
  bounce := 0

/-- Block 65536 of such a drive, which a request can ask for, has the packet of block 0. -/
theorem packet_word : InRange largest (rawRead 0 (-256) 65535) ∧
    absolute largest (rawRead 0 (-256) 65535) = 65536 ∧ 65536 < 64 * 32 * 1023 ∧
    absolute largest { rawRead 0 (-256) 0 with minor := 7 } = 0 ∧
    (xtstart largest (rawRead 0 (-256) 65535)).t.packet =
      (xtstart largest { rawRead 0 (-256) 0 with minor := 7 }).t.packet := by
  have hpass : InRange largest (rawRead 0 (-256) 65535) := by
    unfold InRange
    decide
  exact ⟨hpass, by decide, by decide, by decide, by decide⟩

end Venix.Xt
