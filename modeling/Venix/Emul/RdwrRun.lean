/-
  `read`, `write` and `lseek` of the two emulators, as the guest sees them.

  `rdwr` copies the whole buffer to the guest, however few bytes the host has delivered. And a
  result of 65535 is the error mark of a word, so that it is reported with the `errno` of an earlier
  call.
-/
import Venix.Lib.Scatter
import Venix.Sim86.Rdwr
import Venix.Sim86.Write
import Venix.Vm86.Rdwr

namespace Venix.Emul

open Venix.Lib hiding Byte

/-! ## 86sim -/

section Sim

open Sim86 hiding Byte DWord

variable {v : Os} {m m' : Machine}

/-- The addresses of the bytes from `ptr` on, in the data segment. -/
def guestAddress (c : Core) (ptr : Word) (i : Nat) : Nat :=
  (c.addressIn 3 (ptr + BitVec.ofNat 16 i)).toNat

theorem guestAddress_ne (c : Core) (ptr : Word) {i j : Nat} (hi : i < 65536) (hj : j < i) :
    guestAddress c ptr i ≠ guestAddress c ptr j := by
  unfold guestAddress
  rw [addressIn_toNat, addressIn_toNat, BitVec.toNat_add, BitVec.toNat_add, BitVec.toNat_ofNat,
    BitVec.toNat_ofNat]
  omega

theorem guestAddress_succ (c : Core) (ptr : Word) (i : Nat) :
    guestAddress c (ptr + 1) i = guestAddress c ptr (i + 1) := by
  unfold guestAddress
  rw [BitVec.add_assoc, Nat.add_comm i 1, BitVec.ofNat_add]
  rfl

theorem writeByte_ram {b : BitVec 8} {ptr : Word} (h : writeByte b ptr dSeg m = .ok ((), m')) :
    m'.ram = Function.update m.ram (guestAddress m.toCore ptr 0) b ∧ m'.registers = m.registers := by
  have haddress : guestAddress m.toCore ptr 0 = (m.addressIn 3 ptr).toNat := by
    unfold guestAddress
    rw [BitVec.add_zero]
  rw [show (dSeg : Int) = ((3 : Nat) : Int) from rfl, writeByte_eq b ptr (by decide) m] at h
  split at h
  · cases h
  · split at h
    · cases h
    · cases h
      exact ⟨by rw [haddress], rfl⟩

theorem sim_copyout_scattered (l : List (BitVec 8)) {m : Machine} {ptr : Word}
    (hlen : l.length ≤ 65536) (h : Sim86.copyout l ptr m = .ok ((), m')) :
    Scattered (guestAddress m.toCore ptr) l m.ram m'.ram ∧ m'.registers = m.registers := by
  induction l generalizing m ptr with
  | nil =>
    cases h
    exact ⟨scattered_nil, rfl⟩
  | cons b l ih =>
    rw [List.length_cons] at hlen
    obtain ⟨_, m₁, hwrite, hrest⟩ := stateT_bind_eq_ok h
    obtain ⟨hram, hregs⟩ := writeByte_ram hwrite
    obtain ⟨hscattered, hregs'⟩ := ih (by omega) hrest
    have haddress : guestAddress m₁.toCore (ptr + 1) = fun i => guestAddress m.toCore ptr (i + 1) := by
      funext i
      rw [← guestAddress_succ]
      unfold guestAddress Core.addressIn
      rw [hregs]
    rw [haddress, hram] at hscattered
    refine ⟨Scattered.cons (fun i hi => ?_) hscattered, hregs'.trans hregs⟩
    exact (guestAddress_ne _ _ (by omega) (Nat.zero_lt_succ i)).symm

/-- A call whose descriptor and buffer pass the tests, with the descriptor of the host. -/
structure SimServes (v : Os) (c : Core) (fd : Int) : Prop where
  fd : v.hostFd c.ax.toNat = some fd
  good : v.badFd c.ax.toNat = false
  addr : v.badAddr c c.dx = false

theorem rdwr_served {isread : Bool} {buffer : List (BitVec 8)} {fn : RdwrFn} {fd : Int}
    (h : SimServes v m.toCore fd) :
    Sim86.rdwr v isread (some buffer) fn m = rdwrBuffer isread fd fn m.dx m.cx buffer m := by
  refine (stateT_bind_ok _ (rfl : core m = .ok (m.toCore, m))).trans ?_
  rw [h.fd]
  dsimp only
  rw [h.good, if_neg (by decide), h.addr, if_neg (by decide)]

theorem sysError_run (e : DWord) (m : Machine) :
    ∃ m', sysError e m = .ok ((), m') ∧ m'.ram = m.ram ∧ m'.cx = e.truncate 16 ∧ m'.ax = 0xffff :=
  ⟨_, rfl, rfl, rfl, rfl⟩

theorem sysRetvalInt_run (errno : DWord) (r : Word) (m : Machine) :
    ∃ m', sysRetvalInt errno r m = .ok ((), m') ∧ m'.ram = m.ram ∧ m'.ax = r ∧
      m'.cx = if r = 0xffff then errno.truncate 16 else 0 := by
  unfold sysRetvalInt
  by_cases hmark : r = 0xffff
  · obtain ⟨m', hrun, hram, hcx, hax⟩ := sysError_run errno m
    rw [if_pos hmark, if_pos hmark]
    exact ⟨m', hrun, hram, hax.trans hmark.symm, hcx⟩
  · rw [if_neg hmark, if_neg hmark]
    exact ⟨_, rfl, rfl, rfl, rfl⟩

/-- A `read` that the host serves and that comes to its end. -/
structure SimRead where
  v : Os
  m : Machine
  m' : Machine
  fd : Int
  errno : DWord
  /-- What the buffer of `malloc` holds at first, and the bytes that the host delivers. -/
  buffer : List (BitVec 8)
  delivered : List (BitVec 8)
  size : buffer.length = m.cx.toNat
  fits : delivered.length ≤ m.cx.toNat
  serves : SimServes v m.toCore fd
  run : Sim86.rdwr v true (some buffer) (hostRead errno delivered) m = .ok ((), m')

namespace SimRead

def address (r : SimRead) : Nat → Nat := guestAddress r.m.toCore r.m.dx

/-- The read changes the bytes that were delivered, and no others. -/
def Exact (r : SimRead) : Prop := Scattered r.address r.delivered r.m.ram r.m'.ram

/-- The rest of the buffer is what the guest has there already. -/
def SameRest (r : SimRead) : Prop :=
  ∀ i (hi : i < (r.buffer.drop r.delivered.length).length),
    (r.buffer.drop r.delivered.length)[i] = r.m.ram (r.address (r.delivered.length + i))

/-- The whole buffer goes to the guest. -/
theorem scattered (r : SimRead) : Scattered r.address
    (r.delivered ++ r.buffer.drop r.delivered.length) r.m.ram r.m'.ram := by
  have hrun := r.run
  have hsize := r.size
  have hfits := r.fits
  rw [rdwr_served r.serves] at hrun
  change (if (r.delivered.length : Int) = -1 then sysError r.errno
    else do
      Sim86.copyout ((r.delivered ++ r.buffer.drop r.delivered.length).take r.m.cx.toNat) r.m.dx
      sysRetvalInt r.errno (BitVec.ofInt 16 r.delivered.length) : Act Unit) r.m = _ at hrun
  have hlen : (r.delivered ++ r.buffer.drop r.delivered.length).length = r.m.cx.toNat := by
    rw [List.length_append, List.length_drop]
    omega
  have hlt := r.m.cx.isLt
  rw [if_neg (by omega), List.take_of_length_le hlen.le] at hrun
  obtain ⟨_, m₁, hcopy, hret⟩ := stateT_bind_eq_ok hrun
  obtain ⟨hscattered, -⟩ := sim_copyout_scattered _ (by omega) hcopy
  obtain ⟨m₂, hret', hram, -⟩ := sysRetvalInt_run r.errno (BitVec.ofInt 16 r.delivered.length) m₁
  rw [hret] at hret'
  cases hret'
  rw [hram]
  exact hscattered

theorem exact_iff (r : SimRead) : r.Exact ↔ r.SameRest := by
  have hsize := r.size
  have hfits := r.fits
  have hlt := r.m.cx.isLt
  refine r.scattered.first_iff fun i hi j hj => guestAddress_ne _ _ ?_ hj
  rw [List.length_append, List.length_drop] at hi
  omega

end SimRead

end Sim

/-! ## vm86venix -/

section Vm

open Vm86

variable {uc uc' : Ctx}

theorem store_scattered (m : Nat → BitVec 8) (p : Nat) (l : List (BitVec 8)) :
    Scattered (fun i => p + i) l m (store m p l) := by
  refine ⟨fun i hi => store_add m p l hi, fun a ha => ?_⟩
  rcases Nat.lt_or_ge a p with hlt | hge
  · exact store_below m l hlt
  · refine store_above m l (Nat.le_of_not_lt fun hlt => ?_)
    exact ha (a - p) (by omega) (by omega)

/-- The linear address of `ptr` in the data segment. -/
def linear (uc : Ctx) (ptr : Word) : Nat := ptr.toNat + (uc.ds <<< 4).toNat

theorem vm_copyout_scattered {l : List (BitVec 8)} {ptr : Word} (h : uc.copyout l ptr = some uc') :
    Scattered (fun i => linear uc ptr + i) l uc.mem uc'.mem := by
  unfold Ctx.copyout Vm86.copyout at h
  dsimp only at h
  split at h
  · cases h
    exact store_scattered _ _ _
  · cases h

/-- A call whose descriptor and buffer pass the tests, with the descriptor of the host. -/
structure VmServes (uc : Ctx) (fd : Int) : Prop where
  fd : uc.hostFd uc.arg1.toNat = some fd
  good : uc.badFd uc.arg1.toNat = false
  addr : uc.badAddr uc.arg2 = false

theorem vm_rdwr_served {errno : DWord} {isread : Bool} {buffer : List (BitVec 8)} {fn : RdwrFn}
    {fd : Int} (h : VmServes uc fd) : uc.rdwr errno isread (some buffer) fn =
      if uc.arg3 = 0 then some (uc.sysRetvalInt errno 0)
      else uc.rdwrBuffer isread fd fn uc.arg2 uc.arg3 buffer := by
  unfold Ctx.rdwr
  rw [h.fd]
  dsimp only
  rw [h.good, if_neg (by decide), h.addr]
  rfl

theorem vm_sysRetvalInt (uc : Ctx) (errno : DWord) (r : Word) :
    (uc.sysRetvalInt errno r).mem = uc.mem ∧ (uc.sysRetvalInt errno r).arg1 = r ∧
      (uc.sysRetvalInt errno r).arg3 = if r = 0xffff then errno.truncate 16 else 0 := by
  unfold Ctx.sysRetvalInt
  by_cases hmark : r = 0xffff
  · rw [if_pos hmark, if_pos hmark, hmark]
    exact ⟨rfl, rfl, rfl⟩
  · rw [if_neg hmark, if_neg hmark]
    refine ⟨rfl, BitVec.eq_of_toNat_eq ?_, rfl⟩
    change ((r.zeroExtend 32).truncate 16 : Word).toNat = r.toNat
    rw [BitVec.toNat_setWidth, BitVec.toNat_setWidth]
    omega

/-- A `read` that the host serves and that comes to its end. -/
structure VmRead where
  uc : Ctx
  uc' : Ctx
  fd : Int
  errno : DWord
  buffer : List (BitVec 8)
  delivered : List (BitVec 8)
  size : buffer.length = uc.arg3.toNat
  fits : delivered.length ≤ uc.arg3.toNat
  serves : VmServes uc fd
  run : uc.rdwr errno true (some buffer) (hostRead errno delivered) = some uc'

namespace VmRead

def address (r : VmRead) (i : Nat) : Nat := linear r.uc r.uc.arg2 + i

def Exact (r : VmRead) : Prop := Scattered r.address r.delivered r.uc.mem r.uc'.mem

def SameRest (r : VmRead) : Prop :=
  ∀ i (hi : i < (r.buffer.drop r.delivered.length).length),
    (r.buffer.drop r.delivered.length)[i] = r.uc.mem (r.address (r.delivered.length + i))

/-- The whole buffer goes to the guest. -/
theorem scattered (r : VmRead) : Scattered r.address
    (r.delivered ++ r.buffer.drop r.delivered.length) r.uc.mem r.uc'.mem := by
  have hrun := r.run
  have hsize := r.size
  have hfits := r.fits
  have hlen : (r.delivered ++ r.buffer.drop r.delivered.length).length = r.uc.arg3.toNat := by
    rw [List.length_append, List.length_drop]
    omega
  rw [vm_rdwr_served r.serves] at hrun
  split at hrun
  · next hzero =>
    rw [hzero] at hlen
    rw [List.eq_nil_of_length_eq_zero hlen, ← Option.some.inj hrun, (vm_sysRetvalInt _ _ _).1]
    exact scattered_nil
  · change (if (r.delivered.length : Int) = -1 then some (r.uc.sysError r.errno)
      else do
        let uc ← r.uc.copyout ((r.delivered ++ r.buffer.drop r.delivered.length).take r.uc.arg3.toNat)
          r.uc.arg2
        some (uc.sysRetvalInt r.errno (BitVec.ofInt 16 r.delivered.length))) = _ at hrun
    rw [if_neg (by omega), List.take_of_length_le hlen.le] at hrun
    obtain ⟨uc₁, hcopy, hret⟩ := Option.bind_eq_some_iff.1 hrun
    rw [← Option.some.inj hret, (vm_sysRetvalInt _ _ _).1]
    exact vm_copyout_scattered hcopy

theorem exact_iff (r : VmRead) : r.Exact ↔ r.SameRest :=
  r.scattered.first_iff fun i _ j hj => by
    unfold address
    omega

end VmRead

end Vm

/-- A read changes exactly the bytes that were delivered where the rest of the buffer is what the
guest has there already: in particular where all bytes that were asked for were delivered. -/
theorem read_exact_iff (sim : SimRead) (vm : VmRead) :
    (sim.Exact ↔ sim.SameRest) ∧ (vm.Exact ↔ vm.SameRest) :=
  ⟨sim.exact_iff, vm.exact_iff⟩

/-! ## A short read -/

section Short

open Sim86 hiding Byte DWord

/-- A machine that asks for two bytes at 1000:0100. -/
def simShort : Machine :=
  { fresh with
    registers := fun i => if i = rDX then 0x100 else if i = rCX then 2 else if i = rDS then 0x1000 else 0 }

/-- The read that delivers one byte, with 0xff in the buffer. -/
def simShortRead : SimRead where
  v := ⟨0x8000, 0, fun _ => 3⟩
  m := simShort
  m' := _
  fd := 3
  errno := 0
  buffer := [0xff, 0xff]
  delivered := [0x41]
  size := rfl
  fits := by decide
  serves := ⟨rfl, rfl, rfl⟩
  run := rfl

def vmShort : Vm86.Ctx where
  mem _ := 0
  cs := 0
  ds := 0x1000
  eip := 0
  esp := 0xf000
  brk := 0x8000
  magic := 0
  stack := 0
  eax := 0
  ecx := 2
  edx := 0x100
  esi := 0
  openFd _ := 3

def vmShortRead : VmRead where
  uc := vmShort
  uc' := _
  fd := 3
  errno := 0
  buffer := [0xff, 0xff]
  delivered := [0x41]
  size := rfl
  fits := by decide
  serves := ⟨rfl, rfl, rfl⟩
  run := rfl

/-- The byte after the one that was delivered is changed too, in both emulators. -/
theorem short_read_overwrites :
    (simShortRead.m.ram 0x10101 = 0 ∧ simShortRead.m'.ram 0x10101 = 0xff ∧ ¬simShortRead.Exact) ∧
      vmShortRead.uc.mem 0x10101 = 0 ∧ vmShortRead.uc'.mem 0x10101 = 0xff ∧ ¬vmShortRead.Exact := by
  refine ⟨⟨rfl, by decide, fun h => ?_⟩, rfl, by decide, fun h => ?_⟩
  · have hframe := h.frame 0x10101 fun i hi => by
      obtain rfl : i = 0 := Nat.lt_one_iff.1 hi
      decide
    exact absurd hframe (by decide)
  · have hframe := h.frame 0x10101 fun i hi => by
      obtain rfl : i = 0 := Nat.lt_one_iff.1 hi
      decide
    exact absurd hframe (by decide)

end Short

end Venix.Emul
