/-
  The results of `read`, `write` and `lseek`, as the two emulators report them.
-/
import Venix.Emul.RdwrRun
import Venix.Load.ArgsRun

namespace Venix.Emul

open Venix.Lib hiding Byte

/-! ## Values and error marks -/

/-- What `sys_retval_int` makes of the value `rv` and `errno`, or `sys_error` where `rv` is -1. -/
def ReportsInt (rv : Int) (errno : DWord) (cx ax : BitVec 16) : Prop :=
  if rv = -1 then cx = errno.truncate 16
  else ax = BitVec.ofInt 16 rv ∧
    cx = if BitVec.ofInt 16 rv = 0xffff then errno.truncate 16 else 0

theorem errno_word {e : Nat} (he : e ≤ 255) :
    ((BitVec.ofNat 32 e).truncate 16 : BitVec 16).toNat = e := by
  rw [BitVec.toNat_setWidth, BitVec.toNat_ofNat]
  omega

/-- A failure is reported right, and so is a value, but for the error mark. -/
theorem reported_iff {stale : DWord} {cx ax : BitVec 16} (o : Outcome 65536)
    (h : ReportsInt o.rv (o.errno stale) cx ax) :
    o.Reported cx ax.toNat ↔ ¬(o.rv = 65535 ∧ (stale.truncate 16 : BitVec 16) ≠ 0) := by
  cases o with
  | failed e pos le =>
    have hcx : cx.toNat = e := by
      rw [show cx = (BitVec.ofNat 32 e).truncate 16 from h]
      exact errno_word le
    refine iff_of_true ⟨fun h0 => ?_, hcx⟩ fun hmark =>
      absurd (show (-1 : Int) = 65535 from hmark.1) (by decide)
    rw [h0] at hcx
    exact absurd hcx (by simpa using pos.ne)
  | value v lt =>
    have hv : BitVec.ofInt 16 (v : Int) = BitVec.ofNat 16 v := BitVec.ofInt_natCast 16 v
    obtain ⟨hax, hcx⟩ : ax = BitVec.ofInt 16 (v : Int) ∧
        cx = if BitVec.ofInt 16 (v : Int) = 0xffff then stale.truncate 16 else 0 := by
      unfold ReportsInt at h
      rwa [if_neg (show ¬(Outcome.value v lt).rv = -1 from fun h => by
        change (v : Int) = -1 at h
        omega)] at h
    rw [hv] at hax hcx
    have hax' : ax.toNat = v := by
      rw [hax, BitVec.toNat_ofNat, Nat.mod_eq_of_lt lt]
    have hmark : BitVec.ofNat 16 v = 0xffff ↔ (v : Int) = 65535 := by
      rw [← BitVec.toNat_inj, BitVec.toNat_ofNat, Nat.mod_eq_of_lt lt]
      change v = 65535 ↔ _
      omega
    change cx = 0 ∧ ax.toNat = v ↔ ¬((v : Int) = 65535 ∧ (stale.truncate 16 : BitVec 16) ≠ 0)
    rw [and_iff_left hax', hcx, ← hmark]
    by_cases h : BitVec.ofNat 16 v = 0xffff
    · rw [if_pos h, and_iff_right h, not_not]
    · rw [if_neg h]
      exact iff_of_true rfl fun hm => h hm.1

/-- An offset and a failure are reported right. -/
theorem reported_long {stale : DWord} {cx ax dx : BitVec 16} (o : Outcome (2 ^ 31))
    (h : if BitVec.ofInt 32 o.rv = 0xffffffff then cx = (o.errno stale).truncate 16
      else cx = 0 ∧ ax = (BitVec.ofInt 32 o.rv).truncate 16 ∧
        dx = (BitVec.ofInt 32 o.rv >>> 16).truncate 16) :
    o.Reported cx (dx.toNat * 65536 + ax.toNat) := by
  cases o with
  | failed e pos le =>
    rw [if_pos (show BitVec.ofInt 32 (Outcome.failed e pos le).rv = 0xffffffff from rfl)] at h
    have hcx : cx.toNat = e := by
      rw [h]
      exact errno_word le
    refine ⟨fun h0 => ?_, hcx⟩
    rw [h0] at hcx
    exact absurd hcx (by simpa using pos.ne)
  | value v lt =>
    have hv : (BitVec.ofInt 32 (v : Int)).toNat = v := by
      rw [BitVec.ofInt_natCast, BitVec.toNat_ofNat]
      omega
    have hmark : BitVec.ofInt 32 (v : Int) ≠ 0xffffffff := by
      intro h
      rw [h] at hv
      change 4294967295 = v at hv
      omega
    rw [if_neg (show ¬BitVec.ofInt 32 (Outcome.value v lt).rv = 0xffffffff from hmark)] at h
    obtain ⟨hcx, hax, hdx⟩ := h
    refine ⟨hcx, ?_⟩
    change ax = (BitVec.ofInt 32 (v : Int)).truncate 16 at hax
    change dx = (BitVec.ofInt 32 (v : Int) >>> 16).truncate 16 at hdx
    rw [hax, hdx, BitVec.toNat_setWidth, BitVec.toNat_setWidth, BitVec.toNat_ushiftRight, hv,
      Nat.shiftRight_eq_div_pow]
    omega

/-! ## 86sim -/

section Sim

open Sim86 hiding Byte DWord

/-- What `rdwr` leaves in CX and AX, whichever way the data goes. -/
theorem rdwrBuffer_reports {isread : Bool} {fd : Int} {fn : RdwrFn} {ptr len : Word}
    {buffer : List (BitVec 8)} {m m' : Machine}
    (h : rdwrBuffer isread fd fn ptr len buffer m = .ok ((), m')) :
    ∃ buffer', ReportsInt (fn fd buffer').rv (fn fd buffer').errno m'.cx m'.ax := by
  obtain ⟨buffer', m₁, -, h⟩ := stateT_bind_eq_ok h
  refine ⟨buffer', ?_⟩
  unfold ReportsInt
  dsimp only at h
  split at h
  · next hfail =>
    cases h
    rw [if_pos hfail]
    rfl
  · next hok =>
    obtain ⟨_, m₂, -, hret⟩ := stateT_bind_eq_ok h
    obtain ⟨m₃, hret', -, hax, hcx⟩ :=
      sysRetvalInt_run (fn fd buffer').errno (BitVec.ofInt 16 (fn fd buffer').rv) m₂
    rw [hret] at hret'
    cases hret'
    rw [if_neg hok]
    exact ⟨hax, hcx⟩

/-- A `read` or `write` that the host serves and that comes to its end. -/
structure SimCall where
  v : Os
  m : Machine
  m' : Machine
  fd : Int
  isread : Bool
  buffer : List (BitVec 8)
  fn : RdwrFn
  /-- `errno` before the call, and what the host makes of the call. -/
  stale : DWord
  outcome : Outcome 65536
  serves : SimServes v m.toCore fd
  host : ∀ buffer, (fn fd buffer).rv = outcome.rv ∧ (fn fd buffer).errno = outcome.errno stale
  run : Sim86.rdwr v isread (some buffer) fn m = .ok ((), m')

theorem SimCall.reported_iff (r : SimCall) : r.outcome.Reported r.m'.cx r.m'.ax.toNat ↔
    ¬(r.outcome.rv = 65535 ∧ (r.stale.truncate 16 : BitVec 16) ≠ 0) := by
  have hrun := r.run
  rw [rdwr_served r.serves] at hrun
  obtain ⟨buffer', hreports⟩ := rdwrBuffer_reports hrun
  rw [(r.host buffer').1, (r.host buffer').2] at hreports
  exact Emul.reported_iff r.outcome hreports

/-- An `lseek` that the host serves. -/
structure SimSeek where
  v : Os
  m : Machine
  m' : Machine
  lseek : LseekFn
  stale : DWord
  outcome : Outcome (2 ^ 31)
  host : ∀ fd off whence, lseek fd off whence = (outcome.rv, outcome.errno stale)
  run : Sim86.venixSeek v lseek m = .ok ((), m')

theorem sysRetvalLong_run (errno r : DWord) (m : Machine) : ∃ m',
    sysRetvalLong errno r m = .ok ((), m') ∧
      if r = 0xffffffff then m'.cx = errno.truncate 16
      else m'.cx = 0 ∧ m'.ax = r.truncate 16 ∧ m'.dx = (r >>> 16).truncate 16 := by
  unfold sysRetvalLong
  by_cases hmark : r = 0xffffffff
  · rw [if_pos hmark]
    exact ⟨_, rfl, by rw [if_pos hmark]; rfl⟩
  · rw [if_neg hmark]
    exact ⟨_, rfl, by rw [if_neg hmark]; exact ⟨rfl, rfl, rfl⟩⟩

theorem SimSeek.reported (r : SimSeek) :
    r.outcome.Reported r.m'.cx (r.m'.dx.toNat * 65536 + r.m'.ax.toNat) := by
  obtain ⟨v, m, m', lseek, stale, outcome, hhost, hrun⟩ := r
  obtain ⟨m₁, hret, hresult⟩ :=
    sysRetvalLong_run (outcome.errno stale) (BitVec.ofInt 32 outcome.rv) m
  have hseek : sysRetvalLong (outcome.errno stale) (BitVec.ofInt 32 outcome.rv) m = .ok ((), m') := by
    replace hrun := (stateT_bind_ok _ (rfl : core m = .ok (m.toCore, m))).symm.trans hrun
    cases hfd : v.hostFd m.ax.toNat with
    | none =>
      rw [hfd] at hrun
      cases hrun
    | some fd =>
      rw [hfd] at hrun
      dsimp only at hrun
      rwa [hhost] at hrun
  rw [hret] at hseek
  cases hseek
  exact reported_long outcome hresult

end Sim

/-! ## vm86venix -/

section Vm

open Vm86

theorem vm_rdwrBuffer_reports {isread : Bool} {fd : Int} {fn : RdwrFn} {ptr len : Word}
    {buffer : List (BitVec 8)} {uc uc' : Ctx}
    (h : uc.rdwrBuffer isread fd fn ptr len buffer = some uc') :
    ∃ buffer', ReportsInt (fn fd buffer').rv (fn fd buffer').errno uc'.arg3 uc'.arg1 := by
  obtain ⟨buffer', -, h⟩ := Option.bind_eq_some_iff.1 h
  refine ⟨buffer', ?_⟩
  unfold ReportsInt
  dsimp only at h
  split at h
  · next hfail =>
    rw [if_pos hfail, ← Option.some.inj h]
    rfl
  · next hok =>
    obtain ⟨uc₁, -, hret⟩ := Option.bind_eq_some_iff.1 h
    rw [if_neg hok, ← Option.some.inj hret]
    exact (vm_sysRetvalInt uc₁ _ _).2

/-- A `read` or `write` that the host serves and that comes to its end. -/
structure VmCall where
  uc : Ctx
  uc' : Ctx
  fd : Int
  isread : Bool
  buffer : List (BitVec 8)
  fn : RdwrFn
  stale : DWord
  outcome : Outcome 65536
  serves : VmServes uc fd
  asks : uc.arg3 ≠ 0
  host : ∀ buffer, (fn fd buffer).rv = outcome.rv ∧ (fn fd buffer).errno = outcome.errno stale
  run : uc.rdwr stale isread (some buffer) fn = some uc'

theorem VmCall.reported_iff (r : VmCall) : r.outcome.Reported r.uc'.arg3 r.uc'.arg1.toNat ↔
    ¬(r.outcome.rv = 65535 ∧ (r.stale.truncate 16 : BitVec 16) ≠ 0) := by
  have hrun := r.run
  rw [vm_rdwr_served r.serves, if_neg r.asks] at hrun
  obtain ⟨buffer', hreports⟩ := vm_rdwrBuffer_reports hrun
  rw [(r.host buffer').1, (r.host buffer').2] at hreports
  exact Emul.reported_iff r.outcome hreports

structure VmSeek where
  uc : Ctx
  uc' : Ctx
  lseek : LseekFn
  stale : DWord
  outcome : Outcome (2 ^ 31)
  host : ∀ fd off whence, lseek fd off whence = (outcome.rv, outcome.errno stale)
  run : uc.venixSeek lseek = some uc'

theorem vm_sysRetvalLong (uc : Ctx) (errno r : DWord) :
    if r = 0xffffffff then (uc.sysRetvalLong errno r).arg3 = errno.truncate 16
    else (uc.sysRetvalLong errno r).arg3 = 0 ∧ (uc.sysRetvalLong errno r).arg1 = r.truncate 16 ∧
      (uc.sysRetvalLong errno r).arg2 = (r >>> 16).truncate 16 := by
  unfold Ctx.sysRetvalLong
  by_cases hmark : r = 0xffffffff
  · rw [if_pos hmark, if_pos hmark]
    rfl
  · rw [if_neg hmark, if_neg hmark]
    refine ⟨rfl, BitVec.eq_of_toNat_eq ?_, rfl⟩
    have hand : (r &&& 0xffff).toNat = r.toNat % 65536 := by
      rw [BitVec.toNat_and]
      exact Nat.and_two_pow_sub_one_eq_mod _ 16
    change ((r &&& 0xffff).truncate 16 : Word).toNat = (r.truncate 16 : Word).toNat
    rw [BitVec.toNat_setWidth, BitVec.toNat_setWidth, hand]
    exact Nat.mod_mod _ _

theorem VmSeek.reported (r : VmSeek) :
    r.outcome.Reported r.uc'.arg3 (r.uc'.arg2.toNat * 65536 + r.uc'.arg1.toNat) := by
  obtain ⟨uc, uc', lseek, stale, outcome, hhost, hrun⟩ := r
  have hseek : uc.sysRetvalLong (outcome.errno stale) (BitVec.ofInt 32 outcome.rv) = uc' := by
    unfold Ctx.venixSeek at hrun
    split at hrun
    · cases hrun
    · dsimp only at hrun
      rw [hhost] at hrun
      exact Option.some.inj hrun
  have hresult := vm_sysRetvalLong uc (outcome.errno stale) (BitVec.ofInt 32 outcome.rv)
  rw [hseek] at hresult
  exact reported_long outcome hresult

end Vm

/-- Results are reported right, but for the count 65535 where an earlier call has left an `errno`. -/
theorem results_reported_iff (sim : SimCall) (vm : VmCall) (simSeek : SimSeek) (vmSeek : VmSeek) :
    (sim.outcome.Reported sim.m'.cx sim.m'.ax.toNat ↔
      ¬(sim.outcome.rv = 65535 ∧ (sim.stale.truncate 16 : BitVec 16) ≠ 0)) ∧
    (vm.outcome.Reported vm.uc'.arg3 vm.uc'.arg1.toNat ↔
      ¬(vm.outcome.rv = 65535 ∧ (vm.stale.truncate 16 : BitVec 16) ≠ 0)) ∧
    simSeek.outcome.Reported simSeek.m'.cx
      (simSeek.m'.dx.toNat * 65536 + simSeek.m'.ax.toNat) ∧
    vmSeek.outcome.Reported vmSeek.uc'.arg3
      (vmSeek.uc'.arg2.toNat * 65536 + vmSeek.uc'.arg1.toNat) :=
  ⟨sim.reported_iff, vm.reported_iff, simSeek.reported, vmSeek.reported⟩

/-! ## 65535 bytes -/

section Full

open Sim86 hiding Byte DWord

/-- A `read` that delivers all bytes. -/
theorem sim_read_all {v : Os} {m m₁ m₂ : Machine} {fd : Int} {stale : DWord} {l : List (BitVec 8)}
    (hserves : SimServes v m.toCore fd) (hlen : l.length = m.cx.toNat)
    (hcopy : Sim86.copyout l m.dx m = .ok ((), m₁))
    (hret : sysRetvalInt stale (BitVec.ofInt 16 l.length) m₁ = .ok ((), m₂)) :
    Sim86.rdwr v true (some []) (hostRead stale l) m = .ok ((), m₂) := by
  rw [rdwr_served hserves]
  change (if (l.length : Int) = -1 then sysError stale
    else do
      Sim86.copyout ((l ++ [].drop l.length).take m.cx.toNat) m.dx
      sysRetvalInt stale (BitVec.ofInt 16 l.length) : Act Unit) m = _
  rw [if_neg (by omega), List.drop_nil, List.append_nil, ← hlen, List.take_length]
  exact (stateT_bind_ok _ hcopy).trans hret

def zeros : List (BitVec 8) := List.replicate 65535 0

theorem zeros_length : zeros.length = 65535 := List.length_replicate

def fullOutcome : Outcome 65536 := .value 65535 (by decide)

theorem zeros_host (fd : Int) (buffer : List (BitVec 8)) :
    (hostRead 2 zeros fd buffer).rv = fullOutcome.rv ∧
      (hostRead 2 zeros fd buffer).errno = fullOutcome.errno 2 := by
  refine ⟨?_, rfl⟩
  change (zeros.length : Int) = 65535
  rw [zeros_length]
  rfl

/-- A machine that asks for 65535 bytes at 1000:0000. -/
def simFull : Machine :=
  { fresh with registers := fun i => if i = rCX then 0xffff else if i = rDS then 0x1000 else 0 }

/-- When `errno` is 2 from an earlier call, the read of all bytes is reported as that failure. -/
theorem full_read_fails : ∃ r : SimCall, r.m.cx = 0xffff ∧ r.outcome.rv = 65535 ∧ r.stale = 2 ∧
    r.m'.cx = 2 ∧ ¬r.outcome.Reported r.m'.cx r.m'.ax.toNat := by
  have hcx : simFull.cx.toNat = 65535 := rfl
  obtain ⟨m₁, hcopy, -⟩ := Load.sim_copyout zeros (m := simFull) 0 ⟨rfl, by decide⟩
    (by rw [zeros_length]; decide) (by rw [zeros_length]; decide)
  obtain ⟨m₂, hret, -, hax, hcx'⟩ := sysRetvalInt_run 2 (BitVec.ofInt 16 zeros.length) m₁
  rw [zeros_length] at hcx'
  have hserves : SimServes ⟨0x8000, 0, fun _ => 3⟩ simFull.toCore 3 := ⟨rfl, rfl, rfl⟩
  have hrun := sim_read_all hserves (zeros_length.trans hcx.symm) hcopy hret
  refine ⟨⟨⟨0x8000, 0, fun _ => 3⟩, simFull, m₂, 3, true, [], hostRead 2 zeros, 2, fullOutcome, hserves,
    zeros_host 3, hrun⟩, rfl, rfl, rfl, hcx', fun h => ?_⟩
  rw [show m₂.cx = 2 from hcx'] at h
  exact absurd h.1 (by decide)

end Full

end Venix.Emul
