/-
  The arguments that the two loaders push.

  Each loader is shown to leave the memory `stackMem`: 86sim with a second zero, vm86venix without,
  because it copies `argc` words of `args` and leaves the zero after them behind. The start-up code
  then takes the word for the environment as the end of `argv`, and the first string for the
  environment. `args_agree` says when both agree all the same.
-/
import Venix.Load.Args
import Venix.Load.ImageRun
import Venix.Sim86.Marks

namespace Venix.Load

open Venix.Lib

/-! ## The stack pointer -/

theorem evenSp_toNat (sp : BitVec 16) : (evenSp sp).toNat = sp.toNat / 2 * 2 := by
  have hand : (sp &&& 1).toNat = sp.toNat % 2 := by
    rw [BitVec.toNat_and]
    exact Nat.and_two_pow_sub_one_eq_mod _ 1
  unfold evenSp
  split
  · next h =>
    have hodd : sp.toNat % 2 ≠ 0 := by
      intro h0
      exact h (BitVec.eq_of_toNat_eq (hand.trans h0))
    have hle : (1 : BitVec 16) ≤ sp := by
      rw [BitVec.le_def]
      simp
      omega
    rw [BitVec.toNat_sub_of_le hle]
    simp
    omega
  · next h =>
    have h0 : (sp &&& 1).toNat = 0 := by
      rw [not_not.mp h]
      rfl
    omega

/-- A push that has room. -/
theorem toNat_sub_room {sp : BitVec 16} {n : Nat} (h : n ≤ sp.toNat) :
    (sp - BitVec.ofNat 16 n).toNat = sp.toNat - n := by
  have := sp.isLt
  have hn : (BitVec.ofNat 16 n).toNat = n := toNat_ofNat_lt (by omega)
  rw [BitVec.toNat_sub_of_le (by rw [BitVec.le_def, hn]; exact h), hn]

theorem evenSp_below {sp : BitVec 16} {s : List Byte} (h : 0 < below sp.toNat s) :
    (evenSp (sp - BitVec.ofNat 16 (s.length + 1))).toNat = below sp.toNat s := by
  have hroom := below_room h
  rw [evenSp_toNat, toNat_sub_room (by omega)]
  rfl

/-- The stack pointer at the pushes of the words. -/
theorem sp_words {last : BitVec 16} {b k : Nat} (hb : last.toNat / 2 * 2 = b)
    (hroom : 2 * (k + 2) ≤ b) :
    (evenSp last - 2).toNat = b - 2 ∧
      (evenSp last - 2 - BitVec.ofNat 16 (2 * k)).toNat = b - 2 - 2 * k ∧
      (evenSp last - 2 - BitVec.ofNat 16 (2 * k) - 2).toNat = b - 2 - 2 * k - 2 := by
  have h1 : (evenSp last - 2).toNat = b - 2 := by
    rw [show (2 : BitVec 16) = BitVec.ofNat 16 2 from rfl,
      toNat_sub_room (by rw [evenSp_toNat]; omega), evenSp_toNat, hb]
  have h2 : (evenSp last - 2 - BitVec.ofNat 16 (2 * k)).toNat = b - 2 - 2 * k := by
    rw [toNat_sub_room (by omega), h1]
  refine ⟨h1, h2, ?_⟩
  rw [show (2 : BitVec 16) = BitVec.ofNat 16 2 from rfl] at h2 ⊢
  rw [toNat_sub_room (by omega), h2]

theorem wordBytes_length (w : BitVec 16) : (wordBytes w).length = 2 := rfl

/-! ## vm86venix -/

section Vm

/-- The data segment of the guest. -/
def vmSeg (v : Vm86.Vm) : Nat → Byte := fun x => v.mem (16 * v.ds.toNat + x)

/-- The data segment is within the mapping. -/
def VmOk (v : Vm86.Vm) : Prop :=
  Vm86.mapLo ≤ 16 * v.ds.toNat ∧ 16 * v.ds.toNat + 0x10000 ≤ Vm86.mapHi

theorem VmOk.of_ds {v v' : Vm86.Vm} (h : VmOk v) (hds : v'.ds = v.ds) : VmOk v' := by
  unfold VmOk
  rw [hds]
  exact h

theorem vm_copyout {v : Vm86.Vm} (hok : VmOk v) (l : List Byte) (p : BitVec 16)
    (h : p.toNat + l.length ≤ 0x10000) :
    ∃ v', Vm86.copyout l p v = some v' ∧ v'.ds = v.ds ∧ vmSeg v' = store (vmSeg v) p.toNat l := by
  obtain ⟨hlo, hhi⟩ := hok
  unfold Vm86.mapLo at hlo
  unfold Vm86.mapHi at hhi
  have hds : (v.ds <<< 4).toNat = 16 * v.ds.toNat := by
    rw [BitVec.toNat_shiftLeft, Nat.shiftLeft_eq]
    omega
  unfold Vm86.copyout
  dsimp only
  rw [hds, if_pos (Or.inr ⟨by unfold Vm86.mapLo; omega, by unfold Vm86.mapHi; omega⟩)]
  refine ⟨_, rfl, rfl, ?_⟩
  funext x
  unfold vmSeg
  dsimp only
  rw [Nat.add_comm p.toNat, store_shift]

theorem vm_pushStrings (args : List (List Byte)) : ∀ {v : Vm86.Vm} (sp : BitVec 16), VmOk v →
    0 < bottom sp.toNat args →
    ∃ last v', Vm86.pushStrings args sp v =
        some (last, (ptrs sp.toNat args).map (BitVec.ofNat 16), v') ∧
      last.toNat = bottom sp.toNat args ∧ v'.ds = v.ds ∧
      vmSeg v' = strMem (vmSeg v) sp.toNat args := by
  induction args with
  | nil => exact fun sp _ _ => ⟨sp, _, rfl, rfl, rfl, rfl⟩
  | cons s rest ih =>
    intro v sp hok h
    rw [bottom] at h
    have hpos : 0 < below sp.toNat s := Nat.lt_of_lt_of_le h (bottom_le rest _)
    have hroom := below_room hpos
    have hsp := evenSp_below hpos
    have hlt := sp.isLt
    obtain ⟨v₁, hc, hds, hseg⟩ := vm_copyout hok (s ++ [0])
      (evenSp (sp - BitVec.ofNat 16 (s.length + 1)))
      (by rw [hsp, List.length_append, List.length_singleton]; omega)
    obtain ⟨last, v₂, hrun, hlast, hds₂, hseg₂⟩ :=
      ih (evenSp (sp - BitVec.ofNat 16 (s.length + 1))) (hok.of_ds hds) (by rw [hsp]; exact h)
    refine ⟨last, v₂, ?_, ?_, hds₂.trans hds, ?_⟩
    · unfold Vm86.pushStrings
      dsimp only [Option.bind_eq_bind]
      rw [hc, Option.bind_some, hrun, Option.bind_some, ptrs, List.map_cons, ← hsp,
        BitVec.ofNat_toNat, BitVec.setWidth_eq]
    · rw [hlast, hsp]
      rfl
    · rw [hseg₂, hseg, hsp]
      rfl

/-- The three pushes of words. -/
theorem stack_stores {F : Nat → Byte} {sp : Nat} {args : List (List Byte)}
    {ws extra : List (BitVec 16)}
    (hws : ws ++ [0] = (ptrs sp args).map (BitVec.ofNat 16) ++ [0] ++ extra)
    (hroom : 2 * (args.length + 2 + extra.length) ≤ bottom sp args / 2 * 2) :
    store (store (store (strMem F sp args) (bottom sp args / 2 * 2 - 2) (wordBytes 0))
        (bottom sp args / 2 * 2 - 2 - 2 * ws.length) (ws.flatMap wordBytes))
        (bottom sp args / 2 * 2 - 2 - 2 * ws.length - 2)
        (wordBytes (BitVec.ofNat 16 args.length)) = stackMem F sp args extra := by
  have hlen : ws.length = args.length + extra.length := by
    have := congrArg List.length hws
    simp only [List.length_append, List.length_map, ptrs_length, List.length_singleton] at this
    omega
  have h1 := store_store_below (strMem F sp args) (bottom sp args / 2 * 2 - 2 - 2 * ws.length)
    (ws.flatMap wordBytes) (wordBytes 0)
  rw [flatMap_wordBytes_length, show bottom sp args / 2 * 2 - 2 - 2 * ws.length + 2 * ws.length =
    bottom sp args / 2 * 2 - 2 by omega] at h1
  have h2 := store_store_below (strMem F sp args) (bottom sp args / 2 * 2 - 2 - 2 * ws.length - 2)
    (wordBytes (BitVec.ofNat 16 args.length)) (ws.flatMap wordBytes ++ wordBytes 0)
  rw [show (wordBytes (BitVec.ofNat 16 args.length)).length = 2 from rfl,
    show bottom sp args / 2 * 2 - 2 - 2 * ws.length - 2 + 2 =
      bottom sp args / 2 * 2 - 2 - 2 * ws.length by omega] at h2
  have hall : (stackWords sp args extra).flatMap wordBytes =
      wordBytes (BitVec.ofNat 16 args.length) ++ (ws.flatMap wordBytes ++ wordBytes 0) := by
    unfold stackWords
    rw [List.flatMap_cons, ← hws, List.flatMap_append, List.flatMap_singleton]
  have htop : stackTop sp args extra = bottom sp args / 2 * 2 - 2 - 2 * ws.length - 2 := by
    unfold stackTop
    omega
  unfold stackMem
  rw [h1, h2, hall, htop]

theorem vm_pushArgs {v : Vm86.Vm} (args : List (List Byte)) (sp : BitVec 16) (hok : VmOk v)
    (hmany : args.length < 100)
    (hroom : 2 * (args.length + 2) ≤ bottom sp.toNat args / 2 * 2) :
    ∃ v', Vm86.pushArgs args sp v = some v' ∧ v'.ds = v.ds ∧
      v'.esp.toNat = stackTop sp.toNat args [] ∧
      vmSeg v' = stackMem (vmSeg v) sp.toNat args [] := by
  have hle := bottom_le args sp.toNat
  have hsp := sp.isLt
  obtain ⟨last, v₁, hstr, hlast, hds₁, hseg₁⟩ := vm_pushStrings args sp hok (by omega)
  have hplen : ((ptrs sp.toNat args).map (BitVec.ofNat 16)).length = args.length := by
    rw [List.length_map, ptrs_length]
  obtain ⟨s1, s2, s3⟩ := sp_words (b := bottom sp.toNat args / 2 * 2) (by rw [hlast]) hroom
  obtain ⟨v₂, hc₂, hds₂, hseg₂⟩ := vm_copyout (hok.of_ds hds₁) (wordBytes 0) (evenSp last - 2)
    (by rw [s1, wordBytes_length]; omega)
  obtain ⟨v₃, hc₃, hds₃, hseg₃⟩ := vm_copyout (hok.of_ds (hds₂.trans hds₁))
    (((ptrs sp.toNat args).map (BitVec.ofNat 16)).flatMap wordBytes)
    (evenSp last - 2 - BitVec.ofNat 16 (2 * args.length))
    (by rw [s2, flatMap_wordBytes_length, hplen]; omega)
  obtain ⟨v₄, hc₄, hds₄, hseg₄⟩ := vm_copyout (hok.of_ds (hds₃.trans (hds₂.trans hds₁)))
    (wordBytes (BitVec.ofNat 16 args.length))
    (evenSp last - 2 - BitVec.ofNat 16 (2 * args.length) - 2)
    (by rw [s3, wordBytes_length]; omega)
  have hds : v₄.ds = v.ds := hds₄.trans (hds₃.trans (hds₂.trans hds₁))
  have htake : ((ptrs sp.toNat args).map (BitVec.ofNat 16) ++ [0]).take args.length =
      (ptrs sp.toNat args).map (BitVec.ofNat 16) := by
    rw [← hplen, List.take_left]
  let top := evenSp last - 2 - BitVec.ofNat 16 (2 * args.length) - 2
  refine ⟨{ v₄ with esp := top.zeroExtend 32 }, ?_, hds, ?_, ?_⟩
  · unfold Vm86.pushArgs
    rw [if_pos hmany, hstr]
    dsimp only [Option.bind_eq_bind, Option.bind_some]
    rw [hc₂, Option.bind_some, htake, hc₃, Option.bind_some, hc₄, Option.bind_some]
  · dsimp only
    rw [BitVec.toNat_setWidth_of_le (by decide), s3]
    unfold stackTop
    rw [List.length_nil]
    omega
  · have hstores : _ = stackMem (vmSeg v) sp.toNat args [] :=
      stack_stores (List.append_nil _).symm hroom
    rw [hplen, ← s3, ← s2, ← s1, ← hseg₁, ← hseg₂, ← hseg₃, ← hseg₄] at hstores
    exact hstores

end Vm

/-! ## 86sim -/

section Sim

open Sim86 hiding Byte

/-- The data segment of the machine. -/
def simSeg (m : Machine) : Nat → Byte := fun x => m.ram (16 * (m.registers rDS).toNat + x)

/-- The data segment is within the memory, and the machine does not run yet. -/
def SimOk (m : Machine) : Prop :=
  m.running = false ∧ 16 * (m.registers rDS).toNat + 0x10000 ≤ 0x100000

theorem dsAddress_toNat {m : Machine} (h : SimOk m) (p : Word) :
    (dsAddress m p).toNat = 16 * (m.registers rDS).toNat + p.toNat := by
  have hseg := h.2
  have hp := p.isLt
  have hsh : ((m.registers rDS).zeroExtend 32 <<< 4).toNat = 16 * (m.registers rDS).toNat := by
    rw [toNat_shiftLeft_four, BitVec.toNat_setWidth_of_le (by decide)]
    omega
  unfold dsAddress
  rw [BitVec.toNat_and, BitVec.toNat_add_of_lt (by
    rw [hsh, BitVec.toNat_setWidth_of_le (by decide)]; omega), hsh,
    BitVec.toNat_setWidth_of_le (by decide)]
  refine (Nat.and_two_pow_sub_one_eq_mod _ 20).trans (Nat.mod_eq_of_lt ?_)
  omega

/-- What a byte pushed by the loader changes. -/
structure Wrote (m m' : Machine) (n : Nat) (F : Nat → Byte) : Prop where
  registers : m'.registers = m.registers
  running : m'.running = m.running
  ios : m'.ios.toNat = m.ios.toNat + n
  seg : simSeg m' = F

theorem Wrote.ok {m m' : Machine} {n : Nat} {F : Nat → Byte} (h : Wrote m m' n F) (hok : SimOk m) :
    SimOk m' := by
  unfold SimOk
  rw [h.running, h.registers]
  exact hok

theorem sim_writeByte {m : Machine} (hok : SimOk m) (b : Byte) (p : Word)
    (hios : m.ios.toNat + 1 < 2 ^ 32) :
    ∃ m', writeByte b p dSeg m = .ok ((), m') ∧
      Wrote m m' 1 (store (simSeg m) p.toNat [b]) := by
  have hnext : (m.ios + 1).toNat = m.ios.toNat + 1 := BitVec.toNat_add_of_lt hios
  have hne : m.ios + 1 ≠ 0 := by
    intro h0
    rw [h0] at hnext
    simp at hnext
  refine ⟨wroteByte m b p, writeByte_ok m b p hne hok.1, rfl, rfl, hnext, ?_⟩
  funext x
  unfold simSeg wroteByte markInitialized
  dsimp only
  rw [dsAddress_toNat hok, Function.update_apply, store_singleton, Function.update_apply]
  simp only [Nat.add_left_cancel_iff]

theorem sim_copyout (l : List Byte) : ∀ {m : Machine} (p : Word), SimOk m →
    p.toNat + l.length < 0x10000 → m.ios.toNat + l.length < 2 ^ 32 →
    ∃ m', copyout l p m = .ok ((), m') ∧ Wrote m m' l.length (store (simSeg m) p.toNat l) := by
  induction l with
  | nil =>
    intro m p _ _ _
    exact ⟨m, rfl, rfl, rfl, rfl, (store_nil _ _).symm⟩
  | cons b l ih =>
    intro m p hok hp hios
    rw [List.length_cons] at hp hios ⊢
    obtain ⟨m₁, hrun, hw⟩ := sim_writeByte hok b p (by omega)
    have hnext : (p + 1).toNat = p.toNat + 1 := BitVec.toNat_add_of_lt (by simp; omega)
    obtain ⟨m₂, hrun₂, hw₂⟩ := ih (p + 1) (hw.ok hok) (by omega) (by rw [hw.ios]; omega)
    refine ⟨m₂, ?_, hw₂.registers.trans hw.registers, hw₂.running.trans hw.running, ?_, ?_⟩
    · rw [copyout]
      simp only [bind, StateT.bind, Except.bind, hrun, hrun₂]
    · rw [hw₂.ios, hw.ios]
      omega
    · rw [hw₂.seg, hw.seg, hnext]
      exact (store_append _ _ [b] l).symm

theorem Wrote.trans {m m₁ m₂ : Machine} {n n₁ : Nat} {F G : Nat → Byte} (h : Wrote m m₁ n F)
    (h₁ : Wrote m₁ m₂ n₁ G) : Wrote m m₂ (n + n₁) G := by
  refine ⟨h₁.registers.trans h.registers, h₁.running.trans h.running, ?_, h₁.seg⟩
  rw [h₁.ios, h.ios, Nat.add_assoc]

/-- The bytes of the strings. -/
def strBytes (args : List (List Byte)) : Nat := (args.map fun s => s.length + 1).sum

theorem strBytes_le (args : List (List Byte)) : ∀ sp, 0 < bottom sp args →
    strBytes args + bottom sp args ≤ sp := by
  induction args with
  | nil => exact fun sp _ => by unfold strBytes bottom; simp
  | cons s rest ih =>
    intro sp h
    rw [bottom] at h ⊢
    have hroom := below_room (Nat.lt_of_lt_of_le h (bottom_le rest _))
    have := ih _ h
    unfold strBytes at this ⊢
    rw [List.map_cons, List.sum_cons]
    omega

theorem sim_pushStrings (args : List (List Byte)) : ∀ {m : Machine} (sp : Word), SimOk m →
    0 < bottom sp.toNat args → m.ios.toNat + sp.toNat < 2 ^ 32 →
    ∃ last m', pushStrings args sp m =
        .ok ((last, (ptrs sp.toNat args).map (BitVec.ofNat 16)), m') ∧
      last.toNat = bottom sp.toNat args ∧
      Wrote m m' (strBytes args) (strMem (simSeg m) sp.toNat args) := by
  induction args with
  | nil => exact fun {m} sp _ _ _ => ⟨sp, m, rfl, rfl, rfl, rfl, rfl, rfl⟩
  | cons s rest ih =>
    intro m sp hok h hios
    rw [bottom] at h
    have hpos : 0 < below sp.toNat s := Nat.lt_of_lt_of_le h (bottom_le rest _)
    have hroom := below_room hpos
    have hsp := evenSp_below hpos
    have hlt := sp.isLt
    have hlen : (s ++ [0]).length = s.length + 1 := by
      rw [List.length_append, List.length_singleton]
    obtain ⟨m₁, hc, hw⟩ := sim_copyout (s ++ [0]) (evenSp (sp - BitVec.ofNat 16 (s.length + 1)))
      hok (by rw [hsp, hlen]; omega) (by omega)
    obtain ⟨last, m₂, hrun, hlast, hw₂⟩ :=
      ih (evenSp (sp - BitVec.ofNat 16 (s.length + 1))) (hw.ok hok) (by rw [hsp]; exact h)
        (by rw [hw.ios, hsp, hlen]; omega)
    have hsum : strBytes (s :: rest) = (s ++ [0]).length + strBytes rest := by
      rw [hlen]
      rfl
    refine ⟨last, m₂, ?_, ?_, ?_⟩
    · rw [pushStrings]
      simp only [bind, StateT.bind, Except.bind, stateT_pure_eq, hc, hrun]
      rw [ptrs, List.map_cons, ← hsp, BitVec.ofNat_toNat, BitVec.setWidth_eq]
    · rw [hlast, hsp]
      rfl
    · rw [hsum, strMem, ← hsp, ← hw.seg]
      exact hw.trans hw₂

theorem sim_pushArgs {m : Machine} (args : List (List Byte)) (sp : Word) (hok : SimOk m)
    (hmany : args.length < 100)
    (hroom : 2 * (args.length + 3) ≤ bottom sp.toNat args / 2 * 2)
    (hios : m.ios.toNat + sp.toNat < 2 ^ 32) :
    ∃ m', pushArgs args sp m = .ok ((), m') ∧ m'.registers rDS = m.registers rDS ∧
      (m'.registers rSP).toNat = stackTop sp.toNat args [0] ∧
      simSeg m' = stackMem (simSeg m) sp.toNat args [0] := by
  have hle := bottom_le args sp.toNat
  have hbytes := strBytes_le args sp.toNat (by omega)
  have hsp := sp.isLt
  obtain ⟨last, m₁, hstr, hlast, hw₁⟩ := sim_pushStrings args sp hok (by omega) hios
  have hplen : ((ptrs sp.toNat args).map (BitVec.ofNat 16) ++ [0]).length = args.length + 1 := by
    rw [List.length_append, List.length_map, ptrs_length, List.length_singleton]
  obtain ⟨s1, s2, s3⟩ := sp_words (b := bottom sp.toNat args / 2 * 2) (k := args.length + 1)
    (by rw [hlast]) hroom
  have hok₁ := hw₁.ok hok
  obtain ⟨m₂, hc₂, hw₂⟩ := sim_copyout (wordBytes 0) (evenSp last - 2) hok₁
    (by rw [s1, wordBytes_length]; omega) (by rw [hw₁.ios, wordBytes_length]; omega)
  have hok₂ := hw₂.ok hok₁
  obtain ⟨m₃, hc₃, hw₃⟩ := sim_copyout
    (((ptrs sp.toNat args).map (BitVec.ofNat 16) ++ [0]).flatMap wordBytes)
    (evenSp last - 2 - BitVec.ofNat 16 (2 * (args.length + 1))) hok₂
    (by rw [s2, flatMap_wordBytes_length, hplen]; omega)
    (by rw [hw₂.ios, hw₁.ios, flatMap_wordBytes_length, hplen, wordBytes_length]; omega)
  have hok₃ := hw₃.ok hok₂
  obtain ⟨m₄, hc₄, hw₄⟩ := sim_copyout (wordBytes (BitVec.ofNat 16 args.length))
    (evenSp last - 2 - BitVec.ofNat 16 (2 * (args.length + 1)) - 2) hok₃
    (by rw [s3, wordBytes_length]; omega)
    (by rw [hw₃.ios, hw₂.ios, hw₁.ios, flatMap_wordBytes_length, hplen, wordBytes_length,
          wordBytes_length]; omega)
  have hregs : m₄.registers = m.registers := (((hw₁.trans hw₂).trans hw₃).trans hw₄).registers
  let top := evenSp last - 2 - BitVec.ofNat 16 (2 * (args.length + 1)) - 2
  let m₅ : Machine := { m₄ with registers := Function.update m₄.registers rSP top }
  have hset : setRegister rSP top m₄ = .ok ((), m₅) := rfl
  have hds : m₅.registers rDS = m₄.registers rDS := rfl
  have hseg : simSeg m₅ = simSeg m₄ := rfl
  refine ⟨m₅, ?_, hds.trans (congrFun hregs rDS), ?_, ?_⟩
  · unfold pushArgs
    dsimp only
    rw [if_pos (by omega), Nat.add_sub_cancel]
    simp only [bind, StateT.bind, Except.bind, hstr, hc₂, hc₃, hc₄]
    exact hset
  · have htop : m₅.registers rSP = top := rfl
    rw [htop, s3]
    unfold stackTop
    rw [List.length_singleton]
    omega
  · have hstores : _ = stackMem (simSeg m) sp.toNat args [0] :=
      stack_stores rfl hroom
    rw [hplen, ← s3, ← s2, ← s1, ← hw₁.seg, ← hw₂.seg, ← hw₃.seg, ← hw₄.seg] at hstores
    exact hseg.trans hstores

end Sim

/-! ## A loaded program -/

/-- The stack pointer before the arguments, as a number. -/
def stackStart (hdr : Exec) : Nat := if hdr.aStack = 0 then 0xff80 else hdr.aStack.toNat - 2

/-- What the stack must stay above. -/
def stackFloor (hdr : Exec) (text data : List Byte) : Nat :=
  if hdr.aStack = 0 then bssEnd hdr text data else 0

/-- The strings and the words, two zeros among them, fit the initial stack. -/
def Fits (hdr : Exec) (text data : List Byte) (args : List (List Byte)) : Prop :=
  stackFloor hdr text data + 2 * (args.length + 3) ≤ bottom (stackStart hdr) args / 2 * 2

/-- 86sim builds the stack that the start-up code expects, whatever its loop over the memory in use
    has marked. -/
def SimStart (hdr : Exec) (file : List Byte) (args : List (List Byte)) : Prop :=
  ∃ v endMem sp, Sim86.loadImage hdr file Sim86.fresh = .ok (v, endMem, sp) ∧
    ∀ marks, ∃ m, Sim86.pushArgs args sp { v.machine with initialized := marks } = .ok ((), m) ∧
      Agrees (segByte m.ram (m.registers Sim86.rDS).toNat) (m.registers Sim86.rSP) args

/-- vm86venix does. -/
def VmStart (hdr : Exec) (file : List Byte) (args : List (List Byte)) : Prop :=
  ∃ v, Vm86.venixLoad hdr file args 0x10000 = some v ∧
    Agrees (segByte v.mem v.ds.toNat) (v.esp.truncate 16) args

section Loaded

variable {hdr : Exec} {text data : List Byte} {args : List (List Byte)}

theorem Fits.start (h : Fits hdr text data args) :
    (initialSp hdr).toNat = stackStart hdr ∧ 2 * (args.length + 3) ≤
      bottom (stackStart hdr) args / 2 * 2 ∧ stackStart hdr ≤ 65535 := by
  unfold Fits at h
  have hle := bottom_le args (stackStart hdr)
  have hS := hdr.aStack.isLt
  refine ⟨?_, by omega, by unfold stackStart; split <;> omega⟩
  unfold stackStart at h hle ⊢
  unfold initialSp
  by_cases h0 : hdr.aStack = 0
  · rw [if_neg (not_not.mpr h0), if_pos h0]
    rfl
  · rw [if_neg h0] at h hle ⊢
    rw [if_pos h0]
    exact toNat_sub_room (n := 2) (by omega)

/-- The segment as the numbers of its bytes. -/
theorem segByte_eq {mem : Nat → Byte} {ds : Nat} (h : 16 * ds + 0x10000 ≤ 0x100000) :
    segByte mem ds = seg fun x => mem (16 * ds + x) := by
  funext off
  have := off.isLt
  unfold segByte seg
  rw [Nat.mod_eq_of_lt (by omega)]

theorem dsOff_le (h : Program hdr text data) : dsOff hdr text ≤ 0x10000 := by
  have := (clicks_le h).1
  unfold dsOff
  split <;> omega

/-- The initial stack is zero. -/
theorem stack_zero {x : Nat} (hlo : stackFloor hdr text data ≤ x)
    (hx : x < stackStart hdr / 2 * 2 + 2) (hS : hdr.aStack = 0 ∨ 2 ≤ hdr.aStack.toNat) :
    relImage hdr text data (dsOff hdr text + x) = 0 := by
  have hbefore := text_before_data hdr text
  unfold relImage
  unfold stackFloor at hlo
  unfold stackStart at hx
  by_cases h0 : hdr.aStack = 0
  · rw [if_pos h0] at hlo
    unfold bssEnd at hlo
    exact twoRuns_above (by omega) (by omega)
  · rw [if_neg h0] at hx
    have hS := hS.resolve_left h0
    -- the stack is before the text, or between text and data
    by_cases hom : hdr.aMagic = omagic
    · unfold twoRuns
      rw [store_below _ _ (by unfold dataOff; omega),
        store_below _ _ (by unfold dsOff textOff; rw [if_pos hom, if_pos hom]; omega)]
    · have hle := text_le_clicks text
      refine twoRuns_between ?_ (by unfold dataOff; omega)
      unfold textOff dsOff
      rw [if_neg hom, if_neg hom]
      omega

theorem simStart_few (h : Program hdr text data) (hfits : Fits hdr text data args)
    (hnul : ∀ s ∈ args, 0 ∉ s) (rest : List Byte) (hfew : args.length < 100) :
    SimStart hdr (text ++ (data ++ rest)) args := by
  obtain ⟨v, ds, endMem, hload, hmach, hds, -⟩ := sim_load rest h
  obtain ⟨hsp, hroom, hmax⟩ := hfits.start
  have hdso := dsOff_le h
  refine ⟨v, endMem, initialSp hdr, hload, fun marks => ?_⟩
  have hok : SimOk { v.machine with initialized := marks } := by
    rw [hmach]
    exact ⟨rfl, show 16 * ds.toNat + 0x10000 ≤ 0x100000 by omega⟩
  have hios : v.machine.ios = 0 := by rw [hmach]; rfl
  obtain ⟨m, hpush, hds', hSP, hseg⟩ := sim_pushArgs args (initialSp hdr) hok hfew
    (by rw [hsp]; exact hroom) (by rw [hsp]; dsimp only; rw [hios]; simp; omega)
  refine ⟨m, hpush, ?_⟩
  have hseg' : segByte m.ram (m.registers Sim86.rDS).toNat = seg (simSeg m) :=
    segByte_eq (by rw [hds']; exact hok.2)
  have hsp' : m.registers Sim86.rSP = BitVec.ofNat 16 (stackTop (stackStart hdr) args [0]) := by
    rw [← hsp, ← hSP, BitVec.ofNat_toNat, BitVec.setWidth_eq]
  rw [hseg', hseg, hsp', hsp]
  exact agrees_terminated hroom hmax hnul

theorem vm_start (h : Program hdr text data) (hfits : Fits hdr text data args)
    (rest : List Byte) (hfew : args.length < 100) :
    ∃ (v : Vm86.Vm) (F : Nat → Byte),
      Vm86.venixLoad hdr (text ++ (data ++ rest)) args 0x10000 = some v ∧
      segByte v.mem v.ds.toNat = seg (stackMem F (stackStart hdr) args []) ∧
      v.esp.truncate 16 = BitVec.ofNat 16 (stackTop (stackStart hdr) args []) ∧
      ∀ x, stackFloor hdr text data ≤ x → x < stackStart hdr / 2 * 2 + 2 → F x = 0 := by
  obtain ⟨w, hload, hcs, hview, -⟩ := vm_load rest h
  obtain ⟨hsp, hroom, hmax⟩ := hfits.start
  have hdso := dsOff_le h
  have hapart := hview.apart
  rw [hcs, show (0x1000 : BitVec 32).toNat = 0x1000 from rfl] at hapart
  have hok : VmOk w := by
    unfold VmOk Vm86.mapLo Vm86.mapHi
    omega
  obtain ⟨v, hpush, hds, hesp, hseg⟩ := vm_pushArgs args (initialSp hdr) hok hfew
    (by rw [hsp]; omega)
  refine ⟨v, vmSeg w, ?_, ?_, ?_, ?_⟩
  · unfold Vm86.venixLoad
    rw [hload]
    exact hpush
  · rw [← hsp, ← hseg]
    exact segByte_eq (by rw [hds]; exact hok.2)
  · rw [← hsp, ← hesp, BitVec.ofNat_toNat]
  · intro x hlo hx
    have hS : hdr.aStack = 0 ∨ 2 ≤ hdr.aStack.toNat := by
      by_cases h0 : hdr.aStack = 0
      · exact Or.inl h0
      · have hle := bottom_le args (stackStart hdr)
        unfold stackStart at hroom hle
        rw [if_neg h0] at hroom hle
        omega
    have hzero := stack_zero hlo hx hS
    have hview' := hview.data (BitVec.ofNat 16 x)
    rw [toNat_ofNat_lt (by omega), hzero] at hview'
    rw [← hview', segByte_eq hok.2, seg, toNat_ofNat_lt (by omega)]
    rfl

/-- The word after the zero of vm86venix is where the strings begin. -/
theorem vmStart_iff (h : Program hdr text data) (hfits : Fits hdr text data args)
    (hnul : ∀ s ∈ args, 0 ∉ s) (rest : List Byte) (hfew : args.length < 100) :
    VmStart hdr (text ++ (data ++ rest)) args ↔ args = [] ∨ args.getLast? = some [] := by
  obtain ⟨v, F, hload, hseg, hesp, hzero⟩ := vm_start h hfits rest hfew
  obtain ⟨-, hroom, hmax⟩ := hfits.start
  have hfloor : stackFloor hdr text data ≤ bottom (stackStart hdr) args / 2 * 2 := by
    unfold Fits at hfits
    omega
  have hroom' : 2 * (args.length + 2 + ([] : List (BitVec 16)).length) ≤
      bottom (stackStart hdr) args / 2 * 2 := by
    rw [List.length_nil]
    omega
  have htop : stackTop (stackStart hdr) args [] + 2 * args.length + 4 =
      bottom (stackStart hdr) args / 2 * 2 := by
    unfold stackTop
    rw [List.length_nil]
    omega
  have hword : wordN (stackMem F (stackStart hdr) args []) (bottom (stackStart hdr) args / 2 * 2) =
      wordN (strMem F (stackStart hdr) args) (bottom (stackStart hdr) args / 2 * 2) := by
    unfold wordN
    rw [stackMem_above hroom' (Nat.le_refl _), stackMem_above hroom' (Nat.le_succ _)]
  have hagrees := (laid_stackMem (F := F) hroom' hmax hnul).agrees_iff
  rw [htop, hword, ← hseg, ← hesp] at hagrees
  have hstart : VmStart hdr (text ++ (data ++ rest)) args ↔
      Agrees (segByte v.mem v.ds.toNat) (v.esp.truncate 16) args := by
    unfold VmStart
    rw [hload]
    simp only [Option.some.injEq, exists_eq_left']
  rw [hstart, hagrees]
  by_cases hnil : args = []
  · subst hnil
    refine iff_of_true ?_ (Or.inl rfl)
    have hb : bottom (stackStart hdr) [] = stackStart hdr := rfl
    rw [hb] at hfloor ⊢
    unfold strMem wordN
    rw [hzero (stackStart hdr / 2 * 2 + 1) (by omega) (by omega),
      hzero (stackStart hdr / 2 * 2) (by omega) (by omega)]
    rfl
  · rw [or_iff_right hnil]
    have hlo : stackFloor hdr text data ≤ bottom (stackStart hdr) args := by omega
    exact last_word args F (stackStart hdr) hnil (by omega) hlo
      (fun x h1 h2 => hzero x h1 (by omega)) hnul

/-- The element of `args` after the last is past its end. -/
theorem start_many (h : Program hdr text data) (rest : List Byte) (hmany : ¬args.length < 100) :
    ¬SimStart hdr (text ++ (data ++ rest)) args ∧ ¬VmStart hdr (text ++ (data ++ rest)) args := by
  constructor
  · rintro ⟨v, endMem, sp, -, hpush⟩
    obtain ⟨m, hm, -⟩ := hpush v.machine.initialized
    unfold Sim86.pushArgs at hm
    dsimp only at hm
    rw [if_neg (by omega)] at hm
    cases hm
  · rintro ⟨v, hv, -⟩
    obtain ⟨w, hload, -⟩ := vm_load rest h
    unfold Vm86.venixLoad Vm86.pushArgs at hv
    rw [hload] at hv
    dsimp only [Option.bind_eq_bind, Option.bind_some] at hv
    rw [if_neg hmany] at hv
    cases hv

theorem start_iff (h : Program hdr text data) (hfits : Fits hdr text data args)
    (hnul : ∀ s ∈ args, 0 ∉ s) (rest : List Byte) :
    SimStart hdr (text ++ (data ++ rest)) args ∧ VmStart hdr (text ++ (data ++ rest)) args ↔
      args.length < 100 ∧ (args = [] ∨ args.getLast? = some []) := by
  by_cases hfew : args.length < 100
  · rw [vmStart_iff h hfits hnul rest hfew]
    exact ⟨fun hs => ⟨hfew, hs.2⟩, fun hs => ⟨simStart_few h hfits hnul rest hfew, hs.2⟩⟩
  · exact iff_of_false (fun hs => (start_many h rest hfew).1 hs.1) (fun hs => hfew hs.1)

end Loaded

/-- **The stack at the start.** The start-up code finds the arguments and an empty environment on
    the stacks of both loaders exactly when there are fewer than 100 and the last, if there is one,
    is the empty string. -/
theorem args_agree (hdr : Exec) (text data rest : List Byte) (args : List (List Byte))
    (h : Program hdr text data) (hfits : Fits hdr text data args) (hnul : ∀ s ∈ args, 0 ∉ s) :
    SimStart hdr (text ++ (data ++ rest)) args ∧ VmStart hdr (text ++ (data ++ rest)) args ↔
      args.length < 100 ∧ (args = [] ∨ args.getLast? = some []) :=
  start_iff h hfits hnul rest

/-- A program with a stack of its own. -/
def smallStack : Exec := ⟨nmagic, 0x100, 3, 2, 4, 0⟩

theorem smallStack_program : Program smallStack [1, 2, 3] [4, 5] :=
  ⟨by decide, by decide, by decide, by decide, by decide⟩

theorem args_agree_empty :
    SimStart smallStack [1, 2, 3, 4, 5] [[97], []] ∧ VmStart smallStack [1, 2, 3, 4, 5] [[97], []] ↔
      [[97], []].length < 100 ∧
        ([[97], []] = ([] : List (List Byte)) ∨ [[97], []].getLast? = some ([] : List Byte)) :=
  args_agree smallStack [1, 2, 3] [4, 5] [] [[97], []] smallStack_program
    (by unfold Fits; decide) (by decide)

/-- One argument: vm86venix leaves no end of the environment. -/
theorem one_argument_disagrees : Fits smallStack [1, 2, 3] [4, 5] [[97]] ∧
    ¬VmStart smallStack [1, 2, 3, 4, 5] [[97]] := by
  have hfits : Fits smallStack [1, 2, 3] [4, 5] [[97]] := by unfold Fits; decide
  refine ⟨hfits, fun hvm => ?_⟩
  have := (vmStart_iff smallStack_program hfits (by decide) [] (by decide)).mp hvm
  exact absurd this (by decide)

end Venix.Load
