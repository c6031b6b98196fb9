/-
  The accounting of shared text segments.

  `Counted` is the invariant: for each slot in use the two counts are the numbers of users and of
  users in core, as far as 8 bits go, and the logs say that its core and swap space are held as
  they should be. It is stated for numbers given from outside, since inside an operation the counts
  and the processes do not agree.
-/
import Venix.Kernel.Text
import Venix.Lib.Tally

namespace Venix.Kernel

open Venix.Lib

/-- The text of a process that is in core. -/
def TProc.inCore (q : TProc) : Option (Fin ntext) := if q.load then q.textp else none

namespace Texts

/-- The number of processes whose `p_textp` is the slot `k`. -/
def sharers (s : Texts) (k : Fin ntext) : Nat :=
  (Finset.univ.filter fun p => (s.proc p).textp = some k).card

/-- The number of those that are in core. -/
def loaded (s : Texts) (k : Fin ntext) : Nat :=
  (Finset.univ.filter fun p => (s.proc p).textp = some k ∧ (s.proc p).load = true).card

def Used (s : Texts) (k : Fin ntext) : Prop := (s.text k).xIptr.isSome

/-! ## Counting processes -/

theorem sharers_eq_tally (s : Texts) : s.sharers = tally fun p => (s.proc p).textp := rfl

theorem loaded_eq_tally (s : Texts) : s.loaded = tally fun p => (s.proc p).inCore := by
  funext k
  unfold loaded tally TProc.inCore
  congr 1
  ext p
  simp only [Finset.mem_filter, Finset.mem_univ, true_and]
  cases (s.proc p).load <;> simp

theorem loaded_le_sharers (s : Texts) (k : Fin ntext) : s.loaded k ≤ s.sharers k := by
  rw [loaded_eq_tally, sharers_eq_tally]
  refine tally_mono fun p hp => ?_
  unfold TProc.inCore at hp
  split at hp
  · exact hp
  · cases hp

theorem sharers_le (s : Texts) (k : Fin ntext) : s.sharers k ≤ nproc := by
  have := tally_le_card (fun p => (s.proc p).textp) k
  rwa [Fintype.card_fin] at this

theorem sharers_of_proc {s s' : Texts} {p : Fin nproc} {q : TProc}
    (h : s'.proc = Function.update s.proc p q) :
    s'.sharers = tally (Function.update (fun p => (s.proc p).textp) p q.textp) := by
  rw [sharers_eq_tally, h]
  congr 1
  funext r
  by_cases hr : r = p
  · subst hr
    simp
  · simp [hr]

theorem loaded_of_proc {s s' : Texts} {p : Fin nproc} {q : TProc}
    (h : s'.proc = Function.update s.proc p q) :
    s'.loaded = tally (Function.update (fun p => (s.proc p).inCore) p q.inCore) := by
  rw [loaded_eq_tally, h]
  congr 1
  funext r
  by_cases hr : r = p
  · subst hr
    simp
  · simp [hr]

section Change

variable {s s' : Texts} {p : Fin nproc} {q : TProc} {k : Fin ntext}

theorem sharers_same (h : s'.proc = Function.update s.proc p q)
    (hq : q.textp = (s.proc p).textp) : s'.sharers = s.sharers := by
  rw [sharers_of_proc h, hq, Function.update_eq_self, sharers_eq_tally]

theorem sharers_in (h : s'.proc = Function.update s.proc p q) (hp : (s.proc p).textp = none)
    (hq : q.textp = some k) :
    s'.sharers = Function.update s.sharers k (s.sharers k + 1) := by
  rw [sharers_of_proc h, hq, sharers_eq_tally]
  exact tally_in (f := fun p => (s.proc p).textp) hp k

theorem sharers_out (h : s'.proc = Function.update s.proc p q) (hp : (s.proc p).textp = some k)
    (hq : q.textp = none) :
    s'.sharers = Function.update s.sharers k (s.sharers k - 1) := by
  rw [sharers_of_proc h, hq, sharers_eq_tally]
  exact tally_out (f := fun p => (s.proc p).textp) hp

theorem loaded_same (h : s'.proc = Function.update s.proc p q)
    (hq : q.inCore = (s.proc p).inCore) : s'.loaded = s.loaded := by
  rw [loaded_of_proc h, hq, Function.update_eq_self, loaded_eq_tally]

theorem loaded_in (h : s'.proc = Function.update s.proc p q) (hp : (s.proc p).inCore = none)
    (hq : q.inCore = some k) :
    s'.loaded = Function.update s.loaded k (s.loaded k + 1) := by
  rw [loaded_of_proc h, hq, loaded_eq_tally]
  exact tally_in (f := fun p => (s.proc p).inCore) hp k

theorem loaded_out (h : s'.proc = Function.update s.proc p q) (hp : (s.proc p).inCore = some k)
    (hq : q.inCore = none) :
    s'.loaded = Function.update s.loaded k (s.loaded k - 1) := by
  rw [loaded_of_proc h, hq, loaded_eq_tally]
  exact tally_out (f := fun p => (s.proc p).inCore) hp

theorem sharers_pos (hp : (s.proc p).textp = some k) : 0 < s.sharers k := by
  rw [sharers_eq_tally]
  exact tally_pos (f := fun p => (s.proc p).textp) hp

theorem loaded_pos (hp : (s.proc p).inCore = some k) : 0 < s.loaded k := by
  rw [loaded_eq_tally]
  exact tally_pos (f := fun p => (s.proc p).inCore) hp

end Change

/-! ## The invariant -/

/-- A slot with `n` users, `m` of them in core. -/
def SlotOk (x : Text) (cl sl : List (Loan Region)) (n m : Nat) : Prop :=
  match x.xIptr with
  | none => n = 0 ∧ Loan.held cl = some none ∧ Loan.held sl = some none
  | some _ =>
    x.xCount = BitVec.ofNat 8 n ∧ x.xCcount = BitVec.ofNat 8 m ∧
      Loan.held cl = some (if m = 0 then none else some (x.xCaddr, x.xSize)) ∧
      Loan.held sl = some (some (x.xDaddr, ctod x.xSize))

def Counted (s : Texts) (N M : Fin ntext → Nat) : Prop :=
  ∀ k, SlotOk (s.text k) (s.coreLog k) (s.swapLog k) (N k) (M k)

variable {s s' : Texts} {N M : Fin ntext → Nat} {k : Fin ntext} {p : Fin nproc}

theorem SlotOk.used {x : Text} {cl sl : List (Loan Region)} {n m : Nat} (h : SlotOk x cl sl n m)
    (hn : 0 < n) : ∃ ip, x.xIptr = some ip := by
  unfold SlotOk at h
  cases hi : x.xIptr with
  | none =>
    rw [hi] at h
    dsimp only at h
    omega
  | some ip => exact ⟨ip, rfl⟩

theorem slotOk_some {x : Text} {cl sl : List (Loan Region)} {n m ip : Nat}
    (hi : x.xIptr = some ip) :
    SlotOk x cl sl n m ↔ x.xCount = BitVec.ofNat 8 n ∧ x.xCcount = BitVec.ofNat 8 m ∧
      Loan.held cl = some (if m = 0 then none else some (x.xCaddr, x.xSize)) ∧
      Loan.held sl = some (some (x.xDaddr, ctod x.xSize)) := by
  unfold SlotOk
  rw [hi]

theorem slotOk_none {x : Text} {cl sl : List (Loan Region)} {n m : Nat} (hi : x.xIptr = none) :
    SlotOk x cl sl n m ↔ n = 0 ∧ Loan.held cl = some none ∧ Loan.held sl = some none := by
  unfold SlotOk
  rw [hi]

/-- Only the slot `k` differs. -/
def OnlySlot (k : Fin ntext) (s s' : Texts) : Prop :=
  ∀ j, j ≠ k → s'.text j = s.text j ∧ s'.coreLog j = s.coreLog j ∧ s'.swapLog j = s.swapLog j

theorem Counted.slot {n m : Nat} (h : Counted s N M) (hj : OnlySlot k s s')
    (hk : SlotOk (s'.text k) (s'.coreLog k) (s'.swapLog k) n m) :
    Counted s' (Function.update N k n) (Function.update M k m) := by
  intro j
  by_cases hjk : j = k
  · subst hjk
    rw [Function.update_self, Function.update_self]
    exact hk
  · obtain ⟨h1, h2, h3⟩ := hj j hjk
    rw [Function.update_of_ne hjk, Function.update_of_ne hjk, h1, h2, h3]
    exact h j

/-- The same where the numbers stay. -/
theorem Counted.slot_same (h : Counted s N M) (hj : OnlySlot k s s')
    (hk : SlotOk (s'.text k) (s'.coreLog k) (s'.swapLog k) (N k) (M k)) : Counted s' N M := by
  have := h.slot hj hk
  rwa [Function.update_eq_self, Function.update_eq_self] at this

/-- What is no part of a slot does not matter. -/
theorem Counted.of_eq (h : Counted s N M) (ht : s'.text = s.text) (hc : s'.coreLog = s.coreLog)
    (hs : s'.swapLog = s.swapLog) : Counted s' N M := by
  intro j
  rw [ht, hc, hs]
  exact h j

/-! ## Maps and locks -/

theorem mallocCore_eq {n a : BitVec 16} (h : s.mallocCore n = some (a, s')) :
    ∃ m, s' = { s with coremap := m } := by
  unfold mallocCore at h
  obtain ⟨r, -, hr⟩ := Option.map_eq_some_iff.mp h
  exact ⟨r.2, (Prod.mk.inj hr).2.symm⟩

theorem mallocSwap_eq {n a : BitVec 16} (h : s.mallocSwap n = some (a, s')) :
    ∃ m, s' = { s with swapmap := m } := by
  unfold mallocSwap at h
  obtain ⟨r, -, hr⟩ := Option.map_eq_some_iff.mp h
  exact ⟨r.2, (Prod.mk.inj hr).2.symm⟩

theorem mfreeCore_eq {n a : BitVec 16} (h : s.mfreeCore n a = some s') :
    ∃ m, s' = { s with coremap := m } := by
  unfold mfreeCore at h
  obtain ⟨m, -, hm⟩ := Option.map_eq_some_iff.mp h
  exact ⟨m, hm.symm⟩

theorem mfreeSwap_eq {n a : BitVec 16} (h : s.mfreeSwap n a = some s') :
    ∃ m, s' = { s with swapmap := m } := by
  unfold mfreeSwap at h
  obtain ⟨m, -, hm⟩ := Option.map_eq_some_iff.mp h
  exact ⟨m, hm.symm⟩

theorem freeTextCore_eq (h : s.freeTextCore k = some s') :
    ∃ m, s' = { s with
      coremap := m
      coreLog := Function.update s.coreLog k
        (.freed ((s.text k).xCaddr, (s.text k).xSize) :: s.coreLog k) } := by
  unfold freeTextCore at h
  obtain ⟨t, ht, rfl⟩ := Option.map_eq_some_iff.mp h
  obtain ⟨m, rfl⟩ := mfreeCore_eq ht
  exact ⟨m, rfl⟩

theorem freeTextSwap_eq (h : s.freeTextSwap k = some s') :
    ∃ m, s' = { s with
      swapmap := m
      swapLog := Function.update s.swapLog k
        (.freed ((s.text k).xDaddr, ctod (s.text k).xSize) :: s.swapLog k) } := by
  unfold freeTextSwap at h
  obtain ⟨t, ht, rfl⟩ := Option.map_eq_some_iff.mp h
  obtain ⟨m, rfl⟩ := mfreeSwap_eq ht
  exact ⟨m, rfl⟩

theorem xlock_eq (h : s.xlock k = some s') :
    s' = s.setText k { s.text k with xLock := true } := by
  unfold xlock at h
  split at h
  · cases h
  · exact (Option.some.inj h).symm

theorem ofNat8_eq_zero {n : Nat} (h : n < 256) : BitVec.ofNat 8 n = 0 ↔ n = 0 := by
  constructor
  · intro h0
    have := congrArg BitVec.toNat h0
    simp only [BitVec.toNat_ofNat, Nat.reducePow] at this
    simpa [Nat.mod_eq_of_lt h] using this
  · rintro rfl
    rfl

theorem ofNat8_pred {n : Nat} (h : 0 < n) : BitVec.ofNat 8 n - 1 = BitVec.ofNat 8 (n - 1) := by
  obtain ⟨m, rfl⟩ : ∃ m, n = m + 1 := ⟨n - 1, by omega⟩
  rw [Nat.add_sub_cancel, BitVec.ofNat_add]
  exact BitVec.add_sub_cancel _ _

theorem ofNat8_succ (n : Nat) : BitVec.ofNat 8 n + 1 = BitVec.ofNat 8 (n + 1) :=
  (BitVec.ofNat_add n 1).symm

/-! ## `xccdec` and `xswap` -/

/-- A change of the locks and flags of a slot. -/
theorem SlotOk.of_eq {x x' : Text} {cl sl : List (Loan Region)} {n m : Nat}
    (h : SlotOk x cl sl n m) (hi : x'.xIptr = x.xIptr) (hn : x'.xCount = x.xCount)
    (hc : x'.xCcount = x.xCcount) (ha : x'.xCaddr = x.xCaddr) (hd : x'.xDaddr = x.xDaddr)
    (hs : x'.xSize = x.xSize) : SlotOk x' cl sl n m := by
  unfold SlotOk at h ⊢
  rw [hi, hn, hc, ha, hd, hs]
  exact h

theorem onlySlot_setText (x : Text) : OnlySlot k s (s.setText k x) := by
  intro j hj
  exact ⟨Function.update_of_ne hj _ _, rfl, rfl⟩

theorem OnlySlot.trans {s'' : Texts} (h : OnlySlot k s s') (h' : OnlySlot k s' s'') :
    OnlySlot k s s'' := by
  intro j hj
  obtain ⟨a, b, c⟩ := h j hj
  obtain ⟨a', b', c'⟩ := h' j hj
  exact ⟨a'.trans a, b'.trans b, c'.trans c⟩

theorem xunlock_counted (h : Counted s N M) (j : Fin ntext) : Counted (s.xunlock j) N M := by
  refine h.slot_same (onlySlot_setText _) ?_
  unfold xunlock setText
  dsimp only
  rw [Function.update_self]
  exact (h j).of_eq rfl rfl rfl rfl rfl rfl

theorem xccdec_counted {ip : Nat} (h : Counted s N M) (hi : (s.text k).xIptr = some ip)
    (hM : M k < 256) (hx : s.xccdec (some k) = some s') :
    Counted s' N (Function.update M k (M k - 1)) ∧ s'.proc = s.proc := by
  obtain ⟨hn, hm, hc, hs⟩ := (slotOk_some hi).mp (h k)
  have hzero : (s.text k).xCcount = 0 ↔ M k = 0 := by rw [hm, ofNat8_eq_zero hM]
  unfold xccdec at hx
  dsimp only at hx
  split at hx
  · rename_i h0
    cases hx
    rw [hzero] at h0
    rw [h0, Nat.zero_sub, ← h0, Function.update_eq_self]
    exact ⟨h, rfl⟩
  rename_i h0
  rw [hzero] at h0
  obtain ⟨s1, hl, hx⟩ := Option.bind_eq_some_iff.mp hx
  rw [xlock_eq hl] at hx
  have hpred : (s.text k).xCcount - 1 = BitVec.ofNat 8 (M k - 1) := by
    rw [hm, ofNat8_pred (by omega)]
  have hN : Function.update N k (N k) = N := Function.update_eq_self _ _
  simp only [setText, Function.update_self, Function.update_idem] at hx
  rw [hpred] at hx
  split at hx
  · rename_i h1
    rw [ofNat8_eq_zero (by omega)] at h1
    obtain ⟨s2, hf, hx⟩ := Option.bind_eq_some_iff.mp hx
    obtain ⟨m, rfl⟩ := freeTextCore_eq hf
    cases hx
    refine ⟨?_, rfl⟩
    rw [← hN]
    refine h.slot ?_ ?_
    · intro j hj
      simp [xunlock, setText, hj]
    · simp only [xunlock, setText, Function.update_self]
      refine (slotOk_some (by exact hi)).mpr ⟨hn, rfl, ?_, hs⟩
      rw [if_pos h1]
      refine Loan.held_freed ?_
      rw [hc, if_neg h0]
  · rename_i h1
    rw [ofNat8_eq_zero (by omega)] at h1
    cases hx
    refine ⟨?_, rfl⟩
    rw [← hN]
    refine h.slot ?_ ?_
    · intro j hj
      simp [xunlock, setText, hj]
    · simp only [xunlock, setText, Function.update_self]
      refine (slotOk_some (by exact hi)).mpr ⟨hn, rfl, ?_, hs⟩
      rw [if_neg h1, hc, if_neg h0]

/-- The number of users in core once `xccdec` has run. -/
def leave (M : Fin ntext → Nat) : Option (Fin ntext) → Fin ntext → Nat
  | none => M
  | some k => Function.update M k (M k - 1)

theorem xswap_counted {ff : Bool} {os : BitVec 16} (h : Counted s N M)
    (hN : ∀ k, (s.proc p).textp = some k → 0 < N k ∧ M k < 256)
    (hx : s.xswap p ff os = some s') :
    Counted s' N (leave M (s.proc p).textp) ∧
      ∃ a, s'.proc = Function.update s.proc p { s.proc p with addr := a, load := false } := by
  unfold xswap at hx
  obtain ⟨⟨a, s1⟩, hm, hx⟩ := Option.bind_eq_some_iff.mp hx
  dsimp only at hx
  obtain ⟨m, rfl⟩ := mallocSwap_eq hm
  split at hx
  · cases hx
  obtain ⟨s2, hd, hx⟩ := Option.bind_eq_some_iff.mp hx
  obtain ⟨s3, hf, hx⟩ := Option.bind_eq_some_iff.mp hx
  cases hx
  have h1 : Counted { s with swapmap := m } N M := h.of_eq rfl rfl rfl
  have h2 : Counted s2 N (leave M (s.proc p).textp) ∧ s2.proc = s.proc := by
    dsimp only at hd
    cases ht : (s.proc p).textp with
    | none =>
      rw [ht] at hd
      cases hd
      exact ⟨h1, rfl⟩
    | some k =>
      rw [ht] at hd
      obtain ⟨ip, hi⟩ := (h k).used (hN k ht).1
      exact xccdec_counted (s := { s with swapmap := m }) h1 hi (hN k ht).2 hd
  have h3 : Counted s3 N (leave M (s.proc p).textp) ∧ s3.proc = s.proc := by
    split at hf
    · obtain ⟨m, rfl⟩ := mfreeCore_eq hf
      exact ⟨h2.1.of_eq rfl rfl rfl, h2.2⟩
    · cases hf
      exact h2
  refine ⟨h3.1.of_eq rfl rfl rfl, a, ?_⟩
  unfold setProc
  rw [h3.2]

/-! ## `xfree`, `xexpand` and `xalloc` -/

theorem xfree_counted (h : Counted s N M) (hp : (s.proc p).textp = some k) (hM : 0 < M k)
    (hle : M k ≤ N k) (hN : N k < 256) (hx : s.xfree p = some s') :
    Counted s' (Function.update N k (N k - 1)) (Function.update M k (M k - 1)) ∧
      s'.proc = Function.update s.proc p { s.proc p with textp := none } := by
  obtain ⟨ip, hi⟩ := (h k).used (by omega)
  obtain ⟨hn, hm, hc, hs⟩ := (slotOk_some hi).mp (h k)
  have hpred : (s.text k).xCount - 1 = BitVec.ofNat 8 (N k - 1) := by
    rw [hn, ofNat8_pred (by omega)]
  unfold xfree at hx
  rw [hp] at hx
  obtain ⟨s1, hl, hx⟩ := Option.bind_eq_some_iff.mp hx
  rw [xlock_eq hl] at hx
  simp only [setText, setProc, Function.update_self, Function.update_idem] at hx
  rw [hi, hpred] at hx
  dsimp only at hx
  split at hx
  · -- The last user of a text that is not kept: its core and its swap space go.
    rename_i h1
    rw [ofNat8_eq_zero (by omega)] at h1
    obtain ⟨s2, hfs, hx⟩ := Option.bind_eq_some_iff.mp hx
    obtain ⟨m, rfl⟩ := freeTextSwap_eq hfs
    obtain ⟨s3, hfc, hx⟩ := Option.bind_eq_some_iff.mp hx
    obtain ⟨m', rfl⟩ := freeTextCore_eq hfc
    cases hx
    refine ⟨h.slot ?_ ?_, rfl⟩
    · intro j hj
      simp [dropInode, hj]
    · simp only [dropInode, Function.update_self]
      refine (slotOk_none rfl).mpr ⟨h1.1, Loan.held_freed ?_, Loan.held_freed hs⟩
      rw [hc, if_neg (by omega)]
  · -- Other users are left, or the text is kept.
    have h1 : Counted { s with
        text := Function.update s.text k { s.text k with
          xLock := false
          xCount := BitVec.ofNat 8 (N k - 1)
          xIptr := some ip }
        proc := Function.update s.proc p { s.proc p with textp := none } }
        (Function.update N k (N k - 1)) M := by
      have hMs : Function.update M k (M k) = M := Function.update_eq_self _ _
      rw [← hMs]
      refine h.slot ?_ ?_
      · intro j hj
        simp [hj]
      · simp only [Function.update_self]
        exact (slotOk_some rfl).mpr ⟨rfl, hm, hc, hs⟩
    exact xccdec_counted h1 (by dsimp only; rw [Function.update_self]) (by omega) hx

/-- `xexpand` for a text without core: it gets some, or its process leaves the core. -/
theorem xexpand_counted {done : Bool} (h : Counted s N M) (hk : 0 < N k) (hM : M k = 0)
    (hp : (s.proc p).textp = some k) (hx : s.xexpand p k = some (done, s')) :
    if done then Counted s' N (Function.update M k 1) ∧ s'.proc = s.proc
    else Counted s' N M ∧
      ∃ a, s'.proc = Function.update s.proc p { s.proc p with addr := a, load := false } := by
  obtain ⟨ip, hi⟩ := (h k).used hk
  obtain ⟨hn, hm, hc, hs⟩ := (slotOk_some hi).mp (h k)
  rw [hM] at hm
  rw [if_pos hM] at hc
  unfold xexpand at hx
  obtain ⟨⟨a, s1⟩, hma, hx⟩ := Option.bind_eq_some_iff.mp hx
  obtain ⟨m, rfl⟩ := mallocCore_eq hma
  dsimp only at hx
  split at hx
  · cases hx
    refine ⟨?_, rfl⟩
    have hN : Function.update N k (N k) = N := Function.update_eq_self _ _
    rw [← hN]
    refine h.slot ?_ ?_
    · intro j hj
      simp [xunlock, setText, logCore, hj]
    · simp only [xunlock, setText, logCore, Function.update_self]
      refine (slotOk_some (by exact hi)).mpr ⟨hn, ?_, Loan.held_got _ hc, hs⟩
      rw [hm]
      rfl
  · obtain ⟨s2, hsw, hx⟩ := Option.bind_eq_some_iff.mp hx
    cases hx
    have h1 : Counted ({ s with coremap := m }.setText k { s.text k with xCaddr := a }) N M := by
      refine h.slot_same (k := k) ?_ ?_
      · intro j hj
        simp [setText, hj]
      · simp only [setText, Function.update_self]
        refine (slotOk_some (by exact hi)).mpr ⟨hn, ?_, ?_, hs⟩
        · rw [hm, hM]
        · rw [if_pos hM, hc]
    obtain ⟨h2, a', hpr⟩ := xswap_counted h1 (fun j hj => by
      have hjk : j = k := by
        have : (s.proc p).textp = some j := hj
        rw [hp] at this
        exact (Option.some.inj this).symm
      subst hjk
      exact ⟨hk, by omega⟩) hsw
    have hleave : leave M (s.proc p).textp = M := by
      rw [hp]
      dsimp only [leave]
      rw [hM, Nat.zero_sub, ← hM, Function.update_eq_self]
    refine ⟨xunlock_counted ?_ k, a', hpr⟩
    rw [← hleave]
    exact h2

theorem findText_inl {ip : Nat} {ks : List (Fin ntext)} {xp1 : Option (Fin ntext)}
    (h : s.findText ip ks xp1 = .inl k) : (s.text k).xIptr = some ip := by
  induction ks generalizing xp1 with
  | nil => cases h
  | cons j ks ih =>
    unfold findText at h
    split at h
    · exact ih h
    · rename_i i hi
      split at h
      · rename_i hip
        cases h
        rw [hi, hip]
      · exact ih h

theorem findText_inr {ip : Nat} {ks : List (Fin ntext)} {xp1 : Option (Fin ntext)}
    (h1 : ∀ j, xp1 = some j → (s.text j).xIptr = none)
    (h : s.findText ip ks xp1 = .inr (some k)) : (s.text k).xIptr = none := by
  induction ks generalizing xp1 with
  | nil =>
    unfold findText at h
    exact h1 k (Sum.inr.inj h)
  | cons j ks ih =>
    unfold findText at h
    split at h
    · rename_i hj
      refine ih (fun i hi => ?_) h
      split at hi
      · cases hi
        exact hj
      · exact h1 i hi
    · split at h
      · cases h
      · exact ih h1 h

/-- The end of `xalloc`, after `p_textp` is set and the text counts its process. -/
theorem attach_counted {done : Bool} (h : Counted s N M) (hk : 0 < N k) (hM : M k = 0)
    (hp : (s.proc p).textp = some k) (hx : s.xexpand p k = some (done, s')) :
    ∃ q, s'.proc = Function.update s.proc p q ∧ q.textp = some k ∧ q.stat = (s.proc p).stat ∧
      q.cont = (s.proc p).cont ∧ q.load = (if done then (s.proc p).load else false) ∧
      Counted s' N (Function.update M k (if done then 1 else 0)) := by
  have hE := xexpand_counted h hk hM hp hx
  cases done with
  | true =>
    simp only [if_true] at hE ⊢
    exact ⟨s.proc p, by rw [Function.update_eq_self]; exact hE.2, hp, rfl, rfl, rfl, hE.1⟩
  | false =>
    simp only [Bool.false_eq_true, if_false] at hE ⊢
    obtain ⟨hc, a, hpr⟩ := hE
    refine ⟨_, hpr, hp, rfl, rfl, rfl, ?_⟩
    rw [← hM, Function.update_eq_self]
    exact hc

theorem setProc_counted (h : Counted s N M) (q : TProc) : Counted (s.setProc p q) N M :=
  h.of_eq rfl rfl rfl

theorem readText_counted (h : Counted s N M) (j : Fin ntext) : Counted (s.readText j) N M := by
  refine h.slot_same (onlySlot_setText _) ?_
  unfold readText setText
  dsimp only
  rw [Function.update_self]
  exact (h j).of_eq rfl rfl rfl rfl rfl rfl

/-- `p` has attached to the text `k`, and is in core or waits for core. -/
def Attached (s s' : Texts) (p : Fin nproc) (k : Fin ntext) (N M : Fin ntext → Nat) : Prop :=
  ∃ q, s'.proc = Function.update s.proc p q ∧ q.textp = some k ∧ q.stat = (s.proc p).stat ∧
    Counted s' (Function.update N k (N k + 1))
      (Function.update M k (M k + if q.load then 1 else 0))

theorem attachText_counted {ip : Nat} (h : Counted s N M) (hM : M k < 256)
    (hi : (s.text k).xIptr = some ip) (hl : (s.proc p).load = true)
    (hx : s.attachText p k = some s') : Attached s s' p k N M := by
  obtain ⟨hn, hm, hc, hs⟩ := (slotOk_some hi).mp (h k)
  obtain ⟨s1, hlk, hx⟩ := Option.bind_eq_some_iff.mp hx
  rw [xlock_eq hlk] at hx
  simp only [setText, setProc, Function.update_self, Function.update_idem] at hx
  have h1 : Counted { s with
      text := Function.update s.text k { s.text k with
        xLock := true
        xCount := (s.text k).xCount + 1 }
      proc := Function.update s.proc p { s.proc p with textp := some k } }
      (Function.update N k (N k + 1)) (Function.update M k (M k)) := by
    refine h.slot ?_ ?_
    · intro j hj
      simp [hj]
    · simp only [Function.update_self]
      exact (slotOk_some (by exact hi)).mpr ⟨by rw [hn, ofNat8_succ], hm, hc, hs⟩
  split at hx
  · rename_i h0
    rw [hm, ofNat8_eq_zero hM] at h0
    obtain ⟨⟨done, s2⟩, hE, hx⟩ := Option.bind_eq_some_iff.mp hx
    obtain ⟨q, hpr, hqt, hqs, -, hql, h2⟩ := attach_counted h1 (by simp) (by simpa using h0)
      (by simp) hE
    dsimp only at hpr hqs hql
    rw [Function.update_idem] at hpr
    rw [Function.update_self] at hqs hql
    dsimp only at hqs hql hx
    rw [Function.update_idem] at h2
    cases done with
    | true =>
      cases hx
      refine ⟨q, hpr, hqt, hqs, ?_⟩
      rw [hql, hl, h0]
      exact xunlock_counted h2 k
    | false =>
      cases hx
      refine ⟨{ q with cont := some (.attach k) }, ?_, hqt, hqs, ?_⟩
      · dsimp only
        rw [hpr, Function.update_self, Function.update_idem]
      · dsimp only
        rw [hql, h0]
        exact setProc_counted h2 _
  · rename_i h0
    rw [hm, ofNat8_eq_zero hM] at h0
    cases hx
    refine ⟨_, rfl, rfl, rfl, ?_⟩
    rw [if_pos hl]
    refine xunlock_counted ?_ k
    refine h.slot ?_ ?_
    · intro j hj
      simp [hj]
    · simp only [Function.update_self]
      refine (slotOk_some (by exact hi)).mpr ⟨by rw [hn, ofNat8_succ], by rw [hm, ofNat8_succ], ?_, hs⟩
      rw [hc, if_neg h0, if_neg (by omega)]

theorem newText_counted {ip : Nat} {tsize : BitVec 16} (h : Counted s N M) (hM : M k = 0)
    (hi : (s.text k).xIptr = none) (hl : (s.proc p).load = true)
    (hx : s.newText p k ip tsize = some s') : Attached s s' p k N M := by
  obtain ⟨hn, hc, hs⟩ := (slotOk_none hi).mp (h k)
  unfold newText at hx
  obtain ⟨⟨d, s1⟩, hma, hx⟩ := Option.bind_eq_some_iff.mp hx
  obtain ⟨m, rfl⟩ := mallocSwap_eq hma
  simp only [setText, setProc, logSwap, Function.update_self, Function.update_idem] at hx
  split at hx
  · cases hx
  obtain ⟨⟨done, s2⟩, hE, hx⟩ := Option.bind_eq_some_iff.mp hx
  have h1 : Counted { s with
      text := Function.update s.text k
        { s.text k with
          xDaddr := d
          xWrit := false
          xLoad := true
          xLock := true
          xWant := false
          xCount := 1
          xCcount := 0
          xIptr := some ip
          xSize := btoc tsize }
      swapmap := m
      proc := Function.update s.proc p { s.proc p with textp := some k }
      itext := Function.update s.itext ip true
      iCount := Function.update s.iCount ip (s.iCount ip + 1)
      swapLog := Function.update s.swapLog k (.got (d, ctod (btoc tsize)) :: s.swapLog k) }
      (Function.update N k (N k + 1)) (Function.update M k 0) := by
    refine h.slot ?_ ?_
    · intro j hj
      simp [hj]
    · simp only [Function.update_self]
      refine (slotOk_some rfl).mpr ⟨by rw [hn]; rfl, rfl, ?_, Loan.held_got _ hs⟩
      rw [if_pos rfl, hc]
  obtain ⟨q, hpr, hqt, hqs, -, hql, h2⟩ := attach_counted h1 (by simp) (by simp) (by simp) hE
  dsimp only at hpr hqs hql
  rw [Function.update_idem] at hpr
  rw [Function.update_self] at hqs hql
  dsimp only at hqs hql hx
  rw [Function.update_idem] at h2
  cases done with
  | true =>
    cases hx
    refine ⟨q, hpr, hqt, hqs, ?_⟩
    rw [hql, hl, hM]
    exact readText_counted h2 k
  | false =>
    cases hx
    refine ⟨{ q with cont := some (.read k) }, ?_, hqt, hqs, ?_⟩
    · dsimp only
      rw [hpr, Function.update_self, Function.update_idem]
    · dsimp only
      rw [hql, hM]
      exact setProc_counted h2 _

theorem xalloc_counted {ip : Nat} {tsize : BitVec 16} (h : Counted s N M)
    (hle : ∀ k, M k ≤ N k) (hN : ∀ k, N k < 256) (hl : (s.proc p).load = true)
    (hx : s.xalloc p ip tsize = some s') : s' = s ∨ ∃ k, Attached s s' p k N M := by
  unfold xalloc at hx
  split at hx
  · exact Or.inl (Option.some.inj hx).symm
  split at hx
  · rename_i k hf
    exact Or.inr ⟨k, attachText_counted h (Nat.lt_of_le_of_lt (hle k) (hN k)) (findText_inl hf) hl hx⟩
  · exact Or.inl (Option.some.inj hx).symm
  · rename_i k hf
    have hi := findText_inr (by simp) hf
    have hn := ((slotOk_none hi).mp (h k)).1
    exact Or.inr ⟨k, newText_counted h (by have := hle k; omega) hi hl hx⟩

/-! ## `xuntext` and `swapin` -/

theorem xuntext_counted (h : Counted s N M) (hle : M k ≤ N k) (hN : N k < 256)
    (hu : s.Used k) (hx : s.xuntext k = some s') : Counted s' N M ∧ s'.proc = s.proc := by
  obtain ⟨ip, hi⟩ := Option.isSome_iff_exists.mp hu
  obtain ⟨hn, hm, hc, hs⟩ := (slotOk_some hi).mp (h k)
  unfold xuntext at hx
  obtain ⟨s1, hlk, hx⟩ := Option.bind_eq_some_iff.mp hx
  rw [xlock_eq hlk] at hx
  simp only [setText, Function.update_self, Function.update_idem, hi] at hx
  split at hx
  · cases hx
    refine ⟨h.slot_same (k := k) ?_ ?_, rfl⟩
    · intro j hj
      simp [xunlock, setText, hj]
    · simp only [xunlock, setText, Function.update_self]
      exact (slotOk_some rfl).mpr ⟨hn, hm, hc, hs⟩
  · rename_i h0
    rw [not_not, hn, ofNat8_eq_zero hN] at h0
    obtain ⟨s2, hf, hx⟩ := Option.bind_eq_some_iff.mp hx
    obtain ⟨m, rfl⟩ := freeTextSwap_eq hf
    cases hx
    refine ⟨h.slot_same (k := k) ?_ ?_, rfl⟩
    · intro j hj
      simp [dropInode, hj]
    · simp only [dropInode, Function.update_self]
      refine (slotOk_none rfl).mpr ⟨h0, ?_, Loan.held_freed hs⟩
      rw [hc, if_pos (by omega)]

/-- The part of `swapin` for the text counts its process, or changes no count. -/
theorem swapinText_counted {done : Bool} (h : Counted s N M) (hk : 0 < N k) (hM : M k < 256)
    (hx : s.swapinText k = some (done, s')) :
    Counted s' N (Function.update M k (M k + if done then 1 else 0)) ∧ s'.proc = s.proc := by
  obtain ⟨ip, hi⟩ := (h k).used hk
  obtain ⟨hn, hm, hc, hs⟩ := (slotOk_some hi).mp (h k)
  have hN : Function.update N k (N k) = N := Function.update_eq_self _ _
  unfold swapinText at hx
  obtain ⟨s1, hlk, hx⟩ := Option.bind_eq_some_iff.mp hx
  rw [xlock_eq hlk] at hx
  simp only [setText, Function.update_self, Function.update_idem] at hx
  split at hx
  · rename_i h0
    rw [hm, ofNat8_eq_zero hM] at h0
    obtain ⟨⟨a, s2⟩, hma, hx⟩ := Option.bind_eq_some_iff.mp hx
    obtain ⟨m, rfl⟩ := mallocCore_eq hma
    dsimp only at hx
    split at hx
    · cases hx
      refine ⟨?_, rfl⟩
      rw [if_neg Bool.false_ne_true, Nat.add_zero, Function.update_eq_self]
      refine h.slot_same (k := k) ?_ ?_
      · intro j hj
        simp [xunlock, setText, hj]
      · simp only [xunlock, setText, Function.update_self]
        exact (slotOk_some (by exact hi)).mpr ⟨hn, hm, hc, hs⟩
    · cases hx
      refine ⟨?_, rfl⟩
      rw [if_pos rfl, ← hN]
      refine h.slot ?_ ?_
      · intro j hj
        simp [xunlock, setText, logCore, hj]
      · simp only [xunlock, setText, logCore, Function.update_self, Function.update_idem]
        refine (slotOk_some (by exact hi)).mpr ⟨hn, by rw [hm, ofNat8_succ], ?_, hs⟩
        rw [if_neg (by omega)]
        refine Loan.held_got _ ?_
        rw [hc, if_pos h0]
  · rename_i h0
    rw [hm, ofNat8_eq_zero hM] at h0
    cases hx
    refine ⟨?_, rfl⟩
    rw [if_pos rfl, ← hN]
    refine h.slot ?_ ?_
    · intro j hj
      simp [xunlock, setText, hj]
    · simp only [xunlock, setText, Function.update_self]
      refine (slotOk_some (by exact hi)).mpr ⟨hn, by rw [hm, ofNat8_succ], ?_, hs⟩
      rw [hc, if_neg h0, if_neg (by omega)]

theorem swapinData_counted {a : BitVec 16} (h : Counted s N M) (hx : s.swapinData p a = some s') :
    Counted s' N M ∧
      s'.proc = Function.update s.proc p { s.proc p with addr := a, load := true } := by
  unfold swapinData at hx
  obtain ⟨s1, hf, hx⟩ := Option.bind_eq_some_iff.mp hx
  obtain ⟨m, rfl⟩ := mfreeSwap_eq hf
  cases hx
  exact ⟨h.of_eq rfl rfl rfl, rfl⟩

/-- The number of users in core once a process has come back. -/
def enter (M : Fin ntext → Nat) : Option (Fin ntext) → Fin ntext → Nat
  | none => M
  | some k => Function.update M k (M k + 1)

theorem swapin_counted (h : Counted s N M)
    (hN : ∀ k, (s.proc p).textp = some k → 0 < N k ∧ M k < 256) (hx : s.swapin p = some s') :
    (Counted s' N M ∧ s'.proc = s.proc) ∨
      (Counted s' N (enter M (s.proc p).textp) ∧
        ∃ a, s'.proc = Function.update s.proc p { s.proc p with addr := a, load := true }) := by
  unfold swapin at hx
  obtain ⟨⟨a, s1⟩, hma, hx⟩ := Option.bind_eq_some_iff.mp hx
  obtain ⟨m, rfl⟩ := mallocCore_eq hma
  have h1 : Counted { s with coremap := m } N M := h.of_eq rfl rfl rfl
  dsimp only at hx
  split at hx
  · cases hx
    exact Or.inl ⟨h1, rfl⟩
  split at hx
  · rename_i ht
    obtain ⟨hc, hpr⟩ := swapinData_counted h1 hx
    rw [ht]
    exact Or.inr ⟨hc, a, hpr⟩
  · rename_i k ht
    obtain ⟨⟨done, s2⟩, hT, hx⟩ := Option.bind_eq_some_iff.mp hx
    obtain ⟨h2, hp2⟩ := swapinText_counted h1 (hN k ht).1 (hN k ht).2 hT
    dsimp only at hx hp2
    cases done with
    | true =>
      rw [if_pos rfl] at hx h2
      obtain ⟨hc, hpr⟩ := swapinData_counted h2 hx
      rw [ht, ← hp2]
      exact Or.inr ⟨hc, a, hpr⟩
    | false =>
      rw [if_neg Bool.false_ne_true] at hx h2
      rw [Nat.add_zero, Function.update_eq_self] at h2
      obtain ⟨m', rfl⟩ := mfreeCore_eq hx
      exact Or.inl ⟨h2.of_eq rfl rfl rfl, hp2⟩

/-! ## One step -/

structure Inv (s : Texts) : Prop where
  counted : Counted s s.sharers s.loaded
  idle : ∀ p, (s.proc p).stat ≠ .live → (s.proc p).textp = none

theorem sharers_lt (s : Texts) (k : Fin ntext) : s.sharers k < 256 :=
  Nat.lt_of_le_of_lt (s.sharers_le k) (by decide)

theorem loaded_lt (s : Texts) (k : Fin ntext) : s.loaded k < 256 :=
  Nat.lt_of_le_of_lt (s.loaded_le_sharers k) (s.sharers_lt k)

theorem inCore_of_load {q : TProc} (h : q.load = true) : q.inCore = q.textp := by
  unfold TProc.inCore
  rw [if_pos h]

theorem inCore_of_not_load {q : TProc} (h : q.load = false) : q.inCore = none := by
  unfold TProc.inCore
  rw [h, if_neg Bool.false_ne_true]

theorem inCore_of_none {q : TProc} (h : q.textp = none) : q.inCore = none := by
  unfold TProc.inCore
  rw [h, ite_self]

section Step

variable {q : TProc}

theorem idle_update (h : ∀ p, (s.proc p).stat ≠ .live → (s.proc p).textp = none)
    (hpr : s'.proc = Function.update s.proc p q) (hq : q.stat ≠ .live → q.textp = none) :
    ∀ r, (s'.proc r).stat ≠ .live → (s'.proc r).textp = none := by
  intro r
  rw [hpr]
  by_cases hr : r = p
  · subst hr
    rw [Function.update_self]
    exact hq
  · rw [Function.update_of_ne hr]
    exact h r

/-- The numbers stay. -/
theorem Inv.same (h : Inv s) (hc : Counted s' s.sharers s.loaded)
    (hpr : s'.proc = Function.update s.proc p q) (ht : q.textp = (s.proc p).textp)
    (hi : q.inCore = (s.proc p).inCore) (hq : q.stat ≠ .live → q.textp = none) : Inv s' := by
  refine ⟨?_, idle_update h.idle hpr hq⟩
  rw [sharers_same hpr ht, loaded_same hpr hi]
  exact hc

theorem Inv.same_proc (h : Inv s) (hc : Counted s' s.sharers s.loaded) (hpr : s'.proc = s.proc) :
    Inv s' := by
  have hpr' : ∀ p, s'.proc = Function.update s.proc p (s.proc p) := by
    intro p
    rw [Function.update_eq_self, hpr]
  exact h.same hc (hpr' ⟨0, by decide⟩) rfl rfl (h.idle _)

theorem loaded_leave (hpr : s'.proc = Function.update s.proc p q) (hl : (s.proc p).load = true)
    (hq : q.load = false) : s'.loaded = leave s.loaded (s.proc p).textp := by
  cases ht : (s.proc p).textp with
  | none =>
    dsimp only [leave]
    exact loaded_same hpr (by rw [inCore_of_not_load hq, inCore_of_none ht])
  | some k =>
    dsimp only [leave]
    exact loaded_out hpr (by rw [inCore_of_load hl, ht]) (inCore_of_not_load hq)

theorem loaded_enter (hpr : s'.proc = Function.update s.proc p q) (hl : (s.proc p).load = false)
    (hq : q.load = true) (ht : q.textp = (s.proc p).textp) :
    s'.loaded = enter s.loaded (s.proc p).textp := by
  cases hp : (s.proc p).textp with
  | none =>
    dsimp only [enter]
    exact loaded_same hpr (by rw [inCore_of_not_load hl, inCore_of_none (ht.trans hp)])
  | some k =>
    dsimp only [enter]
    exact loaded_in hpr (inCore_of_not_load hl) (by rw [inCore_of_load hq, ht, hp])

theorem textp_bounds (s : Texts) (p : Fin nproc) (j : Fin ntext) (h : (s.proc p).textp = some j) :
    0 < s.sharers j ∧ s.loaded j < 256 :=
  ⟨sharers_pos h, s.loaded_lt j⟩

theorem Inv.attached (h : Inv s) (hp : (s.proc p).textp = none) (hl : (s.proc p).stat = .live)
    (ha : Attached s s' p k s.sharers s.loaded) : Inv s' := by
  obtain ⟨q, hpr, ht, hst, hc⟩ := ha
  refine ⟨?_, idle_update h.idle hpr (fun hq => absurd (hst.trans hl) hq)⟩
  rw [sharers_in hpr hp ht]
  cases hq : q.load with
  | true =>
    rw [hq, if_pos rfl] at hc
    rw [loaded_in hpr (inCore_of_none hp) (by rw [inCore_of_load hq, ht])]
    exact hc
  | false =>
    rw [hq, if_neg Bool.false_ne_true] at hc
    simp only [Nat.add_zero, Function.update_eq_self] at hc
    rw [loaded_same hpr (by rw [inCore_of_not_load hq, inCore_of_none hp])]
    exact hc

theorem Inv.xfree (h : Inv s) (hl : (s.proc p).load = true)
    (hx : s.xfree p = some s') :
    Inv s' ∧ s'.proc = Function.update s.proc p { s.proc p with textp := none } := by
  cases ht : (s.proc p).textp with
  | none =>
    unfold Texts.xfree at hx
    rw [ht] at hx
    cases hx
    refine ⟨h, ?_⟩
    rw [← ht]
    exact (Function.update_eq_self _ _).symm
  | some k =>
    have hin : (s.proc p).inCore = some k := by rw [inCore_of_load hl, ht]
    obtain ⟨hc, hpr⟩ := xfree_counted h.counted ht (loaded_pos hin) (s.loaded_le_sharers k)
      (s.sharers_lt k) hx
    refine ⟨⟨?_, idle_update h.idle hpr (fun _ => rfl)⟩, hpr⟩
    rw [sharers_out hpr ht rfl, loaded_out hpr hin (inCore_of_none rfl)]
    exact hc

/-- `xswap` of a process that is in core. -/
theorem Inv.xswap {ff : Bool} {os : BitVec 16} {s₀ : Texts} (h : Inv s)
    (hc : Counted s₀ s.sharers s.loaded) (hpr₀ : s₀.proc = Function.update s.proc p q)
    (hl : (s.proc p).load = true) (hqs : q.stat = .live)
    (ht : q.textp = (s.proc p).textp) (hx : s₀.xswap p ff os = some s') : Inv s' := by
  have hq₀ : s₀.proc p = q := by rw [hpr₀, Function.update_self]
  obtain ⟨hc', a, hpr⟩ := xswap_counted hc (fun j hj => by
    rw [hq₀, ht] at hj
    exact textp_bounds s p j hj) hx
  rw [hq₀, hpr₀, Function.update_idem] at hpr
  rw [hq₀, ht] at hc'
  refine ⟨?_, idle_update h.idle hpr (fun hne => absurd hqs hne)⟩
  rw [sharers_same hpr ht, loaded_leave hpr hl rfl]
  exact hc'

theorem Inv.expand {newsize : BitVec 16} (h : Inv s) (hl : (s.proc p).load = true)
    (hs : (s.proc p).stat = .live) (hx : s.expand p newsize = some s') : Inv s' := by
  have hlive : ∀ {q : TProc}, q.stat = (s.proc p).stat → q.stat ≠ .live → q.textp = none :=
    fun hq hne => absurd (hq.trans hs) hne
  unfold Texts.expand at hx
  dsimp only at hx
  split at hx
  · obtain ⟨m, rfl⟩ := mfreeCore_eq hx
    refine h.same (h.counted.of_eq rfl rfl rfl) rfl rfl ?_ (hlive rfl)
    exact (inCore_of_load hl).trans (inCore_of_load hl).symm
  · obtain ⟨⟨a, s1⟩, hma, hx⟩ := Option.bind_eq_some_iff.mp hx
    obtain ⟨m, rfl⟩ := mallocCore_eq hma
    dsimp only at hx
    split at hx
    · refine h.xswap (q := { s.proc p with size := newsize }) ?_ rfl hl ?_ rfl hx
      · exact h.counted.of_eq rfl rfl rfl
      · exact hs
    · obtain ⟨m', rfl⟩ := mfreeCore_eq hx
      simp only [setProc, Function.update_self, Function.update_idem]
      refine h.same (h.counted.of_eq rfl rfl rfl) rfl rfl ?_ (hlive rfl)
      exact (inCore_of_load hl).trans (inCore_of_load hl).symm

theorem Inv.exit (h : Inv s) (hl : (s.proc p).load = true)
    (hx : s.exit p = some s') : Inv s' := by
  unfold Texts.exit at hx
  obtain ⟨s1, hf, hx⟩ := Option.bind_eq_some_iff.mp hx
  obtain ⟨h1, hpr⟩ := h.xfree hl hf
  obtain ⟨s2, hm, hx⟩ := Option.bind_eq_some_iff.mp hx
  obtain ⟨m, rfl⟩ := mfreeCore_eq hm
  cases hx
  have ht : (s1.proc p).textp = none := by rw [hpr, Function.update_self]
  refine h1.same (h1.counted.of_eq rfl rfl rfl) rfl rfl ?_ (fun _ => ht)
  rw [inCore_of_none ht]
  exact inCore_of_none ht

theorem Inv.swapin (h : Inv s) (hl : (s.proc p).load = false) (hs : (s.proc p).stat = .live)
    (hx : s.swapin p = some s') : Inv s' := by
  rcases swapin_counted h.counted (textp_bounds s p) hx with ⟨hc, hpr⟩ | ⟨hc, a, hpr⟩
  · exact h.same_proc hc hpr
  · refine ⟨?_, idle_update h.idle hpr (fun hne => absurd hs hne)⟩
    rw [sharers_same hpr rfl, loaded_enter hpr hl rfl rfl]
    exact hc

/-- The number of users once `newproc` has counted one more. -/
def more (N : Fin ntext → Nat) : Option (Fin ntext) → Fin ntext → Nat
  | none => N
  | some k => Function.update N k (N k + 1)

theorem shareText_counted {o : Option (Fin ntext)} (h : Counted s N M)
    (ho : ∀ k, o = some k → 0 < N k ∧ 0 < M k) :
    Counted (s.shareText o) (more N o) (enter M o) ∧ (s.shareText o).proc = s.proc := by
  cases o with
  | none => exact ⟨h, rfl⟩
  | some k =>
    obtain ⟨hk, hMk⟩ := ho k rfl
    obtain ⟨ip, hi⟩ := (h k).used hk
    obtain ⟨hn, hm, hc, hs⟩ := (slotOk_some hi).mp (h k)
    refine ⟨h.slot (onlySlot_setText _) ?_, rfl⟩
    simp only [shareText, setText, Function.update_self]
    refine (slotOk_some (by exact hi)).mpr
      ⟨by rw [hn, ofNat8_succ], by rw [hm, ofNat8_succ], ?_, hs⟩
    rw [hc, if_neg (by omega), if_neg (by omega)]

theorem sharers_more (hpr : s'.proc = Function.update s.proc p q) (hp : (s.proc p).textp = none) :
    s'.sharers = more s.sharers q.textp := by
  cases ht : q.textp with
  | none => exact sharers_same hpr (ht.trans hp.symm)
  | some k => exact sharers_in hpr hp ht

theorem loaded_new (hpr : s'.proc = Function.update s.proc p q) (hp : (s.proc p).textp = none)
    (hq : q.load = true) : s'.loaded = enter s.loaded q.textp := by
  cases ht : q.textp with
  | none => exact loaded_same hpr (by rw [inCore_of_none hp, inCore_of_none ht])
  | some k => exact loaded_in hpr (inCore_of_none hp) (by rw [inCore_of_load hq, ht])

theorem leave_enter (M : Fin ntext → Nat) (o : Option (Fin ntext)) : leave (enter M o) o = M := by
  cases o with
  | none => rfl
  | some k =>
    dsimp only [leave, enter]
    rw [Function.update_self, Nat.add_sub_cancel, Function.update_idem, Function.update_eq_self]

/-- `xswap` of a child, which `newproc` makes in the swap space. -/
theorem Inv.child {r : Fin nproc} {t : Texts} {o : Option (Fin ntext)} {ff : Bool}
    {os : BitVec 16} (h : Inv s) (hr : (s.proc r).textp = none)
    (hc : Counted t (more s.sharers o) (enter s.loaded o))
    (hpr : t.proc = Function.update s.proc r q) (hq : q.textp = o) (hs : q.stat = .live)
    (hx : t.xswap r ff os = some s') : Inv s' := by
  have hq₀ : t.proc r = q := by rw [hpr, Function.update_self]
  have hb : ∀ k, (t.proc r).textp = some k →
      0 < more s.sharers o k ∧ enter s.loaded o k < 256 := by
    intro k hk
    rw [hq₀, hq] at hk
    subst hk
    dsimp only [more, enter]
    rw [Function.update_self, Function.update_self]
    have := s.loaded_le_sharers k
    have : s.sharers k ≤ 150 := s.sharers_le k
    exact ⟨by omega, by omega⟩
  obtain ⟨hc', a, hpr'⟩ := xswap_counted hc hb hx
  rw [hq₀, hq, leave_enter] at hc'
  rw [hq₀, hpr, Function.update_idem] at hpr'
  refine ⟨?_, idle_update h.idle hpr' (fun hne => absurd hs hne)⟩
  rw [sharers_more hpr' hr,
    loaded_same hpr' (by rw [inCore_of_none hr]; exact inCore_of_not_load rfl)]
  dsimp only
  rw [hq]
  exact hc'

theorem Inv.newproc {r : Fin nproc} (h : Inv s) (hl : (s.proc p).load = true)
    (hs : (s.proc p).stat = .live) (hr : (s.proc r).stat = .free)
    (hx : s.newproc p r = some s') : Inv s' := by
  have hrt : (s.proc r).textp = none := h.idle r (by rw [hr]; decide)
  have hpr : p ≠ r := by
    rintro rfl
    rw [hs] at hr
    cases hr
  unfold Texts.newproc at hx
  simp only [setProc, Function.update_of_ne hpr] at hx
  obtain ⟨⟨a, s1⟩, hma, hx⟩ := Option.bind_eq_some_iff.mp hx
  obtain ⟨m, rfl⟩ := mallocCore_eq hma
  -- The child counts as a user in core until `xswap` takes it out.
  obtain ⟨hc, hp1⟩ := shareText_counted (o := (s.proc p).textp)
    (s := s.setProc r
      { s.proc r with
        stat := .live
        load := true
        textp := (s.proc p).textp
        size := (s.proc p).size
        cont := none })
    (h.counted.of_eq rfl rfl rfl)
    (fun k hk => ⟨sharers_pos hk, loaded_pos (by rw [inCore_of_load hl, hk])⟩)
  unfold setProc at hc hp1
  dsimp only at hx hp1
  rw [hp1] at hx
  split at hx
  · -- Without core the child is made in the swap space.
    simp only [Function.update_self, Function.update_idem] at hx
    refine h.child (o := (s.proc p).textp) hrt ?_ rfl ?_ ?_ hx
    · exact hc.of_eq rfl rfl rfl
    · rfl
    · rfl
  · simp only [Function.update_self, Function.update_idem] at hx
    have hs' := (Option.some.inj hx).symm
    have hpr' := congrArg Texts.proc hs'
    refine ⟨?_, idle_update h.idle hpr' (fun hne => absurd rfl hne)⟩
    rw [sharers_more hpr' hrt, loaded_new hpr' hrt rfl, hs']
    exact hc.of_eq rfl rfl rfl

theorem step_inv {a : Act} (h : Inv s) (hstep : s.step a = .ok (s', ())) : Inv s' := by
  unfold step at hstep
  split at hstep
  · rename_i hen
    split at hstep
    · cases hstep
    rename_i s₁ hx
    cases hstep
    cases a with
    | xalloc p ip tsize =>
      obtain ⟨⟨hs, hl, -⟩, ht⟩ := hen
      rcases xalloc_counted h.counted s.loaded_le_sharers s.sharers_lt hl hx with rfl | ⟨k, ha⟩
      · exact h
      · exact h.attached ht hs ha
    | resume p =>
      have hq : ∀ {t : Texts}, t.proc = s.proc → Counted t s.sharers s.loaded →
          Inv (t.setProc p { s.proc p with cont := none }) := fun hp hc =>
        h.same (q := { s.proc p with cont := none }) (setProc_counted hc _)
          (by unfold setProc; rw [hp]) rfl rfl
          (fun hne => absurd hen.1 hne)
      dsimp only [act] at hx
      unfold resume at hx
      split at hx
      · cases hx
      · rename_i k hk
        cases hx
        exact hq rfl (xunlock_counted h.counted k)
      · rename_i k hk
        cases hx
        exact hq rfl (readText_counted h.counted k)
    | newproc p r => exact h.newproc hen.1.2.1 hen.1.1 hen.2 hx
    | xfree p => exact (h.xfree hen.2.1 hx).1
    | exit p => exact h.exit hen.2.1 hx
    | wait p =>
      cases hx
      have ht : (s.proc p).textp = none := h.idle p (by rw [hen]; decide)
      refine h.same (setProc_counted h.counted _) rfl rfl ?_ (fun _ => ht)
      rw [inCore_of_none ht]
      exact inCore_of_none ht
    | expand p n => exact h.expand hen.2.1 hen.1 hx
    | swapout p =>
      refine h.xswap (q := { s.proc p with load := false }) ?_ rfl hen.2 ?_ rfl hx
      · exact setProc_counted h.counted _
      · exact hen.1
    | swapin p => exact h.swapin hen.2 hen.1 hx
    | xuntext k =>
      obtain ⟨hc, hp⟩ := xuntext_counted h.counted (s.loaded_le_sharers k) (s.sharers_lt k) hen hx
      exact h.same_proc hc hp
    | chmod ip b =>
      cases hx
      exact h.same_proc (h.counted.of_eq rfl rfl rfl) rfl
  · cases hstep

end Step

/-! ## Runs -/

/-- The accounts of a slot in use: the two counts, as a signed `char`, and what is held. -/
structure SlotAccounted (s : Texts) (k : Fin ntext) : Prop where
  count : (s.text k).xCount.toInt = s.sharers k
  ccount : (s.text k).xCcount.toInt = s.loaded k
  core : Loan.held (s.coreLog k) = some (if 0 < (s.text k).xCcount.toInt then
    some ((s.text k).xCaddr, (s.text k).xSize) else none)
  swap : Loan.held (s.swapLog k) = some (some ((s.text k).xDaddr, ctod (s.text k).xSize))

structure Accounted (s : Texts) : Prop where
  used : ∀ k, s.Used k → s.SlotAccounted k
  /-- A slot that is not in use holds neither core nor swap space. -/
  unused : ∀ k, ¬s.Used k →
    Loan.held (s.coreLog k) = some none ∧ Loan.held (s.swapLog k) = some none
  /-- A region is freed once each time that it is obtained, but for the one that is held. -/
  coreOnce : ∀ k r, (s.coreLog k).count (.got r) = (s.coreLog k).count (.freed r) +
    if Loan.held (s.coreLog k) = some (some r) then 1 else 0
  swapOnce : ∀ k r, (s.swapLog k).count (.got r) = (s.swapLog k).count (.freed r) +
    if Loan.held (s.swapLog k) = some (some r) then 1 else 0

/-- No text is attached, and nothing is held for one. -/
structure Boot (s : Texts) : Prop where
  unused : ∀ k, ¬s.Used k
  textp : ∀ p, (s.proc p).textp = none
  coreLog : ∀ k, s.coreLog k = []
  swapLog : ∀ k, s.swapLog k = []

theorem toInt_ofNat8 {n : Nat} (hn : n < 256) :
    (BitVec.ofNat 8 n).toInt = (n : Int) ↔ n ≤ 127 := by
  rw [BitVec.toInt_eq_toNat_cond, BitVec.toNat_ofNat, Nat.mod_eq_of_lt (by simpa using hn)]
  split <;> omega

theorem boot_inv (h : Boot s) : Inv s := by
  refine ⟨fun k => ?_, fun p _ => h.textp p⟩
  have hi : (s.text k).xIptr = none := by
    have := h.unused k
    unfold Used at this
    simpa using this
  rw [h.coreLog, h.swapLog]
  refine (slotOk_none hi).mpr ⟨?_, rfl, rfl⟩
  exact tally_eq_zero (f := fun p => (s.proc p).textp) fun p => by simp [h.textp p]

theorem Inv.held_isSome (h : Inv s) (k : Fin ntext) :
    (∃ o, Loan.held (s.coreLog k) = some o) ∧ ∃ o, Loan.held (s.swapLog k) = some o := by
  have hk := h.counted k
  cases hi : (s.text k).xIptr with
  | none => exact ⟨⟨_, ((slotOk_none hi).mp hk).2.1⟩, ⟨_, ((slotOk_none hi).mp hk).2.2⟩⟩
  | some ip =>
    obtain ⟨-, -, hc, hs⟩ := (slotOk_some hi).mp hk
    exact ⟨⟨_, hc⟩, ⟨_, hs⟩⟩

theorem count_of_held {l : List (Loan Region)} (h : ∃ o, Loan.held l = some o) (r : Region) :
    l.count (.got r) = l.count (.freed r) + if Loan.held l = some (some r) then 1 else 0 := by
  obtain ⟨o, ho⟩ := h
  rw [Loan.count_got ho r, ho]
  simp only [Option.some.injEq]

theorem Inv.accounted_iff (h : Inv s) :
    s.Accounted ↔ ∀ k, s.Used k → s.sharers k ≤ 127 := by
  constructor
  · intro ha k hk
    obtain ⟨ip, hi⟩ := Option.isSome_iff_exists.mp hk
    have hc := (ha.used k hk).count
    rw [((slotOk_some hi).mp (h.counted k)).1] at hc
    exact (toInt_ofNat8 (s.sharers_lt k)).mp hc
  · intro hn
    refine ⟨fun k hk => ?_, fun k hk => ?_, fun k => count_of_held (h.held_isSome k).1,
      fun k => count_of_held (h.held_isSome k).2⟩
    · obtain ⟨ip, hi⟩ := Option.isSome_iff_exists.mp hk
      obtain ⟨hcount, hccount, hcore, hswap⟩ := (slotOk_some hi).mp (h.counted k)
      have hle := s.loaded_le_sharers k
      have hs := hn k hk
      have hcc : (s.text k).xCcount.toInt = s.loaded k := by
        rw [hccount]
        exact (toInt_ofNat8 (s.loaded_lt k)).mpr (by omega)
      refine ⟨?_, hcc, ?_, hswap⟩
      · rw [hcount]
        exact (toInt_ofNat8 (s.sharers_lt k)).mpr hs
      · rw [hcore, hcc]
        by_cases h0 : s.loaded k = 0
        · rw [if_pos h0, if_neg (by omega)]
        · rw [if_neg h0, if_pos (by omega)]
    · have hi : (s.text k).xIptr = none := by
        unfold Used at hk
        simpa using hk
      exact ((slotOk_none hi).mp (h.counted k)).2

/-- Wherever a run of operations ends, the accounts are right just if no text has more than 127
users. -/
theorem texts_accounted {s₀ : Texts} {acts : List Act} {outs : List Unit} (h₀ : Boot s₀)
    (hrun : runs step s₀ acts = .ok (s, outs)) :
    s.Accounted ↔ ∀ k, s.Used k → s.sharers k ≤ 127 :=
  (runs_inv (fun _ _ _ _ h hstep => step_inv h hstep) (boot_inv h₀) hrun).accounted_iff

/-- A system with one process, and nothing in the text table. -/
def oneProc : Texts :=
  { text := fun _ => ⟨0, 0, 0, none, 0, 0, false, false, false, false⟩
    proc := fun p => ⟨if p = 0 then .live else .free, none, p = 0, 1, 64, none⟩
    coremap := [⟨1000, 65⟩, ⟨0, 0⟩, ⟨0, 0⟩]
    swapmap := [⟨1000, 1⟩, ⟨0, 0⟩, ⟨0, 0⟩]
    isvtx := fun _ => false
    itext := fun _ => false
    iCount := fun _ => 0
    coreLog := fun _ => []
    swapLog := fun _ => [] }

theorem oneProc_boot : Boot oneProc :=
  ⟨fun _ => Bool.false_ne_true, fun _ => rfl, fun _ => rfl, fun _ => rfl⟩

/-- `exec` of a program, two forks, one child swapped out and in again, the other ended, and a
text that is read anew. -/
def forkExit : List Act :=
  [.xalloc 0 7 100, .newproc 0 1, .newproc 0 2, .swapout 1, .exit 2, .wait 2, .xfree 0, .swapin 1,
    .xalloc 0 8 64, .exit 1, .wait 1]

theorem texts_accounted_forkExit : ∃ s outs, runs step oneProc forkExit = .ok (s, outs) ∧
    s.Used 1 ∧ ¬s.Used 0 ∧ (s.Accounted ↔ ∀ k, s.Used k → s.sharers k ≤ 127) := by
  have h : (match runs step oneProc forkExit with
      | .ok (s, _) => decide ((s.text 1).xIptr.isSome ∧ ¬(s.text 0).xIptr.isSome)
      | .error _ => false) = true := by decide +kernel
  split at h
  · rename_i s outs hrun
    obtain ⟨h1, h0⟩ := of_decide_eq_true h
    exact ⟨s, outs, hrun, h1, h0, texts_accounted oneProc_boot hrun⟩
  · cases h

/-- `exec` of a program, and `n` forks. -/
def forks (n : Nat) : List Act :=
  .xalloc 0 7 100 :: (List.range n).map fun i => .newproc 0 (Fin.ofNat nproc (i + 1))

/-- With 128 processes that share a text, its count is -128. -/
theorem forks_overflow : ∃ s outs, runs step oneProc (forks 127) = .ok (s, outs) ∧
    (s.text 0).xCount.toInt = -128 ∧ ¬s.Accounted := by
  have h : (match runs step oneProc (forks 127) with
      | .ok (s, _) => decide ((s.text 0).xIptr.isSome ∧ (s.text 0).xCount.toInt = -128)
      | .error _ => false) = true := by decide +kernel
  split at h
  · rename_i s outs hrun
    obtain ⟨hu, hc⟩ := of_decide_eq_true h
    refine ⟨s, outs, hrun, hc, fun ha => ?_⟩
    have := (ha.used 0 hu).count
    omega
  · cases h

end Texts

end Venix.Kernel
