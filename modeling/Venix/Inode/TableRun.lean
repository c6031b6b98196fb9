/-
  The table of the inodes over whole runs.

  Proved: while a process puts back only an inode that nobody else has locked and no inode is held
  more than 127 times, every inode is in one slot, its count is the number of its holders, it is
  locked for whoever got it locked and for nobody else, and only a slot that nobody holds is given
  to another inode. Without that, `iput` unlocks an inode that another process has locked.
-/
import Venix.Inode.Table
import Venix.Lib.Run

set_option linter.unusedSectionVars false

namespace Venix.Inode

open Venix.Lib

variable {n : Nat} {Dev P D : Type} [DecidableEq Dev] [DecidableEq P]

/-- How often an inode is held; the mount of a device holds it too. -/
def Table.held (s : Table n Dev P D) (ip : Fin n) : Nat :=
  (s.refs ip).length + (s.mnt ip).isSome.toNat

/-! ## The invariant -/

structure SlotOk (s : Table n Dev P D) (ip : Fin n) : Prop where
  count : (s.slot ip).count.toInt = s.held ip
  free : s.held ip = 0 → (s.slot ip).number = none
  lock : (s.slot ip).lock = (s.owner ip).isSome
  owner : ∀ p, s.owner ip = some p → p ∈ s.refs ip
  mount : (s.slot ip).mount = (s.mnt ip).isSome

def PcOk (s : Table n Dev P D) (p : P) : Prop :=
  match s.pc p with
  | .idle => True
  | .iget _ _ => True
  | .iread ip => s.owner ip = some p
  | .plock ip => p ∈ s.refs ip
  | .iupdat ip => p ∈ s.refs ip
  | .itrunc ip => s.owner ip = some p ∧ s.held ip = 1
  | .iput ip => s.owner ip = some p ∧ s.held ip = 1

structure Inv (s : Table n Dev P D) : Prop where
  slots : ∀ ip, SlotOk s ip
  unique : ∀ ip ip' k, (s.slot ip).number = some k → (s.slot ip').number = some k →
    (s.slot ip).dev = (s.slot ip').dev → ip = ip'
  pcs : ∀ p, PcOk s p

/-- A step of `p` that changes one slot. -/
theorem Inv.local {s s' : Table n Dev P D} (h : Inv s) (p : P) (ip : Fin n)
    (hmnt : s'.mnt = s.mnt)
    (hother : ∀ j, j ≠ ip → s'.slot j = s.slot j ∧ s'.owner j = s.owner j ∧ s'.refs j = s.refs j)
    (hpcs : ∀ q, q ≠ p → s'.pc q = s.pc q)
    (hkeep : ∀ q, q ≠ p → q ∈ s.refs ip → q ∈ s'.refs ip)
    (hown : ∀ q, q ≠ p → s.owner ip = some q →
      s'.owner ip = some q ∧ s'.refs ip = s.refs ip)
    (hslot : SlotOk s' ip)
    (hunique : ∀ j k, j ≠ ip → (s'.slot ip).number = some k → (s.slot j).number = some k →
      (s'.slot ip).dev ≠ (s.slot j).dev)
    (hpc : PcOk s' p) : Inv s' := by
  have hheld : ∀ j, s'.refs j = s.refs j → s'.held j = s.held j := by
    intro j hj
    unfold Table.held
    rw [hj, hmnt]
  refine ⟨fun j => ?_, fun j j' k h1 h2 h3 => ?_, fun q => ?_⟩
  · by_cases e : j = ip
    · rw [e]
      exact hslot
    · obtain ⟨h1, h2, h3⟩ := hother j e
      obtain ⟨g1, g2, g3, g4, g5⟩ := h.slots j
      refine ⟨?_, ?_, ?_, ?_, ?_⟩
      · rw [h1, hheld j h3]
        exact g1
      · rw [h1, hheld j h3]
        exact g2
      · rw [h1, h2]
        exact g3
      · rw [h2, h3]
        exact g4
      · rw [h1, hmnt]
        exact g5
  · by_cases e : j = ip
    · by_cases e' : j' = ip
      · rw [e, e']
      · subst e
        rw [(hother j' e').1] at h2 h3
        exact absurd h3 (hunique j' k e' h1 h2)
    · rw [(hother j e).1] at h1 h3
      by_cases e' : j' = ip
      · subst e'
        exact absurd h3.symm (hunique j k e h2 h1)
      · rw [(hother j' e').1] at h2 h3
        exact h.unique j j' k h1 h2 h3
  · by_cases e : q = p
    · rw [e]
      exact hpc
    · have hq := h.pcs q
      have hown' : ∀ j, s.owner j = some q → s'.owner j = some q ∧ s'.refs j = s.refs j := by
        intro j hj
        by_cases ej : j = ip
        · subst ej
          exact hown q e hj
        · rw [(hother j ej).2.1, (hother j ej).2.2]
          exact ⟨hj, rfl⟩
      have hkeep' : ∀ j, q ∈ s.refs j → q ∈ s'.refs j := by
        intro j hj
        by_cases ej : j = ip
        · subst ej
          exact hkeep q e hj
        · rw [(hother j ej).2.2]
          exact hj
      unfold PcOk at hq ⊢
      rw [hpcs q e]
      cases hpcq : s.pc q with
      | idle => trivial
      | iget dev ino => trivial
      | iread j =>
        rw [hpcq] at hq
        exact (hown' j hq).1
      | plock j =>
        rw [hpcq] at hq
        exact hkeep' j hq
      | iupdat j =>
        rw [hpcq] at hq
        exact hkeep' j hq
      | itrunc j =>
        rw [hpcq] at hq
        obtain ⟨h1, h2⟩ := hown' j hq.1
        exact ⟨h1, (hheld j h2).trans hq.2⟩
      | iput j =>
        rw [hpcq] at hq
        obtain ⟨h1, h2⟩ := hown' j hq.1
        exact ⟨h1, (hheld j h2).trans hq.2⟩

/-- Nothing that the invariant is about is different in a slot. -/
structure Slot.Same (x y : Slot Dev D) : Prop where
  dev : x.dev = y.dev
  number : x.number = y.number
  lock : x.lock = y.lock
  mount : x.mount = y.mount
  count : x.count = y.count

theorem Slot.Same.refl (x : Slot Dev D) : Slot.Same x x := ⟨rfl, rfl, rfl, rfl, rfl⟩

/-- A step of `p` that changes at most `IWANT`, `IUPD` and the contents of the inodes. -/
theorem Inv.quiet {s s' : Table n Dev P D} (h : Inv s) (p : P)
    (hslot : ∀ j, Slot.Same (s'.slot j) (s.slot j)) (hmnt : s'.mnt = s.mnt)
    (howner : s'.owner = s.owner) (hrefs : s'.refs = s.refs)
    (hpcs : ∀ q, q ≠ p → s'.pc q = s.pc q) (hpc : PcOk s' p) : Inv s' := by
  have hheld : s'.held = s.held := by
    funext ip
    unfold Table.held
    rw [hrefs, hmnt]
  refine ⟨fun ip => ?_, fun ip ip' k => ?_, fun q => ?_⟩
  · obtain ⟨g1, g2, g3, g4, g5⟩ := h.slots ip
    constructor
    · rw [(hslot ip).count, hheld]
      exact g1
    · rw [(hslot ip).number, hheld]
      exact g2
    · rw [(hslot ip).lock, howner]
      exact g3
    · rw [howner, hrefs]
      exact g4
    · rw [(hslot ip).mount, hmnt]
      exact g5
  · rw [(hslot ip).number, (hslot ip').number, (hslot ip).dev, (hslot ip').dev]
    exact h.unique ip ip' k
  · by_cases e : q = p
    · rw [e]
      exact hpc
    · have := h.pcs q
      unfold PcOk at this ⊢
      rw [hpcs q e, howner, hrefs, hheld]
      exact this

theorem setSlot_same {s : Table n Dev P D} {ip : Fin n} {x : Slot Dev D}
    (hx : Slot.Same x (s.slot ip)) (j : Fin n) :
    Slot.Same ((s.setSlot ip x).slot j) (s.slot j) := by
  unfold Table.setSlot
  dsimp only
  by_cases e : j = ip
  · subst e
    rw [Function.update_self]
    exact hx
  · rw [Function.update_of_ne e]
    exact Slot.Same.refl _

/-! ## The routines -/

section Ops

variable {s : Table n Dev P D} {p : P} {ip : Fin n}

theorem Inv.setPc (h : Inv s) (pc : Pc n Dev) (hpc : PcOk (s.setPc p pc) p) :
    Inv (s.setPc p pc) :=
  h.quiet p (fun _ => Slot.Same.refl _) rfl rfl rfl (fun _ hq => Function.update_of_ne hq _ _) hpc

/-- `p` goes to sleep for an inode. -/
theorem Inv.want (h : Inv s) : Inv ((s.setSlot ip { s.slot ip with want := true }).sleep p ip) := by
  refine h.quiet p (fun j => setSlot_same ?_ j) rfl rfl rfl (fun _ _ => rfl) (h.pcs p)
  exact ⟨rfl, rfl, rfl, rfl, rfl⟩

theorem Inv.setData (h : Inv s) (p : P) (ip : Fin n) (d : D) (upd : Bool) :
    Inv (s.setSlot ip { s.slot ip with data := d, upd := upd }) := by
  refine h.quiet p (fun j => setSlot_same ?_ j) rfl rfl rfl (fun _ _ => rfl) (h.pcs p)
  exact ⟨rfl, rfl, rfl, rfl, rfl⟩

theorem writeInode_inv (h : Inv s) (p : P) (ip : Fin n) : Inv (s.writeInode ip) := by
  unfold Table.writeInode
  split
  · exact h
  · refine h.quiet p (fun j => ?_) rfl rfl rfl (fun _ _ => rfl) (h.pcs p)
    have hx : Slot.Same { s.slot ip with upd := false } (s.slot ip) := ⟨rfl, rfl, rfl, rfl, rfl⟩
    exact setSlot_same hx j

theorem iexpand_inv (h : Inv s) (p : P) (ip : Fin n) : Inv (s.iexpand ip) := by
  unfold Table.iexpand
  split
  · exact h
  · exact h.setData p ip _ _

/-- A number of holders fits in a `char`. -/
theorem count_add {c : Int8} {k : Nat} (h : c.toInt = k) (hk : k < 127) :
    (c + 1).toInt = ((k + 1 : Nat) : Int) := by
  have h1 : (1 : Int8).toInt = 1 := rfl
  rw [Int8.toInt_add, h, h1, Int.bmod_eq_of_le] <;> omega

theorem count_sub {c : Int8} {k : Nat} (h : c.toInt = ((k + 1 : Nat) : Int)) :
    (c - 1).toInt = (k : Int) := by
  have h1 : (1 : Int8).toInt = 1 := rfl
  have := c.toInt_lt
  rw [Int8.toInt_sub, h, h1, Int.bmod_eq_of_le] <;> omega

theorem prele_spec (s : Table n Dev P D) (ip : Fin n) :
    ∃ x, s.prele ip =
      { s with
        slot := Function.update s.slot ip { s.slot ip with lock := false, want := false }
        asleep := x } := by
  by_cases hw : (s.slot ip).want = true
  · exact ⟨(s.wakeup ip).asleep, by simp [Table.prele, Table.setSlot, Table.wakeup, hw]⟩
  · rw [Bool.not_eq_true] at hw
    exact ⟨s.asleep, by simp [Table.prele, Table.setSlot, hw]⟩

/-- A slot that keeps its inode is not in the way of the others. -/
theorem Inv.apart (h : Inv s) {x : Slot Dev D} (hdev : x.dev = (s.slot ip).dev)
    (hnum : x.number = (s.slot ip).number) (j : Fin n) (k : Nat) (hj : j ≠ ip)
    (h1 : x.number = some k) (h2 : (s.slot j).number = some k) : x.dev ≠ (s.slot j).dev := by
  intro hcon
  rw [hnum] at h1
  rw [hdev] at hcon
  exact hj (h.unique ip j k h1 h2 hcon).symm

theorem pcOk_of_idle (h : s.pc p = .idle) : PcOk s p := by
  unfold PcOk
  rw [h]
  trivial

theorem prele_inv (h : Inv s) (hidle : s.pc p = .idle) (hown : s.owner ip = some p) :
    Inv ((s.prele ip).unlockedBy p ip) := by
  obtain ⟨x, hx⟩ := prele_spec s ip
  have hok := h.slots ip
  rw [hx]
  refine h.local p ip rfl (fun j hj => ?_) (fun _ _ => rfl) (fun _ _ hq => hq) (fun q hq hq' => ?_)
    ?_ ?_ (pcOk_of_idle hidle)
  · exact ⟨Function.update_of_ne hj _ _, Function.update_of_ne hj _ _, rfl⟩
  · rw [hown] at hq'
    cases hq'
    exact absurd rfl hq
  · refine ⟨?_, ?_, ?_, ?_, ?_⟩ <;> simp only [Table.unlockedBy, Function.update_self, hown]
    · exact hok.count
    · exact hok.free
    · rfl
    · simp
    · exact hok.mount
  · simp only [Table.unlockedBy, Function.update_self]
    exact h.apart rfl rfl

theorem plockTurn_inv (h : Inv s) (href : p ∈ s.refs ip) : Inv (s.plockTurn p ip) := by
  unfold Table.plockTurn
  split
  · exact h.want
  · rename_i hlock
    have hok := h.slots ip
    have hnone : s.owner ip = none := by
      have := hok.lock
      rw [Bool.not_eq_true] at hlock
      rw [hlock] at this
      simpa using this.symm
    refine h.local p ip rfl (fun j hj => ?_) (fun q hq => Function.update_of_ne hq _ _)
      (fun _ _ hq => hq) (fun q hq hq' => ?_) ?_ ?_ (pcOk_of_idle (Function.update_self _ _ _))
    · exact ⟨Function.update_of_ne hj _ _, Function.update_of_ne hj _ _, rfl⟩
    · rw [hnone] at hq'
      cases hq'
    · refine ⟨?_, ?_, ?_, ?_, ?_⟩ <;>
        simp only [Table.setSlot, Table.lockedBy, Table.setPc, Function.update_self]
      · exact hok.count
      · exact hok.free
      · rfl
      · simp [href]
      · exact hok.mount
    · simp only [Table.setSlot, Table.lockedBy, Table.setPc, Function.update_self]
      exact h.apart rfl rfl

/-! ## `iput` -/

/-- What the end of `iput` does. -/
theorem lessOne_spec (s : Table n Dev P D) (p : P) (ip : Fin n) :
    ∃ x, s.lessOne p ip =
      { s with
        slot := Function.update s.slot ip
          { s.slot ip with lock := false, want := false, count := (s.slot ip).count - 1 }
        owner := (s.unlockedBy p ip).owner
        refs := Function.update s.refs ip ((s.refs ip).erase p)
        pc := Function.update s.pc p .idle
        asleep := x } := by
  obtain ⟨x, hx⟩ := prele_spec (s.setSlot ip { s.slot ip with count := (s.slot ip).count - 1 }) ip
  refine ⟨x, ?_⟩
  unfold Table.lessOne
  simp only [hx]
  simp [Table.setSlot, Table.unlockedBy, Table.dropRef, Table.setPc]
  rfl

/-- What it does for the last reference. -/
theorem iputEnd_spec (s : Table n Dev P D) (p : P) (ip : Fin n) :
    ∃ x, s.iputEnd p ip =
      { s with
        slot := Function.update s.slot ip
          { s.slot ip with
            number := none
            lock := false
            want := false
            mount := false
            upd := false
            count := (s.slot ip).count - 1 }
        owner := (s.unlockedBy p ip).owner
        refs := Function.update s.refs ip ((s.refs ip).erase p)
        pc := Function.update s.pc p .idle
        asleep := x } := by
  obtain ⟨x, hx⟩ := prele_spec s ip
  obtain ⟨y, hy⟩ := lessOne_spec ((s.prele ip).setSlot ip
    { (s.prele ip).slot ip with
      lock := false, want := false, mount := false, upd := false, number := none }) p ip
  refine ⟨y, ?_⟩
  unfold Table.iputEnd
  dsimp only
  refine hy.trans ?_
  rw [hx]
  simp [Table.setSlot, Table.unlockedBy]

theorem lessOne_inv (h : Inv s) (href : p ∈ s.refs ip)
    (hown : s.owner ip = none ∨ s.owner ip = some p) (hmany : s.held ip ≠ 1) :
    Inv (s.lessOne p ip) := by
  obtain ⟨x, hx⟩ := lessOne_spec s p ip
  have hok := h.slots ip
  have hlen : (s.refs ip).length = ((s.refs ip).erase p).length + 1 := by
    rw [List.length_erase_of_mem href]
    have := List.length_pos_of_mem href
    omega
  have hnone : (s.unlockedBy p ip).owner = Function.update s.owner ip none := by
    unfold Table.unlockedBy
    rcases hown with h1 | h1 <;> simp [h1]
  rw [hx, hnone]
  refine h.local p ip rfl (fun j hj => ?_) (fun q hq => Function.update_of_ne hq _ _)
    (fun q hq hq' => ?_) (fun q hq hq' => ?_) ?_ ?_ (pcOk_of_idle (Function.update_self _ _ _))
  · exact ⟨Function.update_of_ne hj _ _, Function.update_of_ne hj _ _, Function.update_of_ne hj _ _⟩
  · dsimp only
    rw [Function.update_self]
    exact (List.mem_erase_of_ne hq).mpr hq'
  · rcases hown with h1 | h1
    · rw [h1] at hq'
      cases hq'
    · rw [h1] at hq'
      cases hq'
      exact absurd rfl hq
  · have hcount := hok.count
    unfold Table.held at hcount hmany
    refine ⟨?_, ?_, ?_, ?_, ?_⟩ <;> simp only [Function.update_self, Table.held]
    · rw [hlen] at hcount
      refine count_sub ?_
      rw [hcount]
      omega
    · intro h0
      omega
    · rfl
    · simp
    · exact hok.mount
  · simp only [Function.update_self]
    exact h.apart rfl rfl

/-- The last reference goes: the slot is free then. -/
theorem iputEnd_inv (h : Inv s) (hown : s.owner ip = some p) (hone : s.held ip = 1) :
    Inv (s.iputEnd p ip) := by
  have hok := h.slots ip
  have href := hok.owner p hown
  have hlen := List.length_pos_of_mem href
  have hmnt : (s.mnt ip).isSome = false := by
    unfold Table.held at hone
    cases hm : (s.mnt ip).isSome with
    | false => rfl
    | true =>
      rw [hm, Bool.toNat_true] at hone
      omega
  have hrefs : s.refs ip = [p] := by
    unfold Table.held at hone
    rw [hmnt] at hone
    obtain ⟨q, hq⟩ := List.length_eq_one_iff.mp (by simpa using hone)
    rw [hq] at href
    rw [hq, List.mem_singleton.mp href]
  obtain ⟨x, hx⟩ := iputEnd_spec s p ip
  rw [hx]
  refine h.local p ip rfl (fun j hj => ?_) (fun q hq => Function.update_of_ne hq _ _)
    (fun q hq hq' => ?_) (fun q hq hq' => ?_) ?_ ?_ (pcOk_of_idle (Function.update_self _ _ _))
  · simp [Table.unlockedBy, Function.update_of_ne hj]
  · rw [hrefs, List.mem_singleton] at hq'
    exact absurd hq' hq
  · rw [hown] at hq'
    cases hq'
    exact absurd rfl hq
  · have hcount := hok.count
    rw [hone] at hcount
    refine ⟨?_, ?_, ?_, ?_, ?_⟩ <;>
      simp [Table.unlockedBy, Table.held, hrefs, hown, hmnt]
    simpa using count_sub (k := 0) hcount
  · simp

theorem iputUpdat_inv (h : Inv s) (vol : Vol Dev D) (hown : s.owner ip = some p)
    (hone : s.held ip = 1) : Inv (s.iputUpdat vol p ip) := by
  unfold Table.iputUpdat
  split
  · refine h.setPc (.iput ip) ?_
    unfold PcOk Table.setPc
    dsimp only
    rw [Function.update_self]
    exact ⟨hown, hone⟩
  · exact iputEnd_inv h hown hone

theorem iput_inv (h : Inv s) (vol : Vol Dev D) (hidle : s.pc p = .idle) (href : p ∈ s.refs ip)
    (hown : s.owner ip = none ∨ s.owner ip = some p) : Inv (s.iput vol p ip) := by
  have hok := h.slots ip
  have h1 : (1 : Int8).toInt = 1 := rfl
  unfold Table.iput
  split
  · rename_i hc
    have hone : s.held ip = 1 := by
      have := hok.count
      rw [hc, h1] at this
      omega
    have hlock : Inv ((s.setSlot ip { s.slot ip with lock := true }).lockedBy p ip) := by
      refine h.local p ip rfl (fun j hj => ?_) (fun _ _ => rfl) (fun _ _ hq => hq)
        (fun q hq hq' => ?_) ?_ ?_ (pcOk_of_idle hidle)
      · exact ⟨Function.update_of_ne hj _ _, Function.update_of_ne hj _ _, rfl⟩
      · rcases hown with h2 | h2
        · rw [h2] at hq'
          cases hq'
        · rw [h2] at hq'
          cases hq'
          exact absurd rfl hq
      · refine ⟨?_, ?_, ?_, ?_, ?_⟩ <;>
          simp only [Table.setSlot, Table.lockedBy, Function.update_self]
        · exact hok.count
        · exact hok.free
        · rfl
        · simp [href]
        · exact hok.mount
      · simp only [Table.setSlot, Table.lockedBy, Function.update_self]
        exact h.apart rfl rfl
    have hown' : ((s.setSlot ip { s.slot ip with lock := true }).lockedBy p ip).owner ip = some p :=
      Function.update_self _ _ _
    dsimp only
    split
    · refine hlock.setPc (.itrunc ip) ?_
      unfold PcOk Table.setPc
      dsimp only
      rw [Function.update_self]
      exact ⟨hown', hone⟩
    · exact iputUpdat_inv hlock vol hown' hone
  · rename_i hc
    refine lessOne_inv h href hown fun hone => hc (Int8.toInt_inj.mp ?_)
    rw [hok.count, hone, h1]
    rfl

/-! ## `iget` -/

theorem search_spec (s : Table n Dev P D) (dev : Dev) (ino : Nat) (l : List (Fin n))
    (oip : Option (Fin n)) (hoip : ∀ ip, oip = some ip → (s.slot ip).count = 0) :
    match s.search dev ino l oip with
    | .ip ip => (s.slot ip).number = some ino ∧ (s.slot ip).dev = dev
    | .oip r => (∀ ip ∈ l, ¬((s.slot ip).number = some ino ∧ (s.slot ip).dev = dev)) ∧
        ∀ ip, r = some ip → (s.slot ip).count = 0 := by
  induction l generalizing oip with
  | nil => exact ⟨by simp, hoip⟩
  | cons ip l ih =>
    unfold Table.search
    by_cases hf : (s.slot ip).number = some ino ∧ (s.slot ip).dev = dev
    · rw [if_pos hf]
      exact hf
    · rw [if_neg hf]
      have hnext : ∀ ip', (if oip = none ∧ (s.slot ip).count = 0 then some ip else oip) = some ip' →
          (s.slot ip').count = 0 := by
        intro ip' h'
        split at h'
        · rename_i hc
          cases h'
          exact hc.2
        · exact hoip ip' h'
      have := ih _ hnext
      split
      · rename_i ip' heq
        rw [heq] at this
        exact this
      · rename_i r heq
        rw [heq] at this
        refine ⟨fun ip' hip' => ?_, this.2⟩
        rcases List.mem_cons.mp hip' with rfl | hip'
        · exact hf
        · exact this.1 ip' hip'

/-- `p` has got an inode that is in core or has just found room for it. -/
theorem take_inv (h : Inv s) (x : Slot Dev D) (pc : Pc n Dev) (hown : s.owner ip = none)
    (hfew : s.held ip < 127) (hcount : x.count = (s.slot ip).count + 1) (hlock : x.lock = true)
    (hmount : x.mount = (s.slot ip).mount)
    (hapart : ∀ j k, j ≠ ip → x.number = some k → (s.slot j).number = some k →
      x.dev ≠ (s.slot j).dev)
    (hpc : pc = .idle ∨ pc = .iread ip) :
    Inv ((((s.setSlot ip x).lockedBy p ip).addRef p ip).setPc p pc) := by
  have hok := h.slots ip
  refine h.local p ip rfl (fun j hj => ?_) (fun q hq => Function.update_of_ne hq _ _)
    (fun q hq hq' => ?_) (fun q hq hq' => ?_) ?_ ?_ ?_
  · exact ⟨Function.update_of_ne hj _ _, Function.update_of_ne hj _ _, Function.update_of_ne hj _ _⟩
  · simp only [Table.setSlot, Table.lockedBy, Table.addRef, Table.setPc, Function.update_self]
    exact List.mem_cons_of_mem _ hq'
  · rw [hown] at hq'
    cases hq'
  · refine ⟨?_, ?_, ?_, ?_, ?_⟩ <;>
      simp only [Table.held, Table.setSlot, Table.lockedBy, Table.addRef, Table.setPc,
        Function.update_self]
    · rw [hcount, count_add hok.count hfew]
      unfold Table.held
      rw [List.length_cons]
      omega
    · rw [List.length_cons]
      omega
    · rw [hlock]
      rfl
    · simp
    · rw [hmount]
      exact hok.mount
  · simp only [Table.setSlot, Table.lockedBy, Table.addRef, Table.setPc, Function.update_self]
    exact hapart
  · unfold PcOk
    rcases hpc with rfl | rfl <;>
      simp [Table.setSlot, Table.lockedBy, Table.addRef, Table.setPc]

/-- A process calls `iput` only for an inode that no other process has locked, and no inode is got
by `iget` that is held 127 times already. -/
def Safe (s : Table n Dev P D) : Table.Act n Dev P D → Prop
  | .iput p ip => s.owner ip = none ∨ s.owner ip = some p
  | .run p =>
    match s.pc p with
    | .iget dev ino =>
      ∀ ip, (s.slot ip).number = some ino ∧ (s.slot ip).dev = dev → s.held ip < 127
    | _ => True
  | _ => True

theorem owner_of_unlocked (h : Inv s) (hlock : (s.slot ip).lock = false) : s.owner ip = none := by
  have := (h.slots ip).lock
  rw [hlock] at this
  simpa using this.symm

theorem igetTurn_inv (h : Inv s) (dev : Dev) (ino : Nat)
    (hfew : ∀ ip, (s.slot ip).number = some ino ∧ (s.slot ip).dev = dev → s.held ip < 127)
    {s' : Table n Dev P D} {r : Option (Ret n P)} (hstep : s.igetTurn p dev ino = .ok (s', r)) :
    Inv s' := by
  have hsearch := search_spec s dev ino (List.finRange n) none (by simp)
  unfold Table.igetTurn at hstep
  split at hstep
  · rename_i ip heq
    rw [heq] at hsearch
    split at hstep
    · cases hstep
      exact h.want
    · rename_i hlock
      rw [Bool.not_eq_true] at hlock
      split at hstep
      · split at hstep
        · cases hstep
          exact h.setPc _ (by simp [PcOk, Table.setPc])
        · cases hstep
      · cases hstep
        exact take_inv h _ _ (owner_of_unlocked h hlock) (hfew ip hsearch) rfl rfl rfl
          (h.apart rfl rfl) (Or.inl rfl)
  · cases hstep
    exact h.setPc _ (by simp [PcOk, Table.setPc])
  · rename_i ip heq
    rw [heq] at hsearch
    have hcount := hsearch.2 ip rfl
    have hok := h.slots ip
    have hheld : s.held ip = 0 := by
      have h1 := hok.count
      have h0 : (0 : Int8).toInt = 0 := rfl
      rw [hcount, h0] at h1
      omega
    unfold Table.held at hheld
    have hmnt : (s.mnt ip).isSome = false := by
      cases hm : (s.mnt ip).isSome with
      | false => rfl
      | true =>
        rw [hm, Bool.toNat_true] at hheld
        omega
    have hown : s.owner ip = none := by
      cases ho : s.owner ip with
      | none => rfl
      | some q =>
        have := List.length_pos_of_mem (hok.owner q ho)
        omega
    cases hstep
    refine take_inv h _ _ hown (by unfold Table.held; omega) rfl rfl ?_ (fun j k hj h1 h2 hcon => ?_)
      (Or.inr rfl)
    · rw [hok.mount, hmnt]
    · cases h1
      exact hsearch.1 j (List.mem_finRange j) ⟨h2, hcon.symm⟩

theorem run_inv (h : Inv s) (vol : Vol Dev D) (hsafe : Safe s (.run p)) {s' : Table n Dev P D}
    {r : Option (Ret n P)} (hstep : s.run vol p = .ok (s', r)) : Inv s' := by
  have hpc := h.pcs p
  unfold Safe at hsafe
  dsimp only at hsafe
  unfold PcOk at hpc
  unfold Table.run at hstep
  cases hp : s.pc p with
  | idle =>
    rw [hp] at hstep
    cases hstep
  | iget dev ino =>
    rw [hp] at hstep hsafe
    exact igetTurn_inv h dev ino hsafe hstep
  | iread ip =>
    rw [hp] at hstep
    cases hstep
    exact (iexpand_inv h p ip).setPc _ (by simp [PcOk, Table.setPc])
  | plock ip =>
    rw [hp] at hstep hpc
    cases hstep
    exact plockTurn_inv h hpc
  | iupdat ip =>
    rw [hp] at hstep
    cases hstep
    exact (writeInode_inv h p ip).setPc _ (by simp [PcOk, Table.setPc])
  | itrunc ip =>
    rw [hp] at hstep hpc
    cases hstep
    exact iputUpdat_inv (h.setData p ip _ true) vol hpc.1 hpc.2
  | iput ip =>
    rw [hp] at hstep hpc
    cases hstep
    have hsame : (s.writeInode ip).owner = s.owner ∧ (s.writeInode ip).held = s.held := by
      unfold Table.writeInode
      split <;> exact ⟨rfl, rfl⟩
    refine iputEnd_inv (writeInode_inv h p ip) ?_ ?_
    · rw [hsame.1]
      exact hpc.1
    · rw [hsame.2]
      exact hpc.2

theorem of_isIdle (h : s.isIdle p = true) : s.pc p = .idle := by
  unfold Table.isIdle at h
  split at h
  · assumption
  · cases h

theorem of_has (h : s.has p ip = true) : s.pc p = .idle ∧ p ∈ s.refs ip := by
  unfold Table.has at h
  rw [Bool.and_eq_true] at h
  exact ⟨of_isIdle h.1, of_decide_eq_true h.2⟩

theorem step_inv (h : Inv s) (vol : Vol Dev D) {a : Table.Act n Dev P D} (hsafe : Safe s a)
    {s' : Table n Dev P D} {r : Option (Ret n P)} (hstep : s.step vol a = .ok (s', r)) :
    Inv s' := by
  cases a with
  | iget p dev ino =>
    unfold Table.step at hstep
    dsimp only at hstep
    split at hstep
    · cases hstep
      exact h.setPc _ (by simp [PcOk, Table.setPc])
    · cases hstep
  | iput p ip =>
    unfold Table.step at hstep
    dsimp only at hstep
    split at hstep
    · cases hstep
      rename_i hp
      exact iput_inv h vol (of_has hp).1 (of_has hp).2 hsafe
    · cases hstep
  | iupdat p ip =>
    unfold Table.step at hstep
    dsimp only at hstep
    split at hstep
    · rename_i hp
      cases hstep
      split
      · exact h.setPc _ (by simpa [PcOk, Table.setPc] using (of_has hp).2)
      · exact h
    · cases hstep
  | plock p ip =>
    unfold Table.step at hstep
    dsimp only at hstep
    split at hstep
    · rename_i hp
      cases hstep
      exact h.setPc _ (by simpa [PcOk, Table.setPc] using (of_has hp).2)
    · cases hstep
  | prele p ip =>
    unfold Table.step at hstep
    dsimp only at hstep
    split at hstep
    · rename_i hp
      cases hstep
      exact prele_inv h (of_isIdle hp.1) hp.2
    · cases hstep
  | change p ip d =>
    unfold Table.step at hstep
    dsimp only at hstep
    split at hstep
    · cases hstep
      exact h.setData p ip d true
    · cases hstep
  | run p =>
    unfold Table.step at hstep
    dsimp only at hstep
    split at hstep
    · exact run_inv h vol hsafe hstep
    · cases hstep

/-! ## Slots and what they are for -/

/-- A slot is for the inode it was for, or for none, or nobody held it. -/
def Kept (s s' : Table n Dev P D) : Prop :=
  ∀ ip, (s'.slot ip).number = none ∨
    ((s'.slot ip).number = (s.slot ip).number ∧ (s'.slot ip).dev = (s.slot ip).dev) ∨
    s.held ip = 0

theorem kept_of_same {s' : Table n Dev P D} (h : ∀ j, Slot.Same (s'.slot j) (s.slot j)) :
    Kept s s' := fun j => Or.inr (Or.inl ⟨(h j).number, (h j).dev⟩)

theorem kept_of_update {s' : Table n Dev P D} {x : Slot Dev D}
    (hs : s'.slot = Function.update s.slot ip x)
    (hx : x.number = none ∨ (x.number = (s.slot ip).number ∧ x.dev = (s.slot ip).dev) ∨
      s.held ip = 0) : Kept s s' := by
  intro j
  rw [hs]
  by_cases e : j = ip
  · subst e
    rw [Function.update_self]
    exact hx
  · rw [Function.update_of_ne e]
    exact Or.inr (Or.inl ⟨rfl, rfl⟩)

theorem iputUpdat_slot (s : Table n Dev P D) (vol : Vol Dev D) (p : P) (ip : Fin n) :
    ∃ x, (s.iputUpdat vol p ip).slot = Function.update s.slot ip x ∧
      (x.number = none ∨ x = s.slot ip) := by
  unfold Table.iputUpdat
  split
  · exact ⟨s.slot ip, (Function.update_eq_self _ _).symm, Or.inr rfl⟩
  · obtain ⟨x, hx⟩ := iputEnd_spec s p ip
    rw [hx]
    exact ⟨_, rfl, Or.inl rfl⟩

theorem iput_kept (s : Table n Dev P D) (vol : Vol Dev D) (p : P) (ip : Fin n) :
    Kept s (s.iput vol p ip) := by
  unfold Table.iput
  split
  · dsimp only
    split
    · exact kept_of_update rfl (Or.inr (Or.inl ⟨rfl, rfl⟩))
    · obtain ⟨x, h1, h2⟩ :=
        iputUpdat_slot ((s.setSlot ip { s.slot ip with lock := true }).lockedBy p ip) vol p ip
      refine kept_of_update (h1.trans (Function.update_idem _ _ _)) ?_
      rcases h2 with h2 | h2
      · exact Or.inl h2
      · rw [h2]
        simp [Table.setSlot, Table.lockedBy]
  · obtain ⟨x, hx⟩ := lessOne_spec s p ip
    rw [hx]
    exact kept_of_update rfl (Or.inr (Or.inl ⟨rfl, rfl⟩))

/-- The inode is locked for the process it was returned to. -/
structure RetOk (s : Table n Dev P D) (r : Ret n P) : Prop where
  lock : (s.slot r.ip).lock = true
  owner : s.owner r.ip = some r.p
  refs : r.p ∈ s.refs r.ip

/-- What a step returns, and that it does not panic. -/
def StepOk (s : Table n Dev P D) (o : Table.Outcome n Dev P D) : Prop :=
  match o with
  | .error e => e = .disabled
  | .ok (s', r) => Kept s s' ∧ ∀ ret, r = some ret → RetOk s' ret

theorem stepOk_of_kept {s' : Table n Dev P D} (h : Kept s s') : StepOk s (.ok (s', none)) :=
  ⟨h, by simp⟩

theorem igetTurn_ok (h : Inv s) (p : P) (dev : Dev) (ino : Nat) :
    StepOk s (s.igetTurn p dev ino) := by
  have hsearch := search_spec s dev ino (List.finRange n) none (by simp)
  unfold Table.igetTurn
  split
  · rename_i ip heq
    split
    · exact stepOk_of_kept (kept_of_update rfl (Or.inr (Or.inl ⟨rfl, rfl⟩)))
    · split
      · rename_i hmount
        rw [(h.slots ip).mount] at hmount
        obtain ⟨d, hd⟩ := Option.isSome_iff_exists.mp hmount
        rw [hd]
        exact stepOk_of_kept (kept_of_same fun _ => Slot.Same.refl _)
      · refine ⟨kept_of_update rfl (Or.inr (Or.inl ⟨rfl, rfl⟩)), fun ret hret => ?_⟩
        cases hret
        constructor <;> simp [Table.setSlot, Table.lockedBy, Table.addRef, Table.setPc]
  · exact stepOk_of_kept (kept_of_same fun _ => Slot.Same.refl _)
  · rename_i ip heq
    rw [heq] at hsearch
    refine stepOk_of_kept (kept_of_update rfl (Or.inr (Or.inr ?_)))
    have h1 := (h.slots ip).count
    have h0 : (0 : Int8).toInt = 0 := rfl
    rw [hsearch.2 ip rfl, h0] at h1
    omega

theorem run_ok (h : Inv s) (vol : Vol Dev D) (p : P) : StepOk s (s.run vol p) := by
  have hpc := h.pcs p
  unfold PcOk at hpc
  unfold Table.run
  cases hp : s.pc p with
  | idle => rfl
  | iget dev ino => exact igetTurn_ok h p dev ino
  | iread ip =>
    rw [hp] at hpc
    have hsame : ∀ j, Slot.Same ((s.iexpand ip).slot j) (s.slot j) := by
      intro j
      unfold Table.iexpand
      split
      · exact Slot.Same.refl _
      · refine setSlot_same ?_ j
        exact ⟨rfl, rfl, rfl, rfl, rfl⟩
    have hrest : (s.iexpand ip).owner = s.owner ∧ (s.iexpand ip).refs = s.refs := by
      unfold Table.iexpand
      split <;> exact ⟨rfl, rfl⟩
    refine ⟨kept_of_same hsame, fun ret hret => ?_⟩
    cases hret
    dsimp only at hpc
    refine ⟨?_, ?_, ?_⟩
    · show ((s.iexpand ip).slot ip).lock = true
      rw [(hsame ip).lock, (h.slots ip).lock, hpc]
      rfl
    · show (s.iexpand ip).owner ip = some p
      rw [hrest.1, hpc]
    · show p ∈ (s.iexpand ip).refs ip
      rw [hrest.2]
      exact (h.slots ip).owner p hpc
  | plock ip =>
    refine stepOk_of_kept ?_
    unfold Table.plockTurn
    split
    · exact kept_of_update rfl (Or.inr (Or.inl ⟨rfl, rfl⟩))
    · exact kept_of_update rfl (Or.inr (Or.inl ⟨rfl, rfl⟩))
  | iupdat ip =>
    refine stepOk_of_kept ?_
    unfold Table.writeInode
    split
    · exact kept_of_same fun _ => Slot.Same.refl _
    · exact kept_of_update rfl (Or.inr (Or.inl ⟨rfl, rfl⟩))
  | itrunc ip =>
    obtain ⟨x, h1, h2⟩ := iputUpdat_slot
      (s.setSlot ip { s.slot ip with data := vol.trunc (s.slot ip).data, upd := true }) vol p ip
    refine stepOk_of_kept (kept_of_update (h1.trans (Function.update_idem _ _ _)) ?_)
    rcases h2 with h2 | h2
    · exact Or.inl h2
    · rw [h2]
      simp [Table.setSlot]
  | iput ip =>
    obtain ⟨x, hx⟩ := iputEnd_spec (s.writeInode ip) p ip
    refine stepOk_of_kept ?_
    rw [hx]
    unfold Table.writeInode
    split
    · exact kept_of_update rfl (Or.inl rfl)
    · exact kept_of_update (Function.update_idem _ _ _) (Or.inl rfl)

theorem step_ok (h : Inv s) (vol : Vol Dev D) (a : Table.Act n Dev P D) :
    StepOk s (s.step vol a) := by
  have hsame : Kept s s := kept_of_same fun _ => Slot.Same.refl _
  cases a with
  | iget p dev ino =>
    unfold Table.step
    dsimp only
    split
    · exact stepOk_of_kept (kept_of_same fun _ => Slot.Same.refl _)
    · rfl
  | iput p ip =>
    unfold Table.step
    dsimp only
    split
    · exact stepOk_of_kept (iput_kept s vol p ip)
    · rfl
  | iupdat p ip =>
    unfold Table.step
    dsimp only
    split
    · refine stepOk_of_kept ?_
      split
      · exact kept_of_same fun _ => Slot.Same.refl _
      · exact hsame
    · rfl
  | plock p ip =>
    unfold Table.step
    dsimp only
    split
    · exact stepOk_of_kept (kept_of_same fun _ => Slot.Same.refl _)
    · rfl
  | prele p ip =>
    unfold Table.step
    dsimp only
    split
    · obtain ⟨x, hx⟩ := prele_spec s ip
      rw [hx]
      exact stepOk_of_kept (kept_of_update rfl (Or.inr (Or.inl ⟨rfl, rfl⟩)))
    · rfl
  | change p ip d =>
    unfold Table.step
    dsimp only
    split
    · exact stepOk_of_kept (kept_of_update rfl (Or.inr (Or.inl ⟨rfl, rfl⟩)))
    · rfl
  | run p =>
    unfold Table.step
    dsimp only
    split
    · exact run_ok h vol p
    · rfl

end Ops

/-! ## Runs -/

/-- Nobody has an inode yet, and only those that are mounted on are in the table. -/
structure Start (s : Table n Dev P D) : Prop where
  pc : ∀ p, s.pc p = .idle
  owner : ∀ ip, s.owner ip = none
  refs : ∀ ip, s.refs ip = []
  lock : ∀ ip, (s.slot ip).lock = false
  mount : ∀ ip, (s.slot ip).mount = (s.mnt ip).isSome
  count : ∀ ip, (s.slot ip).count.toInt = (s.mnt ip).isSome.toNat
  free : ∀ ip, s.mnt ip = none → (s.slot ip).number = none
  unique : ∀ ip ip' k, (s.slot ip).number = some k → (s.slot ip').number = some k →
    (s.slot ip).dev = (s.slot ip').dev → ip = ip'

theorem Start.inv {s : Table n Dev P D} (h : Start s) : Inv s := by
  refine ⟨fun ip => ⟨?_, fun hfree => ?_, ?_, ?_, h.mount ip⟩, h.unique, fun p => ?_⟩
  · rw [h.count ip]
    unfold Table.held
    rw [h.refs ip]
    simp
  · refine h.free ip ?_
    unfold Table.held at hfree
    cases hm : s.mnt ip with
    | none => rfl
    | some d => simp [hm] at hfree
  · rw [h.lock ip, h.owner ip]
    rfl
  · rw [h.owner ip]
    simp
  · exact pcOk_of_idle (h.pc p)

/-- In every run of safe steps: an inode is in one slot at most, its count is how often it is held,
it is locked exactly while some process that has it has locked it; then, whatever is called next,
`iget` returns an inode that is locked for the caller, and only a slot that is not held is given to
another inode. -/
theorem table_sound (vol : Vol Dev D) (s₀ : Table n Dev P D) (hs : Start s₀)
    (acts : List (Table.Act n Dev P D)) (hsafe : Meets (fun s a => s.step vol a) Safe s₀ acts)
    (s : Table n Dev P D) (rets : List (Option (Ret n P)))
    (hrun : runs (fun s a => s.step vol a) s₀ acts = .ok (s, rets)) :
    (∀ ip ip' k, 0 < (s.slot ip).count → 0 < (s.slot ip').count →
      (s.slot ip).number = some k → (s.slot ip').number = some k →
      (s.slot ip).dev = (s.slot ip').dev → ip = ip') ∧
    (∀ ip, (s.slot ip).count.toInt = s.held ip) ∧
    (∀ ip, (s.slot ip).lock = (s.owner ip).isSome ∧ ∀ p, s.owner ip = some p → p ∈ s.refs ip) ∧
    ∀ a, s.step vol a ≠ .error .panic ∧ ∀ s' r, s.step vol a = .ok (s', r) →
      Kept s s' ∧ ∀ ret, r = some ret → RetOk s' ret := by
  have hinv : Inv s := runs_inv_of_meets
    (fun s a s' r hs hsafe hstep => step_inv hs vol hsafe hstep) hs.inv hsafe hrun
  refine ⟨fun ip ip' k _ _ => hinv.unique ip ip' k, fun ip => (hinv.slots ip).count,
    fun ip => ⟨(hinv.slots ip).lock, (hinv.slots ip).owner⟩, fun a => ⟨fun hcon => ?_, ?_⟩⟩
  · have := step_ok hinv vol a
    rw [hcon] at this
    cases this
  · intro s' r hstep
    have := step_ok hinv vol a
    rw [hstep] at this
    exact this

/-! ## An inode that two processes have -/

local instance neZeroOne : NeZero 1 := ⟨by decide⟩

/-- One slot, and two processes. -/
def oneSlot : Table 1 Unit Bool Int where
  slot := fun _ => ⟨(), none, false, false, false, false, 0, 1⟩
  mnt := fun _ => none
  disk := fun _ _ => 1
  pc := fun _ => .idle
  asleep := fun _ => none
  owner := fun _ => none
  refs := fun _ => []

def oneVol : Vol Unit Int := ⟨id, id, fun _ => false⟩

/-- The first process gets inode 7 and unlocks it, then the second gets it. -/
def shared : List (Table.Act 1 Unit Bool Int) :=
  [.iget false () 7, .run false, .run false, .prele false 0, .iget true () 7, .run true]

theorem oneSlot_start : Start oneSlot := by
  refine ⟨fun _ => rfl, fun _ => rfl, fun _ => rfl, fun _ => rfl, fun _ => rfl, fun _ => rfl,
    fun _ _ => rfl, fun ip ip' _ _ _ _ => Subsingleton.elim ip ip'⟩

theorem table_sound_shared : ∃ s rets,
    runs (fun s a => s.step oneVol a) oneSlot shared = .ok (s, rets) ∧
      (s.slot 0).count = 2 ∧ (s.slot 0).lock = (s.owner 0).isSome ∧ s.owner 0 = some true := by
  obtain ⟨s, rets, hrun⟩ : ∃ s rets,
      runs (fun s a => s.step oneVol a) oneSlot shared = .ok (s, rets) := ⟨_, _, rfl⟩
  have hsafe : Meets (fun s a => s.step oneVol a) Safe oneSlot shared := by
    refine ⟨trivial, ?_, trivial, trivial, trivial, ?_, trivial⟩
    · intro ip _
      fin_cases ip
      decide
    · intro ip _
      fin_cases ip
      decide
  obtain ⟨-, -, hlock, -⟩ := table_sound oneVol oneSlot oneSlot_start shared hsafe s rets hrun
  refine ⟨s, rets, hrun, ?_, (hlock 0).1, ?_⟩
  · cases hrun
    rfl
  · cases hrun
    rfl

/-- The first process, which has unlocked the inode, puts it back: the second, which has got it
from `iget` and not put it back, has no lock any more. -/
theorem iput_unlocks_other : ∃ s rets,
    runs (fun s a => s.step oneVol a) oneSlot (shared ++ [.iput false 0]) = .ok (s, rets) ∧
      some ⟨true, 0⟩ ∈ rets ∧ s.owner 0 = some true ∧ s.refs 0 = [true] ∧
      (s.slot 0).lock = false := by
  obtain ⟨s, rets, hrun⟩ : ∃ s rets,
      runs (fun s a => s.step oneVol a) oneSlot (shared ++ [.iput false 0]) = .ok (s, rets) :=
    ⟨_, _, rfl⟩
  refine ⟨s, rets, hrun, ?_, ?_, ?_, ?_⟩
  · cases hrun
    simp
  · cases hrun
    rfl
  · cases hrun
    rfl
  · cases hrun
    rfl

end Venix.Inode
