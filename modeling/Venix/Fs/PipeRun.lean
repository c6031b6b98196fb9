/-
  Pipes over whole runs.

  `pending` is what is in the pipe: the bytes of the file from the read offset to the size. Each
  step takes what it delivers from the front of it and puts what it accepts at the end
  (`step_stream`), whoever takes the step.
-/
import Venix.Fs.Pipe
import Venix.Fs.RdwriRun

set_option linter.unusedSectionVars false

namespace Venix.Fs

open Venix.Lib

variable {P : Type} [DecidableEq P]

/-- The `n` bytes from `o` on. -/
def bytesFrom (f : Nat → Byte) (o n : Nat) : List Byte := (List.range n).map fun j => f (o + j)

/-- The inode is a regular file of less than twice `pipsiz` bytes, and `off` is in it; at its end
    only where it is empty. -/
structure FileOk (v : Vol) (ip : Inode) (off : Int) : Prop where
  mapped : ∃ L, Mapped v ip L
  itype : ip.iType = .ifreg
  offset : 0 ≤ off
  within : off < ip.iSize ∨ off = 0 ∧ ip.iSize = 0
  size : ip.iSize < 2 * (pipsiz : Int)

theorem FileOk.congr {v v' : Vol} {ip ip' : Inode} {off : Int} (h : FileOk v ip off)
    (hsb : v'.sb = v.sb) (hdisk : v'.disk = v.disk) (haddr : ip'.iAddr = ip.iAddr)
    (htype : ip'.iType = ip.iType) (hsize : ip'.iSize = ip.iSize) : FileOk v' ip' off := by
  obtain ⟨L, hm⟩ := h.mapped
  refine ⟨⟨L, hm.congr hsb hdisk haddr⟩, ?_, h.offset, ?_, ?_⟩
  · rw [htype, h.itype]
  · rw [hsize]
    exact h.within
  · rw [hsize]
    exact h.size

def unread (v : Vol) (ip : Inode) (off : Int) : List Byte :=
  bytesFrom (fileByte v ip) off.toNat (ip.iSize - off).toNat

/-- The process has the lock. -/
def PipePc.holds (pc : PipePc) : Prop := pc = .readIo ∨ pc = .writeIo

/-- The memory of the rest of the request is mapped, and there was no error. -/
def PipeProc.Ok (q : PipeProc) : Prop :=
  match q.pc with
  | .idle => True
  | .readLoop | .readIo => q.u.Present q.u.uCount ∧ q.err = none
  | .writeLoop | .writeIo => q.u.Present q.c ∧ q.err = none

structure Pipe.Inv (s : Pipe P) : Prop where
  file : FileOk s.v s.ip s.offset
  procs : ∀ p, (s.proc p).Ok
  locked : ∀ p, (s.proc p).pc.holds → s.lock = true
  one : ∀ p q, (s.proc p).pc.holds → (s.proc q).pc.holds → p = q
  reads : ∀ p, (s.proc p).pc = .readIo → s.ip.iSize ≠ 0
  writes : ∀ p, (s.proc p).pc = .writeIo → s.ip.iSize < pipsiz ∧ (s.proc p).c ≠ 0

/-- What is in the pipe. -/
def Pipe.pending (s : Pipe P) : List Byte := unread s.v s.ip s.offset

/-- `s'` has the file of `s`, and its processes but for who sleeps. -/
structure Pipe.Same (s s' : Pipe P) : Prop where
  v : s'.v = s.v
  ip : s'.ip = s.ip
  offset : s'.offset = s.offset
  proc : ∀ p, ∃ a, s'.proc p = { s.proc p with asleep := a }

namespace Pipe

variable {s s' s'' : Pipe P}

theorem Same.trans (h : s.Same s') (h' : s'.Same s'') : s.Same s'' := by
  refine ⟨h'.v.trans h.v, h'.ip.trans h.ip, h'.offset.trans h.offset, fun p => ?_⟩
  obtain ⟨a, ha⟩ := h.proc p
  obtain ⟨b, hb⟩ := h'.proc p
  rw [ha] at hb
  exact ⟨b, hb⟩

theorem Same.pending (h : s.Same s') : s'.pending = s.pending := by
  unfold Pipe.pending
  rw [h.v, h.ip, h.offset]

theorem Same.pc (h : s.Same s') (p : P) : (s'.proc p).pc = (s.proc p).pc := by
  obtain ⟨a, ha⟩ := h.proc p
  rw [ha]

/-- Where the lock was not given back, or nobody has it. -/
theorem Inv.same (h : s.Inv) (hs : s.Same s')
    (hl : s'.lock = s.lock ∨ ∀ p, ¬(s.proc p).pc.holds) : s'.Inv := by
  have hok : ∀ p, (s'.proc p).Ok ↔ (s.proc p).Ok := by
    intro p
    obtain ⟨a, ha⟩ := hs.proc p
    rw [ha]
    rfl
  have hc : ∀ p, (s'.proc p).c = (s.proc p).c := by
    intro p
    obtain ⟨a, ha⟩ := hs.proc p
    rw [ha]
  refine ⟨?_, fun p => (hok p).mpr (h.procs p), fun p hp => ?_, fun p q hp hq => ?_, fun p hp => ?_,
    fun p hp => ?_⟩
  · rw [hs.v, hs.ip, hs.offset]
    exact h.file
  · rw [hs.pc] at hp
    rcases hl with hl | hl
    · rw [hl]
      exact h.locked p hp
    · exact absurd hp (hl p)
  · rw [hs.pc] at hp hq
    exact h.one p q hp hq
  · rw [hs.pc] at hp
    rw [hs.ip]
    exact h.reads p hp
  · rw [hs.pc] at hp
    rw [hs.ip, hc]
    exact h.writes p hp

theorem Inv.of_noHolder (hf : FileOk s.v s.ip s.offset) (hok : ∀ p, (s.proc p).Ok)
    (hno : ∀ p, ¬(s.proc p).pc.holds) : s.Inv :=
  ⟨hf, hok, fun p hp => absurd hp (hno p), fun p _ hp => absurd hp (hno p),
    fun p hp => absurd (.inl hp) (hno p), fun p hp => absurd (.inr hp) (hno p)⟩

/-- The process `p` goes on, while no other has the lock. -/
theorem Inv.setProc (h : s.Inv) {p : P} {q : PipeProc} (hno : ∀ x, x ≠ p → ¬(s.proc x).pc.holds)
    (hok : q.Ok) (hl : q.pc.holds → s.lock = true) (hr : q.pc = .readIo → s.ip.iSize ≠ 0)
    (hw : q.pc = .writeIo → s.ip.iSize < pipsiz ∧ q.c ≠ 0) : (s.setProc p q).Inv := by
  have hp : (s.setProc p q).proc p = q := Function.update_self _ _ _
  have hx : ∀ x, x ≠ p → (s.setProc p q).proc x = s.proc x := fun x hx => Function.update_of_ne hx _ _
  refine ⟨h.file, fun x => ?_, fun x hh => ?_, fun x y hxh hyh => ?_, fun x hh => ?_, fun x hh => ?_⟩
  · by_cases hxp : x = p
    · rw [hxp, hp]
      exact hok
    · rw [hx x hxp]
      exact h.procs x
  · by_cases hxp : x = p
    · rw [hxp, hp] at hh
      exact hl hh
    · rw [hx x hxp] at hh
      exact absurd hh (hno x hxp)
  · have hmust : ∀ z, ((s.setProc p q).proc z).pc.holds → z = p := by
      intro z hz
      by_contra hzp
      rw [hx z hzp] at hz
      exact hno z hzp hz
    rw [hmust x hxh, hmust y hyh]
  · by_cases hxp : x = p
    · rw [hxp, hp] at hh
      exact hr hh
    · rw [hx x hxp] at hh
      exact absurd (.inl hh) (hno x hxp)
  · by_cases hxp : x = p
    · rw [hxp, hp] at hh ⊢
      exact hw hh
    · rw [hx x hxp] at hh
      exact absurd (.inr hh) (hno x hxp)

theorem not_holds_idle : ¬PipePc.idle.holds := by
  rintro (h | h) <;> cases h

/-- What a step moved. -/
def puts : Option (PipeOut P) → List Byte
  | some (.put _ bytes _) => bytes
  | _ => []

def gots : Option (PipeOut P) → List Byte
  | some (.got _ bytes _) => bytes
  | _ => []

/-- One step: the invariant, what went in at the end and came out at the front, and how much. -/
structure Streamed (s : Pipe P) (r : Pipe P × Option (PipeOut P)) : Prop where
  inv : r.1.Inv
  stream : s.pending ++ puts r.2 = gots r.2 ++ r.1.pending
  chunk : (puts r.2).length ≤ pipsiz

theorem Streamed.quiet {o : Option (PipeOut P)} (hi : s'.Inv) (hp : s'.pending = s.pending)
    (ho : puts o = []) (ho' : gots o = []) : Streamed s (s', o) := by
  refine ⟨hi, ?_, ?_⟩
  · rw [ho, ho', hp]
    simp
  · rw [ho]
    simp

/-- The memory of a request is mapped, and drivers transfer whole blocks. -/
def Permitted (_ : Pipe P) : Act P → Prop
  | .read _ u => u.Present u.uCount
  | .write _ u => u.Present u.uCount
  | .run _ d _ => ∀ a, d.bResid a = 0
  | .close => True

theorem idle_not_holds {q : PipeProc} (h : q.pc = .idle) : ¬q.pc.holds := by
  rw [h]
  exact not_holds_idle

/-- What the writers put in, and what the readers got, in the order of the steps. -/
def accepted (outs : List (Option (PipeOut P))) : List Byte := (outs.map puts).flatten

def delivered (outs : List (Option (PipeOut P))) : List Byte := (outs.map gots).flatten

/-- A new pipe, which nobody reads or writes. -/
structure Start (s : Pipe P) : Prop where
  mapped : ∃ L, Mapped s.v s.ip L
  itype : s.ip.iType = .ifreg
  size : s.ip.iSize = 0
  offset : s.offset = 0
  idle : ∀ p, (s.proc p).pc = .idle

theorem Start.inv (hs : Start s) : s.Inv := by
  refine .of_noHolder ⟨hs.mapped, hs.itype, ?_, .inr ⟨hs.offset, hs.size⟩, ?_⟩ (fun p => ?_) fun p => ?_
  · rw [hs.offset]
  · rw [hs.size]
    decide
  · unfold PipeProc.Ok
    rw [hs.idle p]
    trivial
  · exact idle_not_holds (hs.idle p)

theorem Start.pending (hs : Start s) : s.pending = [] := by
  unfold Pipe.pending unread
  rw [hs.size, hs.offset]
  rfl

/-- One process writes three bytes, and the other reads two. -/
def writeRead : List (Act Bool) :=
  let run (p : Bool) : Act Bool := .run p (sevens .bRead 0 0).d (sevens .bRead 0 0).rdisk
  [.write false (sevens .bWrite 0 3).u, .read true (sevens .bRead 0 2).u, run false, run true,
    run false, run true, run true]

end Pipe

end Venix.Fs
