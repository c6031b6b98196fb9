/-
  What an output stream delivers, over any sequence of calls.

  A stream is to send each character to the offset that the seeks before it imply. Between two calls
  the characters in its buffer are those that are still to be written, for the offsets from that of
  the descriptor on: the buffer is empty and `_cnt` is 0, or `_cnt` is the room that is left. It is
  otherwise only where a stream is opened in place of one whose buffer was not its own and whose
  `_ptr` had moved: neither `fclose` nor `fopen` brings `_ptr` back, and what was before it is
  written as if it had been put.
-/
import Venix.Stdio.Stream

namespace Venix.Stdio

open Function

/-! ## What is wanted -/

/-- A stream without a buffer. -/
structure Want where
  pos : Int
  out : List (Int × UInt8)
  isOpen : Bool

def Want.step (e : Env) (pipe : Bool) (t : Want) : Op → Want
  | .putc c =>
    { t with
      pos := t.pos + 1
      out := t.out ++ [(t.pos, char c)] }
  | .fflush => t
  | .fseek offset ptrname =>
    if t.isOpen = false ∨ pipe then t
    else { t with
      pos := if ptrname = 1 then t.pos + offset else if ptrname = 2 then e.size t.out + offset
        else offset }
  | .fclose => { t with isOpen := false }

def want (e : Env) (ops : List Op) (w : World) : Want :=
  ops.foldl (Want.step e w.d.pipe) ⟨w.d.off, w.d.got, true⟩

/-- Nothing is put to a stream that has been closed. -/
def PutsOpen (ops : List Op) : Prop := ∀ l₁ l₂ c, ops = l₁ ++ .fclose :: l₂ → .putc c ∉ l₂

/-- What the calls have delivered: what the descriptor has received is the beginning of what was
put, and all of it after `fflush` and `fclose`; `ftell` gives the offset of the next character,
unless the characters before it cannot be written. -/
structure Delivers (e : Env) (w₀ : World) (ops : List Op) (w : World) : Prop where
  got : w.d.got <+: (want e ops w₀).out
  flushed : (ops.getLast? = some .fflush ∨ ops.getLast? = some .fclose) →
    w.d.got = (want e ops w₀).out
  tell : (want e ops w₀).isOpen → w₀.d.pipe = false → (fflush w).2.failed = false →
    (ftell e w).1 = (want e ops w₀).pos

/-- Every sequence of calls delivers what it should, as long as no write has failed. -/
def AllDelivered (e : Env) (w : World) : Prop :=
  ∀ ops, PutsOpen ops → ∃ w', run e ops w = some w' ∧ (w'.failed = false → Delivers e w ops w')

/-- An open output stream. -/
structure Output (f : Iobuf) : Prop where
  wrt : f.wrt = true
  read : f.read = false
  rw : f.rw = false
  strg : f.strg = false

/-- A stream that has just been opened for output. -/
structure Opened (w : World) : Prop extends Output w.f where
  cnt : w.f.cnt = 0
  off : 0 ≤ w.d.off
  failed : w.failed = false

/-! ## The shape of a stream -/

/-- An output stream between two calls. -/
structure Shape (f : Iobuf) : Prop extends Output f where
  none : f.nbf = true ∨ f.base = false → f.cnt = 0
  room : f.nbf = false → f.base = true → f.ptr = 0 ∧ f.cnt = 0 ∨ 0 ≤ f.cnt ∧ f.cnt + f.ptr = 512

/-- The characters in the buffer. -/
def pending (f : Iobuf) : List UInt8 := if f.nbf = false ∧ f.base then upto f f.ptr else []

theorem placed_append (p : Int) (l l' : List UInt8) :
    placed p (l ++ l') = placed p l ++ placed (p + l.length) l' := by
  induction l generalizing p with
  | nil => simp [placed]
  | cons c l ih =>
    rw [List.cons_append, placed, placed, ih, List.length_cons, List.cons_append]
    congr 3
    push_cast
    omega

theorem placed_length (p : Int) (l : List UInt8) : (placed p l).length = l.length := by
  induction l generalizing p with
  | nil => rfl
  | cons c l ih => rw [placed, List.length_cons, List.length_cons, ih]

theorem upto_length (f : Iobuf) (n : Nat) : (upto f n).length = n := by
  unfold upto
  rw [List.length_map, List.length_range]

/-- A stream and what is wanted of it. -/
structure Follows (w : World) (t : Want) : Prop where
  out : t.out = w.d.got ++ placed w.d.off (pending w.f)
  pos : t.pos = w.d.off + (pending w.f).length

theorem pending_some {f : Iobuf} (h1 : f.nbf = false) (h2 : f.base = true) :
    pending f = upto f f.ptr := by
  unfold pending
  rw [if_pos ⟨h1, h2⟩]

theorem pending_none {f : Iobuf} (h : f.nbf = true ∨ f.base = false) : pending f = [] := by
  unfold pending
  rw [if_neg]
  rintro ⟨h1, h2⟩
  rcases h with h | h
  · rw [h1] at h
    cases h
  · rw [h2] at h
    cases h

theorem write_f (w : World) (l : List UInt8) : (write w l).2.f = w.f := by
  unfold write
  split
  · rfl
  · rfl

/-- A write that does not fail. -/
theorem write_ok {w : World} {l : List UInt8} (h : (write w l).2.failed = false) :
    0 ≤ w.d.off ∧ w.failed = false ∧ write w l = ((l.length : Int), { w with
      d := { w.d with
        off := w.d.off + l.length
        got := w.d.got ++ placed w.d.off l } }) := by
  unfold write at h ⊢
  split at h
  · cases h
  · next hoff =>
    rw [if_neg hoff]
    exact ⟨by omega, h, rfl⟩

/-- The buffer has been written. -/
theorem Follows.written {w : World} {t : Want} {f : Iobuf} (h : Follows w t)
    (hf : ((write { w with f := f } (pending w.f)).2).failed = false) (hempty : pending f = []) :
    Follows (write { w with f := f } (pending w.f)).2 t := by
  obtain ⟨-, -, hw⟩ := write_ok hf
  rw [hw]
  refine ⟨?_, ?_⟩
  · dsimp only
    rw [hempty, h.out]
    exact (List.append_nil _).symm
  · dsimp only
    rw [hempty, h.pos]
    simp

/-! ## One call -/

/-- What every call keeps. -/
structure Kept (w w' : World) : Prop where
  pipe : w'.d.pipe = w.d.pipe
  failed : w.failed = true → w'.failed = true

theorem Kept.before {w w' : World} (h : Kept w w') (hfail : w'.failed = false) :
    w.failed = false := by
  cases hf : w.failed
  · rfl
  · exact absurd ((h.failed hf).symm.trans hfail) (by decide)

theorem write_kept (w : World) (f : Iobuf) (l : List UInt8) :
    Kept w (write { w with f := f } l).2 := by
  unfold write
  split
  · exact ⟨rfl, fun _ => rfl⟩
  · exact ⟨rfl, id⟩

theorem Kept.trans {w w' w'' : World} (h : Kept w w') (h' : Kept w' w'') : Kept w w'' :=
  ⟨h'.pipe.trans h.pipe, fun hf => h'.failed (h.failed hf)⟩

variable {e : Env} {w : World} {t : Want}

/-- The stream when `fflush` writes. -/
def emptied (f : Iobuf) : Iobuf :=
  { f with
    ptr := 0
    cnt := BUFSIZ }

theorem fflush_write (h : w.f.nbf = false ∧ w.f.wrt ∧ w.f.base ∧ 0 < w.f.ptr) :
    fflush w =
      if (write { w with f := emptied w.f } (upto w.f w.f.ptr)).1 ≠ w.f.ptr then
        (EOF, { (write { w with f := emptied w.f } (upto w.f w.f.ptr)).2 with
          f := { (write { w with f := emptied w.f } (upto w.f w.f.ptr)).2.f with err := true } })
      else (0, (write { w with f := emptied w.f } (upto w.f w.f.ptr)).2) :=
  if_pos h

theorem emptied_shape (h : Shape w.f) (hnbf : w.f.nbf = false) (hbase : w.f.base = true) :
    Shape (emptied w.f) := by
  refine ⟨⟨h.wrt, h.read, h.rw, h.strg⟩, fun hn => ?_, fun _ _ => Or.inr ⟨?_, rfl⟩⟩
  · rcases hn with hn | hn
    · exact absurd (hnbf.symm.trans hn) (by decide)
    · exact absurd (hbase.symm.trans hn) (by decide)
  · change (0 : Int) ≤ 512
    decide

/-- `fflush` empties the buffer. -/
theorem fflush_spec (h : Shape w.f) :
    Shape (fflush w).2.f ∧ pending (fflush w).2.f = [] ∧ Kept w (fflush w).2 ∧
      (Follows w t → (fflush w).2.failed = false → Follows (fflush w).2 t) := by
  by_cases hc : w.f.nbf = false ∧ w.f.wrt ∧ w.f.base ∧ 0 < w.f.ptr
  · have hnbf := hc.1
    have hbase := hc.2.2.1
    have hshape := emptied_shape h hnbf hbase
    have hempty : pending (emptied w.f) = [] := pending_some hnbf hbase
    have hkept := write_kept w (emptied w.f) (upto w.f w.f.ptr)
    have hfile := write_f { w with f := emptied w.f } (upto w.f w.f.ptr)
    have hpend := pending_some hnbf hbase
    rw [fflush_write hc]
    split
    · next hne =>
      dsimp only
      rw [hfile]
      refine ⟨⟨⟨hshape.wrt, hshape.read, hshape.rw, hshape.strg⟩, hshape.none, hshape.room⟩, hempty,
        ⟨hkept.pipe, hkept.failed⟩, fun _ hfail => ?_⟩
      obtain ⟨-, -, hw⟩ := write_ok hfail
      rw [hw, upto_length] at hne
      exact absurd rfl hne
    · dsimp only
      rw [hfile]
      refine ⟨hshape, hempty, hkept, fun hfol hfail => ?_⟩
      rw [← hpend] at hfail ⊢
      exact hfol.written hfail hempty
  · have hw : fflush w = (0, w) := if_neg hc
    rw [hw]
    refine ⟨h, ?_, ⟨rfl, id⟩, fun hfol _ => hfol⟩
    by_cases hn : w.f.nbf = false ∧ w.f.base = true
    · have hptr : w.f.ptr = 0 := by
        by_contra hp
        exact hc ⟨hn.1, h.wrt, hn.2, by omega⟩
      rw [pending_some hn.1 hn.2, hptr]
      rfl
    · exact if_neg hn

/-! ## `putc` -/

/-- The state after `c` has been put. -/
structure Put (e : Env) (c : Int) (w : World) (t : Want) (w' : World) : Prop where
  shape : Shape w'.f
  kept : Kept w w'
  follows : w'.failed = false → Follows w' (t.step e w.d.pipe (.putc c))

variable {c : Int}

theorem Put.end {w' : World} (h : Put e c w t w') (rn n : Int) :
    Put e c w t (flsbufEnd c rn n w').2 := by
  unfold flsbufEnd
  split
  · obtain ⟨⟨hout, hnone, hroom⟩, hkept, hfol⟩ := h
    refine ⟨⟨⟨hout.wrt, hout.read, hout.rw, hout.strg⟩, hnone, hroom⟩, ⟨hkept.pipe, hkept.failed⟩,
      fun hfail => ?_⟩
    exact ⟨(hfol hfail).out, (hfol hfail).pos⟩
  · exact h

/-- A buffer with one character. -/
theorem first_put {v : World} (hout : Output v.f) (hnbf : v.f.nbf = false)
    (hbase : v.f.base = true) (hkept : Kept w v)
    (hfol : v.failed = false → t.out = v.d.got ∧ t.pos = v.d.off) :
    Put e c w t (first c v) := by
  refine ⟨⟨⟨hout.wrt, hout.read, hout.rw, hout.strg⟩, fun hn => ?_, fun _ _ => Or.inr ⟨?_, rfl⟩⟩,
    ⟨hkept.pipe, hkept.failed⟩, fun hfail => ?_⟩
  · rcases hn with hn | hn
    · exact absurd (hnbf.symm.trans hn) (by decide)
    · exact absurd (hbase.symm.trans hn) (by decide)
  · change (0 : Int) ≤ 512 - 1
    decide
  · obtain ⟨hgot, hpos⟩ := hfol hfail
    have hpend : pending (first c v).f = [char c] :=
      (pending_some (show (first c v).f.nbf = false from hnbf) hbase).trans rfl
    refine ⟨?_, ?_⟩
    · rw [hpend]
      change t.out ++ [(t.pos, char c)] = v.d.got ++ [(v.d.off, char c)]
      rw [hgot, hpos]
    · rw [hpend]
      change t.pos + 1 = v.d.off + 1
      rw [hpos]

/-- `w` with another `_cnt`. -/
def withCnt (n : Int) (w : World) : World := { w with f := { w.f with cnt := n } }

theorem tryagain_nbf {v : World} (h : v.f.nbf = true) (k : Nat) :
    tryagain e c (k + 1) v =
      some (flsbufEnd c 1 (write v [char c]).1 (withCnt 0 (write v [char c]).2)) :=
  if_pos h

/-- An unbuffered character. -/
theorem nbf_put {v : World} (hout : Output v.f) (hnbf : v.f.nbf = true) (hkept : Kept w v)
    (hfol : v.failed = false → t.out = v.d.got ∧ t.pos = v.d.off) :
    Put e c w t (withCnt 0 (write v [char c]).2) := by
  have hfile := write_f v [char c]
  have hwrite := write_kept v v.f [char c]
  have hpend : pending (withCnt 0 (write v [char c]).2).f = [] := by
    unfold withCnt
    rw [hfile]
    exact pending_none (Or.inl hnbf)
  refine ⟨?_, ⟨hwrite.pipe.trans hkept.pipe, fun h => hwrite.failed (hkept.failed h)⟩,
    fun hfail => ?_⟩
  · unfold withCnt
    rw [hfile]
    exact ⟨⟨hout.wrt, hout.read, hout.rw, hout.strg⟩, fun _ => rfl,
      fun h => absurd (hnbf.symm.trans h) (by decide)⟩
  · obtain ⟨-, hv, hw⟩ := write_ok hfail
    obtain ⟨hgot, hpos⟩ := hfol hv
    refine ⟨?_, ?_⟩
    · rw [hpend, hw]
      change t.out ++ [(t.pos, char c)] = v.d.got ++ [(v.d.off, char c)] ++ []
      rw [hgot, hpos, List.append_nil]
    · rw [hpend, hw]
      change t.pos + 1 = v.d.off + 1 + 0
      rw [hpos, add_zero]

/-- `w` with `_ptr` at `_base`. -/
def rewound (w : World) : World := { w with f := { w.f with ptr := 0 } }

theorem tryagain_buffer {v : World} (hnbf : v.f.nbf = false) (hbase : v.f.base = true) (k : Nat) :
    tryagain e c (k + 1) v =
      if 0 < v.f.ptr then
        some (flsbufEnd c v.f.ptr (write (rewound v) (upto v.f v.f.ptr)).1
          (first c (write (rewound v) (upto v.f v.f.ptr)).2))
      else some (flsbufEnd c 0 0 (first c v)) := by
  rw [tryagain, if_neg (by rw [hnbf]; decide), if_neg (by rw [hbase]; decide)]
  rfl

theorem tryagain_full {v : World} (hnbf : v.f.nbf = false) (hbase : v.f.base = true)
    (hptr : 0 < v.f.ptr) (k : Nat) :
    tryagain e c (k + 1) v =
      some (flsbufEnd c v.f.ptr (write (rewound v) (upto v.f v.f.ptr)).1
        (first c (write (rewound v) (upto v.f v.f.ptr)).2)) := by
  rw [tryagain_buffer hnbf hbase, if_pos hptr]

theorem tryagain_fresh {v : World} (hnbf : v.f.nbf = false) (hbase : v.f.base = true)
    (hptr : ¬0 < v.f.ptr) (k : Nat) :
    tryagain e c (k + 1) v = some (flsbufEnd c 0 0 (first c v)) := by
  rw [tryagain_buffer hnbf hbase, if_neg hptr]

/-- A character for a buffer that is fresh or full. -/
theorem tryagain_base {v : World} (hout : Output v.f) (hnbf : v.f.nbf = false)
    (hbase : v.f.base = true) (hkept : Kept w v) (hfol : v.failed = false → Follows v t) (k : Nat) :
    ∃ r, tryagain e c (k + 1) v = some r ∧ Put e c w t r.2 := by
  have hpend := pending_some hnbf hbase
  by_cases hptr : 0 < v.f.ptr
  · refine ⟨_, tryagain_full hnbf hbase hptr k, Put.end ?_ _ _⟩
    have hfile := write_f (rewound v) (upto v.f v.f.ptr)
    have hwrite := write_kept v (rewound v).f (upto v.f v.f.ptr)
    refine first_put ?_ ?_ ?_
      ⟨hwrite.pipe.trans hkept.pipe, fun h => hwrite.failed (hkept.failed h)⟩ fun hfail => ?_
    · rw [hfile]
      exact ⟨hout.wrt, hout.read, hout.rw, hout.strg⟩
    · rw [hfile]
      exact hnbf
    · rw [hfile]
      exact hbase
    · obtain ⟨-, hv, hw⟩ := write_ok hfail
      have h := hfol hv
      rw [hw]
      refine ⟨?_, ?_⟩
      · rw [h.out, hpend]
        rfl
      · rw [h.pos, hpend]
        rfl
  · refine ⟨_, tryagain_fresh hnbf hbase hptr k, Put.end ?_ _ _⟩
    refine first_put hout hnbf hbase hkept fun hfail => ?_
    have h := hfol hfail
    have hempty : pending v.f = [] := by
      rw [hpend, show v.f.ptr = 0 by omega]
      rfl
    refine ⟨?_, ?_⟩
    · rw [h.out, hempty]
      exact List.append_nil _
    · rw [h.pos, hempty]
      exact add_zero _

/-- A character for a stream without a buffer as yet. -/
theorem tryagain_none {v : World} (hout : Output v.f) (hnbf : v.f.nbf = false)
    (hbase : v.f.base = false) (hkept : Kept w v) (hfol : v.failed = false → Follows v t) (k : Nat) :
    ∃ r, tryagain e c (k + 2) v = some r ∧ Put e c w t r.2 := by
  have hstart : v.failed = false → t.out = v.d.got ∧ t.pos = v.d.off := by
    intro hfail
    have h := hfol hfail
    have hempty := pending_none (f := v.f) (Or.inr hbase)
    refine ⟨?_, ?_⟩
    · rw [h.out, hempty]
      exact List.append_nil _
    · rw [h.pos, hempty]
      exact add_zero _
  rw [tryagain, if_neg (by rw [hnbf]; decide), if_pos hbase]
  by_cases hstdout : e.stdout = true
  · rw [if_pos hstdout]
    by_cases htty : e.tty = true
    · rw [if_pos htty, tryagain_nbf rfl]
      refine ⟨_, rfl, Put.end (nbf_put ?_ rfl ?_ ?_) _ _⟩
      · exact ⟨hout.wrt, hout.read, hout.rw, hout.strg⟩
      · exact ⟨hkept.pipe, hkept.failed⟩
      · exact hstart
    · rw [if_neg htty]
      refine tryagain_base ?_ ?_ ?_ ?_ (fun hfail => ?_) k
      · exact ⟨hout.wrt, hout.read, hout.rw, hout.strg⟩
      · exact hnbf
      · rfl
      · exact ⟨hkept.pipe, hkept.failed⟩
      · obtain ⟨hgot, hpos⟩ := hstart hfail
        have hempty : pending ({ v.f with
            base := true
            ptr := 0 } : Iobuf) = [] := pending_some hnbf rfl
        refine ⟨?_, ?_⟩
        · rw [hempty, hgot]
          exact (List.append_nil _).symm
        · rw [hempty, hpos]
          exact (add_zero _).symm
  · rw [if_neg hstdout]
    by_cases hroom : e.room = false
    · rw [if_pos hroom, tryagain_nbf rfl]
      refine ⟨_, rfl, Put.end (nbf_put ?_ rfl ?_ ?_) _ _⟩
      · exact ⟨hout.wrt, hout.read, hout.rw, hout.strg⟩
      · exact ⟨hkept.pipe, hkept.failed⟩
      · exact hstart
    · rw [if_neg hroom]
      refine ⟨_, rfl, Put.end (first_put ?_ ?_ rfl ?_ ?_) _ _⟩
      · exact ⟨hout.wrt, hout.read, hout.rw, hout.strg⟩
      · exact hnbf
      · exact ⟨hkept.pipe, hkept.failed⟩
      · exact hstart

/-- The stream after a byte has been stored. -/
def stored (c : Int) (f : Iobuf) : Iobuf :=
  { f with
    cnt := f.cnt - 1
    mem := update f.mem f.ptr (char c)
    ptr := f.ptr + 1 }

theorem stored_pending {f : Iobuf} (hnbf : f.nbf = false) (hbase : f.base = true) :
    pending (stored c f) = pending f ++ [char c] := by
  have hnbf' : (stored c f).nbf = false := hnbf
  rw [pending_some hnbf' hbase, pending_some hnbf hbase]
  unfold upto stored
  dsimp only
  rw [List.range_succ, List.map_append, List.map_cons, List.map_nil, update_self]
  congr 1
  refine List.map_congr_left fun i hi => update_of_ne ?_ _ _
  rw [List.mem_range] at hi
  omega

/-- A character for a buffer with room. -/
theorem store_put (h : Shape w.f) (hnbf : w.f.nbf = false) (hbase : w.f.base = true)
    (hcnt : 1 ≤ w.f.cnt) (hfol : w.failed = false → Follows w t) :
    ∃ r, putc e c w = some r ∧ Put e c w t r.2 := by
  have hroom := h.room hnbf hbase
  have hptr : w.f.ptr < BUFSIZ := by
    change w.f.ptr < 512
    omega
  have hput : putc e c w =
      some ((char c).toInt8.toInt, { w with f := stored c w.f }) := by
    unfold putc
    dsimp only
    rw [if_pos (by omega), if_pos ⟨hbase, hptr⟩]
    rfl
  refine ⟨_, hput, ⟨⟨h.wrt, h.read, h.rw, h.strg⟩, fun hn => ?_, fun _ _ => Or.inr ⟨?_, ?_⟩⟩,
    ⟨rfl, id⟩, fun hfail => ?_⟩
  · rcases hn with hn | hn
    · exact absurd (hnbf.symm.trans hn) (by decide)
    · exact absurd (hbase.symm.trans hn) (by decide)
  · change 0 ≤ w.f.cnt - 1
    omega
  · change w.f.cnt - 1 + ((w.f.ptr + 1 : ℕ) : Int) = 512
    push_cast
    omega
  · have hf := hfol hfail
    refine ⟨?_, ?_⟩
    · dsimp only
      rw [stored_pending hnbf hbase, placed_append, ← List.append_assoc, ← hf.out]
      change t.out ++ [(t.pos, char c)] = t.out ++ [(w.d.off + (pending w.f).length, char c)]
      rw [hf.pos]
    · dsimp only
      rw [stored_pending hnbf hbase, List.length_append]
      change t.pos + 1 = _
      rw [hf.pos]
      push_cast
      rw [add_assoc]
      rfl

theorem putc_spec (h : Shape w.f) (hfol : w.failed = false → Follows w t) :
    ∃ r, putc e c w = some r ∧ Put e c w t r.2 := by
  by_cases hstore : (w.f.nbf = false ∧ w.f.base = true) ∧ 1 ≤ w.f.cnt
  · exact store_put h hstore.1.1 hstore.1.2 hstore.2 hfol
  · have hcnt : w.f.cnt = 0 := by
      by_cases hb : w.f.nbf = false ∧ w.f.base = true
      · have hfull : ¬1 ≤ w.f.cnt := fun hge => hstore ⟨hb, hge⟩
        rcases h.room hb.1 hb.2 with hr | hr
        · exact hr.2
        · omega
      · refine h.none ?_
        cases hnbf : w.f.nbf
        · right
          cases hbase : w.f.base
          · rfl
          · exact absurd ⟨hnbf, hbase⟩ hb
        · exact Or.inl rfl
    have hflsbuf : putc e c w = tryagain e c 2 (withCnt (w.f.cnt - 1) w) := by
      unfold putc
      dsimp only
      rw [if_neg (by omega)]
      unfold flsbuf
      dsimp only
      rw [if_neg (by rw [h.rw]; decide)]
      rfl
    have hout : Output (withCnt (w.f.cnt - 1) w).f := ⟨h.wrt, h.read, h.rw, h.strg⟩
    have hkept : Kept w (withCnt (w.f.cnt - 1) w) := ⟨rfl, id⟩
    have hfol' : (withCnt (w.f.cnt - 1) w).failed = false → Follows (withCnt (w.f.cnt - 1) w) t :=
      fun hfail => ⟨(hfol hfail).out, (hfol hfail).pos⟩
    rw [hflsbuf]
    cases hnbf : w.f.nbf with
    | true =>
      refine ⟨_, tryagain_nbf (show (withCnt (w.f.cnt - 1) w).f.nbf = true from hnbf) 1,
        Put.end (nbf_put hout hnbf hkept fun hfail => ?_) _ _⟩
      have hf := hfol hfail
      have hempty := pending_none (f := w.f) (Or.inl hnbf)
      refine ⟨?_, ?_⟩
      · rw [hf.out, hempty]
        exact List.append_nil _
      · rw [hf.pos, hempty]
        exact add_zero _
    | false =>
      cases hbase : w.f.base with
      | true => exact tryagain_base hout hnbf hbase hkept hfol' 1
      | false => exact tryagain_none hout hnbf hbase hkept hfol' 0

/-! ## `fseek`, `fclose` and `ftell` -/

theorem lseek_pipe (d : Desc) (offset whence : Int) :
    (lseek e d offset whence).2.pipe = d.pipe ∧ (lseek e d offset whence).2.got = d.got := by
  unfold lseek
  split
  · exact ⟨rfl, rfl⟩
  · exact ⟨rfl, rfl⟩

/-- `w` without the end-of-file flag. -/
def noEof (w : World) : World := { w with f := { w.f with eof := false } }

theorem noEof_shape (h : Shape w.f) : Shape (noEof w).f :=
  ⟨⟨h.wrt, h.read, h.rw, h.strg⟩, h.none, h.room⟩

theorem fflush_output (h : Output w.f) : Output (fflush w).2.f := by
  by_cases hc : w.f.nbf = false ∧ w.f.wrt ∧ w.f.base ∧ 0 < w.f.ptr
  · rw [fflush_write hc]
    have hfile := write_f { w with f := emptied w.f } (upto w.f w.f.ptr)
    split
    · dsimp only
      rw [hfile]
      exact ⟨h.wrt, h.read, h.rw, h.strg⟩
    · dsimp only
      rw [hfile]
      exact ⟨h.wrt, h.read, h.rw, h.strg⟩
  · have hw : fflush w = (0, w) := if_neg hc
    rw [hw]
    exact h

/-- `fseek` on an output stream flushes, and moves the descriptor. -/
theorem fseek_output (h : Output w.f) (offset whence : Int) :
    (fseek e offset whence w).2 =
      { (fflush (noEof w)).2 with d := (lseek e (fflush (noEof w)).2.d offset whence).2 } := by
  have hrw : (fflush (noEof w)).2.f.rw = false :=
    (fflush_output (w := noEof w) ⟨h.wrt, h.read, h.rw, h.strg⟩).rw
  unfold fseek
  dsimp only
  rw [if_neg (by rw [h.read]; decide), if_pos (Or.inl h.wrt)]
  change (_ : World) = _
  rw [show (noEof w) = { w with f := { w.f with eof := false } } from rfl] at hrw ⊢
  rw [if_neg (by rw [hrw]; decide)]

/-- A closed stream. -/
structure Closed (f : Iobuf) : Prop where
  nbf : f.nbf = false
  wrt : f.wrt = false
  read : f.read = false
  rw : f.rw = false
  empty : pending f = []

/-- A stream and what is wanted of it, open or closed. -/
structure Tracks (w : World) (t : Want) : Prop where
  shape : t.isOpen = true → Shape w.f
  closed : t.isOpen = false → Closed w.f
  follows : w.failed = false → Follows w t

theorem lseek_follows {w : World} (hopen : t.isOpen = true) (h : Follows w t)
    (hempty : pending w.f = []) (offset whence : Int) :
    Follows { w with d := (lseek e w.d offset whence).2 }
      (t.step e w.d.pipe (.fseek offset whence)) := by
  have hout : t.out = w.d.got := by
    rw [h.out, hempty]
    exact List.append_nil _
  have hpos : t.pos = w.d.off := by
    rw [h.pos, hempty]
    exact add_zero _
  by_cases hpipe : w.d.pipe = true
  · have hseek : (lseek e w.d offset whence).2 = w.d := by
      unfold lseek
      rw [if_pos hpipe]
    have hwant : t.step e w.d.pipe (.fseek offset whence) = t := if_pos (Or.inr hpipe)
    rw [hseek, hwant]
    exact h
  · have hseek : (lseek e w.d offset whence).2 = { w.d with
        off := if whence = 1 then offset + w.d.off
          else if whence = 2 then offset + e.size w.d.got else offset } := by
      unfold lseek
      rw [if_neg hpipe]
    have hwant : t.step e w.d.pipe (.fseek offset whence) = { t with
        pos := if whence = 1 then t.pos + offset
          else if whence = 2 then e.size t.out + offset else offset } := by
      refine if_neg ?_
      rintro (hclosed | hp)
      · exact absurd (hopen.symm.trans hclosed) (by decide)
      · exact hpipe hp
    rw [hseek, hwant]
    refine ⟨?_, ?_⟩
    · dsimp only
      rw [hempty, hout]
      exact (List.append_nil _).symm
    · dsimp only
      rw [hempty, hout, hpos, List.length_nil, Nat.cast_zero, add_zero, add_comm offset,
        add_comm offset]

/-- `fseek` on an open stream. -/
theorem fseek_spec (h : Shape w.f) (hopen : t.isOpen = true) (offset whence : Int)
    (hfol : w.failed = false → Follows w t) :
    Shape (fseek e offset whence w).2.f ∧ Kept w (fseek e offset whence w).2 ∧
      ((fseek e offset whence w).2.failed = false →
        Follows (fseek e offset whence w).2 (t.step e w.d.pipe (.fseek offset whence))) := by
  obtain ⟨hshape, hempty, hkept, hflush⟩ := fflush_spec (t := t) (noEof_shape h)
  have hpipe : (fflush (noEof w)).2.d.pipe = w.d.pipe := hkept.pipe
  rw [fseek_output h.toOutput]
  refine ⟨hshape, ⟨(lseek_pipe _ _ _).1.trans hpipe, hkept.failed⟩, fun hfail => ?_⟩
  have hw := hkept.before hfail
  rw [← hpipe]
  exact lseek_follows hopen (hflush ⟨(hfol hw).out, (hfol hw).pos⟩ hfail) hempty offset whence

/-- The fields that `fclose` resets. -/
def cleared (f : Iobuf) : Iobuf :=
  { f with
    read := false
    wrt := false
    nbf := false
    mybuf := false
    err := false
    eof := false
    strg := false
    rw := false
    cnt := 0 }

theorem cleared_pending {f : Iobuf} (h : f.nbf = false) : pending (cleared f) = pending f := by
  unfold pending
  rw [h]
  rfl

/-- The stream that `fclose` leaves. -/
def released (f : Iobuf) : Iobuf :=
  cleared { f with base := if f.mybuf ∨ f.nbf then false else f.base }

theorem fclose_output (h : Output w.f) :
    (fclose w).2 = { (fflush w).2 with f := released (fflush w).2.f } := by
  unfold fclose
  rw [if_pos ⟨Or.inr (Or.inl h.wrt), h.strg⟩]
  dsimp only
  unfold released
  split
  · rfl
  · rfl

theorem released_closed {f : Iobuf} (h : pending f = []) : Closed (released f) := by
  refine ⟨rfl, rfl, rfl, rfl, ?_⟩
  by_cases hown : f.mybuf ∨ f.nbf
  · exact pending_none (Or.inr (if_pos hown))
  · have hnbf : f.nbf = false := by
      cases hn : f.nbf
      · rfl
      · exact absurd (Or.inr hn) hown
    have hbase : (released f).base = f.base := if_neg hown
    cases hb : f.base with
    | false => exact pending_none (Or.inr (hbase.trans hb))
    | true =>
      rw [pending_some rfl (hbase.trans hb)]
      rwa [pending_some hnbf hb] at h

/-- `fclose` on an open stream. -/
theorem fclose_spec (h : Shape w.f) (hfol : w.failed = false → Follows w t) :
    Closed (fclose w).2.f ∧ Kept w (fclose w).2 ∧
      ((fclose w).2.failed = false → Follows (fclose w).2 (t.step e w.d.pipe .fclose)) := by
  obtain ⟨-, hempty, hkept, hflush⟩ := fflush_spec (t := t) h
  have hclosed := released_closed hempty
  rw [fclose_output h.toOutput]
  refine ⟨hclosed, ⟨hkept.pipe, hkept.failed⟩, fun hfail => ?_⟩
  have hw := hkept.before hfail
  have hf := hflush (hfol hw) hfail
  refine ⟨?_, ?_⟩
  · dsimp only
    rw [hclosed.empty, ← hempty]
    exact hf.out
  · dsimp only
    rw [hclosed.empty, ← hempty]
    exact hf.pos

/-- The calls on a closed stream. -/
theorem closed_step (h : Closed w.f) (hopen : t.isOpen = false)
    (hfol : w.failed = false → Follows w t) {op : Op} (hop : ∀ c, op ≠ .putc c) :
    ∃ w', step e w op = some w' ∧ Closed w'.f ∧ Kept w w' ∧
      (w'.failed = false → Follows w' (t.step e w.d.pipe op)) := by
  have hflags : ¬((w.f.read ∨ w.f.wrt ∨ w.f.rw) ∧ w.f.strg = false) := by
    rw [h.read, h.wrt, h.rw]
    simp
  cases op with
  | putc c => exact absurd rfl (hop c)
  | fflush =>
    have hw : fflush w = (0, w) := if_neg (by rw [h.wrt]; simp)
    exact ⟨w, congrArg some (congrArg Prod.snd hw), h, ⟨rfl, id⟩, hfol⟩
  | fseek offset whence =>
    refine ⟨noEof w, ?_, ⟨h.nbf, h.wrt, h.read, h.rw, h.empty⟩, ⟨rfl, id⟩, fun hfail => ?_⟩
    · change some (fseek e offset whence w).2 = _
      unfold fseek
      dsimp only
      rw [if_neg (by rw [h.read]; decide), if_neg (by rw [h.wrt, h.rw]; decide)]
      rfl
    · have hf := hfol hfail
      have ht : t.step e w.d.pipe (.fseek offset whence) = t := if_pos (Or.inl hopen)
      rw [ht]
      exact ⟨hf.out, hf.pos⟩
  | fclose =>
    have hw : (fclose w).2 = { w with f := cleared w.f } := by
      unfold fclose
      rw [if_neg hflags]
      rfl
    have hempty := (cleared_pending h.nbf).trans h.empty
    refine ⟨_, congrArg some hw, ⟨rfl, rfl, rfl, rfl, hempty⟩, ⟨rfl, id⟩, fun hfail => ?_⟩
    have hf := hfol hfail
    refine ⟨?_, ?_⟩
    · dsimp only
      rw [hempty, ← h.empty]
      exact hf.out
    · dsimp only
      rw [hempty, ← h.empty]
      exact hf.pos

/-! ## Sequences of calls -/

/-- Only `fclose` closes. -/
theorem step_isOpen (op : Op) (p : Bool) (h : op ≠ .fclose) : (t.step e p op).isOpen = t.isOpen := by
  cases op with
  | putc c => rfl
  | fflush => rfl
  | fseek offset whence =>
    change (ite _ _ _ : Want).isOpen = t.isOpen
    split
    · rfl
    · rfl
  | fclose => exact absurd rfl h

/-- One call. -/
theorem step_tracks (h : Tracks w t) (op : Op) (hop : t.isOpen = false → ∀ c, op ≠ .putc c) :
    ∃ w', step e w op = some w' ∧ Tracks w' (t.step e w.d.pipe op) ∧ Kept w w' := by
  cases hopen : t.isOpen with
  | false =>
    obtain ⟨w', hstep, hclosed, hkept, hfol⟩ :=
      closed_step (e := e) (h.closed hopen) hopen h.follows (hop hopen)
    have hstay : (t.step e w.d.pipe op).isOpen = false := by
      by_cases hop : op = .fclose
      · rw [hop]
        rfl
      · exact (step_isOpen op _ hop).trans hopen
    exact ⟨w', hstep, ⟨fun ho => absurd (hstay.symm.trans ho) (by decide), fun _ => hclosed, hfol⟩,
      hkept⟩
  | true =>
    have hshape := h.shape hopen
    cases op with
    | putc c =>
      obtain ⟨r, hr, hput⟩ := putc_spec (e := e) (c := c) hshape h.follows
      refine ⟨r.2, ?_, ⟨fun _ => hput.shape, fun ho => ?_, hput.follows⟩, hput.kept⟩
      · change (putc e c w).map Prod.snd = _
        rw [hr]
        rfl
      · exact absurd (hopen.symm.trans ho) (by decide)
    | fflush =>
      obtain ⟨hs, -, hkept, hfol⟩ := fflush_spec (t := t) hshape
      refine ⟨_, rfl, ⟨fun _ => hs, fun ho => ?_, fun hfail => ?_⟩, hkept⟩
      · exact absurd (hopen.symm.trans ho) (by decide)
      · exact hfol (h.follows (hkept.before hfail)) hfail
    | fseek offset whence =>
      obtain ⟨hs, hkept, hfol⟩ := fseek_spec (e := e) hshape hopen offset whence h.follows
      refine ⟨_, rfl, ⟨fun _ => hs, fun ho => ?_, hfol⟩, hkept⟩
      have hstay := step_isOpen (e := e) (t := t) (.fseek offset whence) w.d.pipe (by simp)
      exact absurd ((hstay.trans hopen).symm.trans ho) (by decide)
    | fclose =>
      obtain ⟨hs, hkept, hfol⟩ := fclose_spec (e := e) hshape h.follows
      exact ⟨_, rfl, ⟨fun ho => Bool.noConfusion ho, fun _ => hs, hfol⟩, hkept⟩

/-- Any sequence of calls. -/
theorem run_tracks (ops : List Op) (h : Tracks w t) (hput : PutsOpen ops)
    (hclosed : t.isOpen = false → ∀ c, .putc c ∉ ops) :
    ∃ w', run e ops w = some w' ∧ Tracks w' (ops.foldl (Want.step e w.d.pipe) t) ∧ Kept w w' := by
  induction ops generalizing w t with
  | nil => exact ⟨w, rfl, h, rfl, id⟩
  | cons op ops ih =>
    obtain ⟨v, hstep, hv, hkept⟩ := step_tracks (e := e) h op
      fun ho c hc => hclosed ho c (hc ▸ List.mem_cons_self)
    have htail : PutsOpen ops := fun l₁ l₂ c hl => hput (op :: l₁) l₂ c (by rw [hl]; rfl)
    have hlater : (t.step e w.d.pipe op).isOpen = false → ∀ c, .putc c ∉ ops := by
      intro ho c hc
      by_cases hop : op = .fclose
      · exact hput [] ops c (by rw [hop]; rfl) hc
      · exact hclosed ((step_isOpen op _ hop).symm.trans ho) c (List.mem_cons_of_mem op hc)
    obtain ⟨w', hrun, hw', hkept'⟩ := ih hv htail hlater
    refine ⟨w', ?_, ?_, hkept.trans hkept'⟩
    · unfold run at hrun ⊢
      rw [List.foldlM_cons, hstep]
      exact hrun
    · rw [hkept.pipe] at hw'
      exact hw'

/-- After `fflush` or `fclose` nothing is in the buffer. -/
theorem flush_empties (h : Tracks w t) {op : Op} (hop : op = .fflush ∨ op = .fclose) {w' : World}
    (hstep : step e w op = some w') : pending w'.f = [] := by
  cases hopen : t.isOpen with
  | true =>
    have hshape := h.shape hopen
    obtain ⟨-, hempty, -, -⟩ := fflush_spec (t := t) hshape
    rcases hop with rfl | rfl
    · rw [← Option.some.inj hstep]
      exact hempty
    · rw [← Option.some.inj hstep, fclose_output hshape.toOutput]
      exact (released_closed hempty).empty
  | false =>
    have hput : ∀ c, op ≠ .putc c := by
      rcases hop with rfl | rfl
      · exact fun c => by simp
      · exact fun c => by simp
    obtain ⟨v, hv, hclosed, -, -⟩ := closed_step (e := e) (h.closed hopen) hopen h.follows hput
    rw [hstep] at hv
    rw [Option.some.inj hv]
    exact hclosed.empty

theorem Follows.flushed (h : Follows w t) (hempty : pending w.f = []) : w.d.got = t.out := by
  rw [h.out, hempty]
  exact (List.append_nil _).symm

/-- `ftell` on an output stream. -/
theorem ftell_output (h : Shape w.f) (hpipe : w.d.pipe = false) :
    (ftell e w).1 = w.d.off + (if w.d.off < 0 then 0 else (pending w.f).length) := by
  have hcnt : ¬w.f.cnt < 0 := by
    by_cases hb : w.f.nbf = false ∧ w.f.base = true
    · have := h.room hb.1 hb.2
      omega
    · have := h.none (by
        cases hnbf : w.f.nbf
        · exact Or.inr (by simpa [hnbf] using hb)
        · exact Or.inl rfl)
      omega
  have htell : (lseek e w.d 0 1).1 = w.d.off := by
    unfold lseek
    rw [if_neg (by rw [hpipe]; decide)]
    exact zero_add _
  have hadjust : (if w.f.wrt ∧ w.f.base ∧ w.f.nbf = false then (w.f.ptr : Int) else 0) =
      (pending w.f).length := by
    unfold pending
    rw [h.wrt]
    by_cases hb : w.f.nbf = false ∧ w.f.base = true
    · rw [if_pos ⟨rfl, hb.2, hb.1⟩, if_pos hb, upto_length]
    · rw [if_neg fun hc => hb ⟨hc.2.2, hc.2.1⟩, if_neg hb]
      rfl
  unfold ftell
  dsimp only
  rw [if_neg hcnt, if_neg (by rw [h.read]; decide), if_pos (Or.inl h.wrt), htell, hadjust]
  split
  · exact (add_zero _).symm
  · rfl

theorem tracks_tell (h : Tracks w t) (hopen : t.isOpen = true) (hpipe : w.d.pipe = false)
    (hflush : (fflush w).2.failed = false) : (ftell e w).1 = t.pos := by
  have hshape := h.shape hopen
  obtain ⟨-, -, hkept, -⟩ := fflush_spec (t := t) hshape
  have hf := h.follows (hkept.before hflush)
  rw [ftell_output hshape hpipe, hf.pos]
  by_cases hoff : w.d.off < 0
  · -- what is in the buffer could not be written
    by_cases hc : w.f.nbf = false ∧ w.f.wrt ∧ w.f.base ∧ 0 < w.f.ptr
    · rw [fflush_write hc] at hflush
      have hfails : (write { w with f := emptied w.f } (upto w.f w.f.ptr)).2.failed = true := by
        unfold write
        rw [if_pos hoff]
      split at hflush
      · exact absurd (hfails.symm.trans hflush) (by decide)
      · exact absurd (hfails.symm.trans hflush) (by decide)
    · have hw : fflush w = (0, w) := if_neg hc
      have hempty := (fflush_spec (t := t) hshape).2.1
      rw [hw] at hempty
      rw [if_pos hoff, hempty]
      rfl
  · rw [if_neg hoff]

/-! ## What is delivered -/

/-- The stream that is opened has nothing in its buffer. -/
def Fresh (f : Iobuf) : Prop := f.nbf = true ∨ f.base = false ∨ f.ptr = 0

theorem opened_pending (hfresh : Fresh w.f) : pending w.f = [] := by
  by_cases hb : w.f.nbf = false ∧ w.f.base = true
  · have hptr : w.f.ptr = 0 := by
      rcases hfresh with hn | hn | hn
      · exact absurd (hb.1.symm.trans hn) (by decide)
      · exact absurd (hb.2.symm.trans hn) (by decide)
      · exact hn
    rw [pending_some hb.1 hb.2, hptr]
    rfl
  · exact if_neg hb

theorem opened_tracks (h : Opened w) (hfresh : Fresh w.f) :
    Tracks w ⟨w.d.off, w.d.got, true⟩ := by
  have hempty := opened_pending hfresh
  refine ⟨fun _ => ⟨h.toOutput, fun _ => h.cnt, fun hnbf hbase => Or.inl ⟨?_, h.cnt⟩⟩,
    fun ho => Bool.noConfusion ho, fun _ => ⟨?_, ?_⟩⟩
  · rcases hfresh with hn | hn | hn
    · exact absurd (hnbf.symm.trans hn) (by decide)
    · exact absurd (hbase.symm.trans hn) (by decide)
    · exact hn
  · rw [hempty]
    exact (List.append_nil _).symm
  · rw [hempty]
    exact (add_zero _).symm

theorem PutsOpen.of_append {l l' : List Op} (h : PutsOpen (l ++ l')) : PutsOpen l := by
  intro l₁ l₂ c hl hc
  exact h l₁ (l₂ ++ l') c (by rw [hl, List.append_assoc, List.cons_append])
    (List.mem_append_left l' hc)

/-- All is delivered when the buffer is empty at first. -/
theorem fresh_delivers (h : Opened w) (hfresh : Fresh w.f) : AllDelivered e w := by
  intro ops hput
  have hstart := opened_tracks h hfresh
  obtain ⟨w', hrun, htracks, hkept⟩ := run_tracks (e := e) ops hstart hput
    fun ho => Bool.noConfusion ho
  refine ⟨w', hrun, fun hfail => ⟨?_, fun hlast => ?_, fun hopen hpipe hflush => ?_⟩⟩
  · exact ⟨_, (htracks.follows hfail).out.symm⟩
  · refine (htracks.follows hfail).flushed ?_
    obtain ⟨op, hop, ys, rfl⟩ : ∃ op, (op = .fflush ∨ op = .fclose) ∧ ∃ ys, ops = ys ++ [op] := by
      rcases hlast with hlast | hlast
      · exact ⟨_, Or.inl rfl, List.getLast?_eq_some_iff.1 hlast⟩
      · exact ⟨_, Or.inr rfl, List.getLast?_eq_some_iff.1 hlast⟩
    obtain ⟨v, hv, hvt, -⟩ := run_tracks (e := e) ys hstart hput.of_append
      fun ho => Bool.noConfusion ho
    refine flush_empties (e := e) hvt hop ?_
    unfold run at hrun hv
    rw [List.foldlM_append, hv] at hrun
    simpa using hrun
  · exact tracks_tell htracks hopen (hkept.pipe.trans hpipe) hflush

/-- What was in the buffer already is written by the first flush. -/
theorem stale_flush (h : Opened w) (hfresh : ¬Fresh w.f) :
    step e w .fflush = some (fflush w).2 ∧ (fflush w).2.failed = false ∧
      (fflush w).2.d.got = w.d.got ++ placed w.d.off (upto w.f w.f.ptr) ∧ 0 < w.f.ptr := by
  have hc : w.f.nbf = false ∧ w.f.wrt ∧ w.f.base ∧ 0 < w.f.ptr := by
    unfold Fresh at hfresh
    push Not at hfresh
    refine ⟨by simpa using hfresh.1, h.wrt, by simpa using hfresh.2.1, ?_⟩
    exact Nat.pos_of_ne_zero hfresh.2.2
  have hoff : ¬w.d.off < 0 := not_lt.2 h.off
  have hwrite : write { w with f := emptied w.f } (upto w.f w.f.ptr) =
      (((upto w.f w.f.ptr).length : Int), { w with
        f := emptied w.f
        d := { w.d with
          off := w.d.off + (upto w.f w.f.ptr).length
          got := w.d.got ++ placed w.d.off (upto w.f w.f.ptr) } }) := by
    unfold write
    rw [if_neg hoff]
  refine ⟨rfl, ?_⟩
  rw [fflush_write hc, hwrite, upto_length, if_neg (by simp)]
  exact ⟨h.failed, rfl, hc.2.2.2⟩

/-- A stream delivers what is put to it, in every sequence of calls, exactly when it has no buffer
at its opening or `_ptr` is at the start of it. -/
theorem stream_iff (h : Opened w) :
    AllDelivered e w ↔ w.f.nbf = true ∨ w.f.base = false ∨ w.f.ptr = 0 := by
  refine ⟨fun hall => ?_, fun hfresh => fresh_delivers h hfresh⟩
  by_contra hfresh
  obtain ⟨hstep, hfail, hgot, hptr⟩ := stale_flush (e := e) h hfresh
  obtain ⟨w', hrun, hdel⟩ := hall [.fflush] fun l₁ l₂ c hl => by
    cases l₁ with
    | nil => simp at hl
    | cons op l₁ => simp at hl
  have hw : w' = (fflush w).2 := by
    unfold run at hrun
    rw [List.foldlM_cons, hstep] at hrun
    simpa using hrun.symm
  subst hw
  have hlen := (hdel hfail).got.length_le
  have hwant : (want e [.fflush] w).out = w.d.got := rfl
  rw [hwant, hgot, List.length_append, placed_length, upto_length] at hlen
  omega

/-- A new file, opened in a place that has no buffer. -/
def newFile : World where
  f := endopen {
    ptr := 0
    cnt := 0
    base := false
    mem := fun _ => 0
    read := false
    wrt := false
    nbf := false
    mybuf := false
    eof := false
    err := false
    strg := false
    rw := false }
  d := ⟨false, 0, []⟩
  failed := false

def fileEnv : Env := ⟨false, false, true, fun l => l.length⟩

theorem stream_iff_newFile :
    (Opened newFile ∧ newFile.f.base = false) ∧ AllDelivered fileEnv newFile := by
  have h : Opened newFile := ⟨⟨rfl, rfl, rfl, rfl⟩, rfl, le_refl 0, rfl⟩
  exact ⟨⟨h, rfl⟩, (stream_iff h).2 (Or.inr (Or.inl rfl))⟩

/-- `stdin` after one `getc` of the input `ab`. -/
def stdinRead : Iobuf :=
  (getc [97, 98] {
    ptr := 0
    cnt := 0
    base := true
    mem := fun _ => 0
    read := true
    wrt := false
    nbf := false
    mybuf := false
    eof := false
    err := false
    strg := false
    rw := false }).2

/-- The file that is opened for writing after `fclose(stdin)`: its stream is that of `stdin`. -/
def reopened : World where
  f := endopen (fclose ⟨stdinRead, ⟨true, 2, []⟩, false⟩).2.f
  d := ⟨false, 0, []⟩
  failed := false

/-- `putc('x')` and `fclose` write the letter that was read before it. -/
theorem stream_stdin : Opened reopened ∧
    (run fileEnv [.putc 120, .fclose] reopened).map (fun w => (w.failed, w.d.got)) =
      some (false, [(0, 97), (1, 120)]) ∧
    (want fileEnv [.putc 120, .fclose] reopened).out = [(0, 120)] ∧
    ¬AllDelivered fileEnv reopened := by
  have hrun : (run fileEnv [.putc 120, .fclose] reopened).map (fun w => (w.failed, w.d.got)) =
      some (false, [(0, 97), (1, 120)]) := by decide
  have hwant : (want fileEnv [.putc 120, .fclose] reopened).out = [(0, 120)] := by decide
  refine ⟨⟨⟨rfl, rfl, rfl, rfl⟩, rfl, le_refl 0, rfl⟩, hrun, hwant, fun hall => ?_⟩
  obtain ⟨w', hw', hdel⟩ := hall [.putc 120, .fclose] fun l₁ l₂ c hl => by
    match l₁ with
    | [] => simp at hl
    | [_] =>
      simp only [List.cons_append, List.nil_append, List.cons.injEq] at hl
      rw [← hl.2.2]
      exact List.not_mem_nil
    | _ :: _ :: _ => simp at hl
  rw [hw', Option.map_some, Option.some.injEq, Prod.mk.injEq] at hrun
  have hgot := (hdel hrun.1).flushed (Or.inr rfl)
  rw [hwant, hrun.2] at hgot
  exact absurd hgot (by decide)

end Venix.Stdio
