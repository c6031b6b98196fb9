/-
  What an input stream gives, over any sequence of calls.

  Between two calls the characters at `_ptr` are those that have been pushed back, and after them
  the file's up to the offset of the descriptor. What is before `_ptr` is the file's too, but for
  the places where `ungetc` has stored another character, and but for all of it once `fseek` has
  moved the descriptor and left `_ptr`. `fseek` stays in the buffer without a look at it, and so may
  bring such characters back.
-/
import Venix.Stdio.Input

namespace Venix.Stdio.Input

open Function

/-! ## Runs -/

/-- A stream, the reader that it is to be, and before which place of the buffer there may be a
character that is not the file's. -/
structure Watch where
  w : World
  want : Reader
  stale : Nat

/-- The place in the buffer of the target of a seek, as far as it has one. -/
def Watch.index (file : List UInt8) (offset ptrname : Int) (s : Watch) : Int :=
  s.w.f.ptr + (s.want.target file offset ptrname - s.want.pos)

/-- The seek stays in the buffer. -/
def Watch.Inside (file : List UInt8) (offset ptrname : Int) (s : Watch) : Prop :=
  s.w.f.base = true ∧ s.w.f.nbf = false ∧ ptrname < 2 ∧ 0 < s.w.f.cnt ∧
    0 ≤ s.index file offset ptrname ∧ s.index file offset ptrname ≤ s.w.f.ptr + s.w.f.cnt

instance (file : List UInt8) (offset ptrname : Int) (s : Watch) :
    Decidable (s.Inside file offset ptrname) := by
  unfold Watch.Inside
  infer_instance

/-- `stale` after a call that has returned `r` and left the stream as `f`. -/
def Watch.staleAfter (file : List UInt8) (s : Watch) (r : Option Int) (f : Iobuf) : Call → Nat
  | .getc _ => if 0 < s.w.f.cnt then s.stale else 0
  | .ungetc c =>
    if r = some 0 then
      if byteAt file (s.want.pos - 1) = some (char c) then
        if s.stale = f.ptr + 1 then f.ptr else s.stale
      else max s.stale (f.ptr + 1)
    else s.stale
  | .fseek offset ptrname =>
    if s.Inside file offset ptrname ∨ s.want.target file offset ptrname = s.want.pos then s.stale
    else f.ptr
  | .ftell => s.stale

def step (file : List UInt8) (s : Watch) (c : Call) : Option Watch :=
  (call file s.w c).map fun r => ⟨r.2, s.want.call file r.1 c, s.staleAfter file r.1 r.2.f c⟩

def run (file : List UInt8) (s : Watch) (calls : List Call) : Option Watch :=
  calls.foldlM (step file) s

/-- A read-only stream from which nothing has been read since it was opened. Its buffer may be that
of an earlier one. -/
structure Opened (w : World) : Prop where
  read : w.f.read = true
  rw : w.f.rw = false
  strg : w.f.strg = false
  pipe : w.d.pipe = false
  cnt : w.f.cnt = 0
  size : w.f.base = true → w.f.ptr ≤ bufsiz w.f

def start (w : World) : Watch := ⟨w, ⟨w.d.off, []⟩, w.f.ptr⟩

/-- The calls that do what they should: a character is pushed back into a buffer only, an unbuffered
stream with a character pushed back is not sought from where it is, and a seek that stays in the
buffer is to a place from which on the buffer has the file's characters. -/
def Meets (file : List UInt8) (s : Watch) : Call → Prop
  | .getc _ => True
  | .ungetc c => c = EOF ∨ s.w.f.base = true
  | .fseek offset ptrname => (ptrname = 0 ∨ ptrname = 1 ∨ ptrname = 2) ∧
    (ptrname = 1 → s.w.f.nbf = true → s.w.f.cnt = 0) ∧
    (s.Inside file offset ptrname → s.stale ≤ s.index file offset ptrname)
  | .ftell => True

instance (file : List UInt8) (s : Watch) (c : Call) : Decidable (Meets file s c) := by
  cases c <;> unfold Meets <;> infer_instance

/-- Every call of a run meets the condition. -/
def AllMeet (file : List UInt8) : Watch → List Call → Prop
  | _, [] => True
  | s, c :: l => Meets file s c ∧ ∀ s' ∈ step file s c, AllMeet file s' l

instance decidableAllMeet (file : List UInt8) :
    (l : List Call) → (s : Watch) → Decidable (AllMeet file s l)
  | [], _ => isTrue trivial
  | c :: l, s =>
    haveI := decidableAllMeet file l
    inferInstanceAs (Decidable (Meets file s c ∧ ∀ s' ∈ step file s c, AllMeet file s' l))

/-- The buffer is discarded, and the descriptor put at `p`. -/
def sought (p : Int) (w : World) : World :=
  { w with
    f := { w.f with
      eof := false
      cnt := 0 }
    d := { w.d with off := p } }

/-- The offset in the file of a place in the buffer. -/
def place (w : World) (i : Nat) : Int := w.d.off - (w.f.ptr + w.f.cnt) + i

/-- From `i` on the buffer has the file's bytes. -/
def HoldsFrom (file : List UInt8) (w : World) (i : Nat) : Prop :=
  ∀ j, i ≤ j → (j : Int) < w.f.ptr + w.f.cnt → byteAt file (place w j) = some (w.f.mem j)

/-- The stream is one for input. -/
structure Reads (w : World) : Prop where
  read : w.f.read = true
  rw : w.f.rw = false
  strg : w.f.strg = false
  pipe : w.d.pipe = false

structure Follows (file : List UInt8) (s : Watch) : Prop where
  reads : Reads s.w
  cnt : 0 ≤ s.w.f.cnt
  size : s.w.f.base = true → s.w.f.ptr + s.w.f.cnt ≤ bufsiz s.w.f
  nobuf : s.w.f.base = false → s.w.f.cnt = 0
  pos : s.want.pos = s.w.d.off - s.w.f.cnt
  room : s.want.pushed.length ≤ s.w.f.cnt
  pushed : ∀ i (h : i < s.want.pushed.length), s.w.f.mem (s.w.f.ptr + i) = s.want.pushed[i]
  rest : HoldsFrom file s.w (s.w.f.ptr + s.want.pushed.length)
  stale : HoldsFrom file s.w s.stale

theorem holdsFrom_end (file : List UInt8) {w : World} {i : Nat} (h : w.f.ptr + w.f.cnt ≤ i) :
    HoldsFrom file w i := by
  intro j hij hj
  omega

theorem HoldsFrom.mono {file : List UInt8} {w : World} {i j : Nat} (h : HoldsFrom file w i)
    (hij : i ≤ j) : HoldsFrom file w j := fun k hk => h k (hij.trans hk)

/-! ## `getc` -/

theorem byteAt_neg (file : List UInt8) {p : Int} (h : p < 0) : byteAt file p = none := if_pos h

theorem byteAt_ofNat (file : List UInt8) (n : Nat) : byteAt file n = file[n]? := by
  rw [byteAt, if_neg (by omega), Int.toNat_natCast]

theorem bufsiz_pos (f : Iobuf) : 0 < bufsiz f := by
  unfold bufsiz BUFSIZ
  split <;> omega

/-- What a `read` stores are the file's bytes from the offset on. -/
theorem stored_get (file : List UInt8) (off : Int) (n : Nat) {i : Nat}
    (h : i < (stored file off n).length) :
    byteAt file (off + i) = some ((stored file off n).getD i 0) := by
  by_cases h0 : off < 0
  · rw [stored, if_pos h0] at h
    exact absurd h (Nat.not_lt_zero i)
  · obtain ⟨p, rfl⟩ := Int.eq_ofNat_of_zero_le (not_lt.mp h0)
    simp only [stored, if_neg h0, Int.toNat_natCast, List.length_take, List.length_drop,
      Nat.lt_min] at h ⊢
    have hp : p + i < file.length := by omega
    rw [← Int.natCast_add, byteAt_ofNat, List.getD_eq_getElem?_getD, List.getElem?_take,
      if_pos h.1, List.getElem?_drop, List.getElem?_eq_getElem hp, Option.getD_some]

/-- A `read` stores nothing only where the file has nothing. -/
theorem stored_nil {file : List UInt8} {off : Int} {n : Nat} (hn : 0 < n)
    (h : stored file off n = []) : byteAt file off = none := by
  by_cases h0 : off < 0
  · exact byteAt_neg file h0
  · obtain ⟨p, rfl⟩ := Int.eq_ofNat_of_zero_le (not_lt.mp h0)
    rw [stored, if_neg h0, Int.toNat_natCast, List.take_eq_nil_iff] at h
    rw [byteAt_ofNat, List.getElem?_eq_none]
    exact List.drop_eq_nil_iff.mp (h.resolve_left hn.ne')

theorem buffered_base (room : Bool) (f : Iobuf) : (buffered room f).base = true := by
  unfold buffered
  split
  · assumption
  · split
    · rfl
    · split <;> rfl

theorem buffered_flags (room : Bool) (f : Iobuf) :
    (buffered room f).read = f.read ∧ (buffered room f).rw = f.rw ∧
      (buffered room f).strg = f.strg := by
  unfold buffered
  split
  · exact ⟨rfl, rfl, rfl⟩
  · split
    · exact ⟨rfl, rfl, rfl⟩
    · split <;> exact ⟨rfl, rfl, rfl⟩

theorem readCount_eq {file : List UInt8} {off : Int} {n : Nat} (h : stored file off n ≠ []) :
    readCount file off n = (stored file off n).length := by
  refine if_neg fun h0 => h ?_
  rw [stored, if_pos h0]

theorem readCount_nil {file : List UInt8} {off : Int} {n : Nat} (h : stored file off n = []) :
    readCount file off n ≤ 0 := by
  unfold readCount
  split
  · decide
  · rw [h]
    rfl

/-- What `_filbuf` leaves where the file has nothing. -/
structure Drained (w w' : World) : Prop where
  reads : Reads w'
  ptr : w'.f.ptr = 0
  cnt : w'.f.cnt = 0
  base : w'.f.base = true
  d : w'.d = w.d

/-- What `_filbuf` leaves where it has read the bytes `l`. -/
structure Filled (l : List UInt8) (w w' : World) : Prop where
  reads : Reads w'
  ptr : w'.f.ptr = 1
  cnt : w'.f.cnt = l.length - 1
  base : w'.f.base = true
  size : l.length ≤ bufsiz w'.f
  mem : ∀ i, i < l.length → w'.f.mem i = l.getD i 0
  off : w'.d.off = w.d.off + l.length

theorem filbuf_eq (file : List UInt8) (room : Bool) {w : World} (h : Reads w) :
    filbuf file room w = filbufEnd (fill file { w with f := buffered room w.f }) := by
  simp only [filbuf, h.rw, h.read, h.strg, Bool.false_eq_true, Bool.true_eq_false, if_false, or_self]

theorem fill_reads (file : List UInt8) (room : Bool) {w : World} (h : Reads w) :
    Reads (fill file { w with f := buffered room w.f }) := by
  obtain ⟨h1, h2, h3⟩ := buffered_flags room w.f
  exact ⟨h1.trans h.read, h2.trans h.rw, h3.trans h.strg, h.pipe⟩

theorem filbufEnd_drained {w : World} (h : Reads w) (hc : w.f.cnt < 0) (h0 : w.f.ptr = 0)
    (hb : w.f.base = true) : (filbufEnd w).1 = EOF ∧ Drained w (filbufEnd w).2 := by
  unfold filbufEnd
  rw [if_pos hc]
  dsimp only
  split
  · exact ⟨rfl, ⟨by simp [h.read, h.rw], h.rw, h.strg, h.pipe⟩, h0, rfl, hb, rfl⟩
  · exact ⟨rfl, ⟨h.read, h.rw, h.strg, h.pipe⟩, h0, rfl, hb, rfl⟩

/-- The bytes that `_filbuf` reads. -/
def bytes (file : List UInt8) (room : Bool) (w : World) : List UInt8 :=
  stored file w.d.off (bufsiz (buffered room w.f))

theorem filbuf_drained {file : List UInt8} {room : Bool} {w : World} (h : Reads w)
    (hl : bytes file room w = []) :
    (filbuf file room w).1 = EOF ∧ Drained w (filbuf file room w).2 := by
  have hc : (fill file { w with f := buffered room w.f }).f.cnt < 0 :=
    Int.lt_of_le_sub_one (sub_le_sub_right (readCount_nil hl) 1)
  rw [filbuf_eq file room h]
  obtain ⟨h1, h2⟩ := filbufEnd_drained (fill_reads file room h) hc rfl (buffered_base room w.f)
  refine ⟨h1, h2.reads, h2.ptr, h2.cnt, h2.base, h2.d.trans ?_⟩
  have e : w.d.off + (bytes file room w).length = w.d.off := by
    rw [hl]
    exact Int.add_zero _
  exact congrArg (fun off => { w.d with off := off }) e

theorem filbuf_filled {file : List UInt8} {room : Bool} {w : World} (h : Reads w)
    (hl : bytes file room w ≠ []) :
    (filbuf file room w).1 = ((bytes file room w).getD 0 0).toNat ∧
      Filled (bytes file room w) w (filbuf file room w).2 := by
  have hn : 0 < (bytes file room w).length := List.length_pos_iff.mpr hl
  have hcnt : (fill file { w with f := buffered room w.f }).f.cnt =
      (bytes file room w).length - 1 := congrArg (· - 1) (readCount_eq hl)
  have hmem : ∀ i, i < (bytes file room w).length →
      (fill file { w with f := buffered room w.f }).f.mem i = (bytes file room w).getD i 0 := by
    intro i hi
    show (bytes file room w).getD i _ = _
    rw [List.getD_eq_getElem?_getD, List.getD_eq_getElem?_getD, List.getElem?_eq_getElem hi,
      Option.getD_some, Option.getD_some]
  have hr := fill_reads file room h
  rw [filbuf_eq file room h, filbufEnd, if_neg (by omega), hmem 0 hn]
  refine ⟨rfl, ⟨hr.read, hr.rw, hr.strg, hr.pipe⟩, rfl, hcnt, buffered_base room w.f, ?_, hmem, rfl⟩
  show (bytes file room w).length ≤ bufsiz (buffered room w.f)
  unfold bytes stored
  split
  · exact Nat.zero_le _
  · exact List.length_take_le _ _

/-! ## One call -/

/-- A stream with nothing left in its buffer, and nothing pushed back. -/
theorem follows_empty {file : List UInt8} {w : World} {stale : Nat} (h : Reads w)
    (hc : w.f.cnt = 0) (hs : w.f.base = true → w.f.ptr ≤ bufsiz w.f)
    (hst : HoldsFrom file w stale) : Follows file ⟨w, ⟨w.d.off, []⟩, stale⟩ where
  reads := h
  cnt := hc.ge
  size := fun hb => by
    rw [hc, Int.add_zero]
    exact_mod_cast hs hb
  nobuf := fun _ => hc
  pos := by rw [hc, Int.sub_zero]
  room := hc.ge
  pushed := fun i hi => absurd hi (Nat.not_lt_zero i)
  rest := holdsFrom_end file (by rw [hc]; simp)
  stale := hst

theorem Opened.follows (file : List UInt8) {w : World} (h : Opened w) : Follows file (start w) :=
  follows_empty ⟨h.read, h.rw, h.strg, h.pipe⟩ h.cnt h.size
    (holdsFrom_end file (by rw [h.cnt, Int.add_zero]))

/-- A stream whose buffer has just been read. -/
theorem Filled.follows {file l : List UInt8} {w w' : World} (h : Filled l w w') (hl : 0 < l.length)
    (hb : ∀ i, i < l.length → byteAt file (w.d.off + i) = some (l.getD i 0)) :
    Follows file ⟨w', ⟨w.d.off + 1, []⟩, 0⟩ := by
  have hcnt := h.cnt
  have hend : (w'.f.ptr : Int) + w'.f.cnt = l.length := by
    rw [h.ptr, hcnt]
    push_cast
    omega
  have hold : HoldsFrom file w' 0 := by
    intro i _ hi
    rw [hend] at hi
    have hi' : i < l.length := by exact_mod_cast hi
    rw [place, hend, h.off, h.mem i hi', Int.add_sub_cancel]
    exact hb i hi'
  refine ⟨h.reads, ?_, ?_, ?_, ?_, ?_, ?_, hold.mono (Nat.zero_le _), hold⟩
  · show 0 ≤ w'.f.cnt
    omega
  · intro _
    rw [hend]
    exact_mod_cast h.size
  · intro hf
    exact absurd (hf.symm.trans h.base) Bool.false_ne_true
  · show w.d.off + 1 = w'.d.off - w'.f.cnt
    rw [h.off, hcnt]
    omega
  · show ((0 : Nat) : Int) ≤ w'.f.cnt
    omega
  · intro i hi
    exact absurd hi (Nat.not_lt_zero i)

theorem getc_next (file : List UInt8) (room : Bool) {w : World} (h : 0 < w.f.cnt) :
    getc file room w = (((w.f.mem w.f.ptr).toNat : Int), { w with
      f := { w.f with
        cnt := w.f.cnt - 1
        ptr := w.f.ptr + 1 } }) := if_pos (Int.sub_nonneg_of_le h)

theorem getc_fill (file : List UInt8) (room : Bool) {w : World} (h : w.f.cnt = 0) :
    getc file room w = filbuf file room { w with f := { w.f with cnt := w.f.cnt - 1 } } := by
  refine if_neg ?_
  show ¬ w.f.cnt - 1 ≥ 0
  omega

theorem Follows.place_pos {file : List UInt8} {s : Watch} (h : Follows file s) :
    place s.w s.w.f.ptr = s.want.pos := by
  unfold place
  rw [h.pos]
  omega

/-- The character at `_ptr` is the one that the reader gives. -/
theorem Follows.getc_value {file : List UInt8} {s : Watch} (h : Follows file s)
    (hc : 0 < s.w.f.cnt) :
    ((s.w.f.mem s.w.f.ptr).toNat : Int) = (s.want.getc file).1 ∧
      (s.want.getc file).2 = ⟨s.want.pos + 1, s.want.pushed.tail⟩ := by
  obtain ⟨w, ⟨pos, pushed⟩, stale⟩ := s
  cases pushed with
  | cons b l =>
    have e : w.f.mem w.f.ptr = b := h.pushed 0 (Nat.zero_lt_succ _)
    exact ⟨by rw [e]; rfl, rfl⟩
  | nil =>
    have hp : place w w.f.ptr = pos := h.place_pos
    have e : byteAt file pos = some (w.f.mem w.f.ptr) := by
      rw [← hp]
      exact h.rest _ (Nat.le_refl _) (by dsimp only at hc ⊢; omega)
    refine ⟨?_, ?_⟩
    · show _ = given (byteAt file pos)
      rw [e]
      rfl
    · show Reader.mk (if (byteAt file pos).isSome then pos + 1 else pos) [] = _
      rw [e]
      rfl

theorem HoldsFrom.congr {file : List UInt8} {w w' : World} {i : Nat} (h : HoldsFrom file w i)
    (hm : w'.f.mem = w.f.mem) (ho : w'.d.off = w.d.off)
    (he : w'.f.ptr + w'.f.cnt = w.f.ptr + w.f.cnt) : HoldsFrom file w' i := by
  intro j hij hj
  have := h j hij (by rwa [← he])
  rw [place] at this ⊢
  rwa [hm, ho, he]

/-- A `getc` that finds a character in the buffer. -/
theorem Follows.getc_next {file : List UInt8} {s : Watch} (h : Follows file s) (room : Bool)
    (hc : 0 < s.w.f.cnt) :
    Follows file ⟨(getc file room s.w).2, (s.want.getc file).2, s.stale⟩ := by
  have hroom := h.room
  have hend : ((s.w.f.ptr + 1 : Nat) : Int) + (s.w.f.cnt - 1) = s.w.f.ptr + s.w.f.cnt := by
    push_cast
    omega
  have htail : s.want.pushed.tail.length = s.want.pushed.length - 1 := List.length_tail
  rw [Input.getc_next file room hc, (h.getc_value hc).2]
  refine ⟨⟨h.reads.read, h.reads.rw, h.reads.strg, h.reads.pipe⟩, Int.sub_nonneg_of_le hc, ?_, ?_,
    ?_, ?_, ?_, ?_, h.stale.congr rfl rfl hend⟩
  · intro hb
    rw [hend]
    exact h.size hb
  · intro hb
    exact absurd (h.nobuf hb) hc.ne'
  · show s.want.pos + 1 = s.w.d.off - (s.w.f.cnt - 1)
    rw [h.pos]
    omega
  · show (s.want.pushed.tail.length : Int) ≤ s.w.f.cnt - 1
    omega
  · intro i hi
    have := h.pushed (i + 1) (by dsimp only at hi; omega)
    rw [List.getElem_tail, ← this, show s.w.f.ptr + (i + 1) = s.w.f.ptr + 1 + i by omega]
  · refine (h.rest.mono ?_).congr rfl rfl hend
    show _ ≤ s.w.f.ptr + 1 + s.want.pushed.tail.length
    omega

/-- A `getc` that has to read. -/
theorem Follows.getc_fill {file : List UInt8} {s : Watch} (h : Follows file s) (room : Bool)
    (hc : s.w.f.cnt = 0) :
    (getc file room s.w).1 = (s.want.getc file).1 ∧
      Follows file ⟨(getc file room s.w).2, (s.want.getc file).2, 0⟩ := by
  have hroom := h.room
  have hpush : s.want.pushed = [] := List.length_eq_zero_iff.mp (by omega)
  have hpos : s.want.pos = s.w.d.off := by rw [h.pos, hc, Int.sub_zero]
  have hwant : s.want = ⟨s.w.d.off, []⟩ := by rw [← hpos, ← hpush]
  have hr : Reads { s.w with f := { s.w.f with cnt := s.w.f.cnt - 1 } } :=
    ⟨h.reads.read, h.reads.rw, h.reads.strg, h.reads.pipe⟩
  rw [Input.getc_fill file room hc, hwant]
  by_cases hl : bytes file room { s.w with f := { s.w.f with cnt := s.w.f.cnt - 1 } } = []
  · -- the file ends here
    obtain ⟨h1, h2⟩ := filbuf_drained hr hl
    have hn : byteAt file s.w.d.off = none := stored_nil (bufsiz_pos _) hl
    refine ⟨?_, ?_⟩
    · rw [h1]
      show _ = given (byteAt file s.w.d.off)
      rw [hn]
      rfl
    · show Follows file ⟨_, ⟨if (byteAt file s.w.d.off).isSome then _ else s.w.d.off, []⟩, 0⟩
      rw [hn]
      have hd : s.w.d.off = (filbuf file room
          { s.w with f := { s.w.f with cnt := s.w.f.cnt - 1 } }).2.d.off := by rw [h2.d]
      rw [Option.isSome_none, if_neg Bool.false_ne_true, hd]
      exact follows_empty h2.reads h2.cnt (fun _ => h2.ptr.le.trans (Nat.zero_le _))
        (holdsFrom_end file (by rw [h2.ptr, h2.cnt]; rfl))
  · obtain ⟨h1, h2⟩ := filbuf_filled hr hl
    have hlen := List.length_pos_iff.mpr hl
    have hb := stored_get file s.w.d.off _ hlen
    rw [Int.natCast_zero, Int.add_zero] at hb
    refine ⟨?_, ?_⟩
    · rw [h1]
      show _ = given (byteAt file s.w.d.off)
      rw [hb]
      rfl
    · show Follows file ⟨_, ⟨if (byteAt file s.w.d.off).isSome then s.w.d.off + 1 else _, []⟩, 0⟩
      rw [hb, Option.isSome_some, if_pos rfl]
      exact h2.follows hlen fun i => stored_get file s.w.d.off _

/-- The buffer after a character has been pushed back in front of the place `p`. -/
def pushedAt (c : Int) (p : Nat) (f : Iobuf) : Iobuf :=
  { f with
    cnt := f.cnt + 1
    ptr := p - 1
    mem := update f.mem (p - 1) (char c) }

/-- Where `ungetc` pushes a character back. -/
structure Front (f : Iobuf) (p : Nat) : Prop where
  base : f.base = true
  pos : 0 < p
  here : p = f.ptr ∨ f.ptr = 0 ∧ f.cnt = 0 ∧ p = 1

/-- `ungetc` on a stream with a buffer. -/
theorem Follows.ungetc_eq {file : List UInt8} {s : Watch} (h : Follows file s) {c : Int}
    (hm : Meets file s (.ungetc c)) :
    ungetc c s.w.f = some (-1, s.w.f) ∨
      ∃ p, Front s.w.f p ∧ ungetc c s.w.f = some (0, pushedAt c p s.w.f) := by
  by_cases hc : c = EOF
  · exact .inl (if_pos hc)
  have hb : s.w.f.base = true := hm.resolve_left hc
  have hsize := h.size hb
  have hcnt := h.cnt
  unfold ungetc
  rw [if_neg hc]
  by_cases h0 : s.w.f.ptr = 0
  · rw [if_pos (.inr h0)]
    by_cases hz : s.w.f.cnt = 0
    · refine .inr ⟨1, ⟨hb, Nat.one_pos, .inr ⟨h0, hz, rfl⟩⟩, ?_⟩
      have hle : s.w.f.ptr + 1 ≤ bufsiz { s.w.f with ptr := s.w.f.ptr + 1 } := by
        rw [h0]
        exact bufsiz_pos _
      rw [if_pos ⟨h0, hz⟩, push, if_pos ⟨hb, Nat.succ_pos _, hle⟩, h0]
      rfl
    · exact .inl (if_neg fun h => hz h.2)
  · refine .inr ⟨s.w.f.ptr, ⟨hb, Nat.pos_of_ne_zero h0, .inl rfl⟩, ?_⟩
    rw [if_neg (by rw [h.reads.read]; simpa using h0), push,
      if_pos ⟨hb, Nat.pos_of_ne_zero h0, by omega⟩]
    rfl

/-- A pushed character leaves the others where they are. -/
theorem Front.keeps {w : World} {p : Nat} (h : Front w.f p) (c : Int) {j : Nat} (hj : j ≠ p - 1)
    (hlt : (j : Int) < (pushedAt c p w.f).ptr + (pushedAt c p w.f).cnt) :
    (j : Int) < w.f.ptr + w.f.cnt ∧
      place { w with f := pushedAt c p w.f } j = place w j ∧
      (pushedAt c p w.f).mem j = w.f.mem j := by
  obtain ⟨-, hp, rfl | ⟨h0, hz, rfl⟩⟩ := h
  · simp only [pushedAt] at hlt
    refine ⟨by omega, ?_, update_of_ne hj _ _⟩
    simp only [place, pushedAt]
    omega
  · simp only [pushedAt, hz] at hlt
    omega

theorem Front.place_eq {w : World} {p : Nat} (h : Front w.f p) (c : Int) :
    place { w with f := pushedAt c p w.f } (p - 1) = w.d.off - w.f.cnt - 1 := by
  have hp := h.pos
  simp only [pushedAt, place]
  omega

theorem Follows.ungetc {file : List UInt8} {s : Watch} (h : Follows file s) {c : Int} {p : Nat}
    (hp : Front s.w.f p) :
    Follows file ⟨{ s.w with f := pushedAt c p s.w.f }, s.want.ungetc c,
      s.staleAfter file (some 0) (pushedAt c p s.w.f) (.ungetc c)⟩ := by
  have hb := hp.base
  have h0 := hp.pos
  have hroom := h.room
  have hcnt := h.cnt
  have hsize := h.size hb
  have hbuf := bufsiz_pos s.w.f
  have hstale : ∀ i, s.stale ≤ i → ∀ j, i ≤ j → j ≠ p - 1 →
      (j : Int) < (pushedAt c p s.w.f).ptr + (pushedAt c p s.w.f).cnt →
      byteAt file (place { s.w with f := pushedAt c p s.w.f } j) =
        some ((pushedAt c p s.w.f).mem j) := by
    intro i hi j hij hj hlt
    obtain ⟨h1, h2, h3⟩ := hp.keeps c hj hlt
    rw [h2, h3]
    exact h.stale j (hi.trans hij) h1
  refine ⟨⟨h.reads.read, h.reads.rw, h.reads.strg, h.reads.pipe⟩, Int.le_add_one hcnt, ?_, ?_, ?_,
    ?_, ?_, ?_, ?_⟩
  · intro _
    show ((p - 1 : Nat) : Int) + (s.w.f.cnt + 1) ≤ bufsiz s.w.f
    obtain ⟨-, -, rfl | ⟨h0, hz, rfl⟩⟩ := hp
    · omega
    · rw [hz]
      push_cast
      omega
  · intro hf
    exact absurd (hb.symm.trans hf) Bool.noConfusion
  · show s.want.pos - 1 = s.w.d.off - (s.w.f.cnt + 1)
    rw [h.pos]
    omega
  · show ((s.want.pushed.length + 1 : Nat) : Int) ≤ s.w.f.cnt + 1
    push_cast
    omega
  · intro i hi
    show update s.w.f.mem (p - 1) (char c) (p - 1 + i) = (char c :: s.want.pushed)[i]
    cases i with
    | zero => exact update_self _ _ _
    | succ i =>
      have hi' : i < s.want.pushed.length := Nat.lt_of_succ_lt_succ hi
      have e : p - 1 + (i + 1) = s.w.f.ptr + i := by
        obtain ⟨-, -, rfl | ⟨-, hz, -⟩⟩ := hp
        · omega
        · omega
      rw [update_of_ne (by omega), e]
      exact h.pushed i hi'
  · intro j hij hlt
    have hij' : p - 1 + (s.want.pushed.length + 1) ≤ j := hij
    obtain ⟨h1, h2, h3⟩ := hp.keeps c (by omega) hlt
    have hj : s.w.f.ptr + s.want.pushed.length ≤ j := by
      obtain ⟨-, -, rfl | ⟨h0, hz, rfl⟩⟩ := hp
      · omega
      · omega
    exact (congrArg (byteAt file) h2).trans ((h.rest j hj h1).trans (congrArg some h3.symm))
  · show HoldsFrom file { s.w with f := pushedAt c p s.w.f }
      (s.staleAfter file (some 0) (pushedAt c p s.w.f) (.ungetc c))
    rw [Watch.staleAfter, if_pos rfl]
    split
    · rename_i hclean
      have hnew : byteAt file (place { s.w with f := pushedAt c p s.w.f } (p - 1)) =
          some ((pushedAt c p s.w.f).mem (p - 1)) := by
        rw [hp.place_eq c, ← h.pos, hclean]
        exact congrArg some (update_self (p - 1) (char c) s.w.f.mem).symm
      have hall : ∀ j, s.stale ≤ j ∨ j = p - 1 →
          (j : Int) < (pushedAt c p s.w.f).ptr + (pushedAt c p s.w.f).cnt →
          byteAt file (place { s.w with f := pushedAt c p s.w.f } j) =
            some ((pushedAt c p s.w.f).mem j) := by
        intro j hj hlt
        by_cases he : j = p - 1
        · rw [he]
          exact hnew
        · exact hstale s.stale le_rfl j (hj.resolve_right he) he hlt
      split
      · rename_i he
        have he' : s.stale = p - 1 + 1 := he
        intro j hij hlt
        have hij' : p - 1 ≤ j := hij
        exact hall j (by omega) hlt
      · exact fun j hij => hall j (.inl hij)
    · intro j hij hlt
      have hij' : max s.stale (p - 1 + 1) ≤ j := hij
      exact hstale s.stale le_rfl j (by omega) (by omega) hlt

/-- A seek that stays in the buffer. -/
def moved (p : Int) (f : Iobuf) : Iobuf :=
  { f with
    eof := false
    ptr := (f.ptr + p).toNat
    cnt := f.cnt - p }

/-- The conditions on which `fseek` looks at the buffer. -/
def early (ptrname : Int) (f : Iobuf) : Prop := ptrname < 2 ∧ f.base = true ∧ f.nbf = false

instance (ptrname : Int) (f : Iobuf) : Decidable (early ptrname f) := by
  unfold early
  infer_instance

/-- How far `fseek` is to go, if it stays in the buffer. -/
def jump (offset ptrname : Int) (w : World) : Int :=
  if ptrname = 0 then offset + (w.f.cnt - w.d.off) else offset

/-- The offset that `fseek` hands to `lseek`. -/
def reach (offset ptrname : Int) (w : World) : Int :=
  if early ptrname w.f ∧ ptrname ≠ 0 then offset - w.f.cnt else offset

theorem lseek_file (file : List UInt8) {d : Desc} (h : d.pipe = false) (offset whence : Int) :
    lseek (env file) d offset whence =
      ((if whence = 1 then offset + d.off else if whence = 2 then offset + file.length else offset),
        { d with off := if whence = 1 then offset + d.off else
          if whence = 2 then offset + file.length else offset }) := by
  unfold lseek
  rw [if_neg (by rw [h]; exact Bool.false_ne_true)]
  rfl

theorem fseek_reads (file : List UInt8) {w : World} (h : Reads w) (offset ptrname : Int) :
    fseek (env file) offset ptrname w =
      if early ptrname w.f ∧ 0 < w.f.cnt ∧ jump offset ptrname w ≤ w.f.cnt ∧
          -w.f.ptr ≤ jump offset ptrname w then
        (some 0, { w with f := moved (jump offset ptrname w) w.f })
      else
        (fseekEnd (some (lseek (env file) w.d (reach offset ptrname w) ptrname).1), { w with
          f := { w.f with
            eof := false
            cnt := 0 }
          d := (lseek (env file) w.d (reach offset ptrname w) ptrname).2 }) := by
  have hoff : (lseek (env file) w.d 0 1).1 = w.d.off := by
    rw [lseek_file file h.pipe]
    exact Int.zero_add _
  simp only [fseek, h.read, h.rw, hoff, jump, reach, early, moved, if_true, Bool.not_false,
    Bool.and_true, Bool.false_eq_true, if_false, Bool.and_eq_true, decide_eq_true_eq, and_assoc,
    Bool.not_eq_true']

theorem Follows.jump_eq {file : List UInt8} {s : Watch} (h : Follows file s) (offset : Int)
    {ptrname : Int} (hp : ptrname = 0 ∨ ptrname = 1) :
    jump offset ptrname s.w = s.want.target file offset ptrname - s.want.pos := by
  unfold jump Reader.target
  rw [h.pos]
  obtain rfl | rfl := hp
  · rw [if_pos rfl, if_neg (by decide), if_neg (by decide)]
    omega
  · rw [if_neg (by decide), if_pos rfl]
    omega

theorem Follows.inside_iff {file : List UInt8} {s : Watch} (h : Follows file s) (offset : Int)
    {ptrname : Int} (hp : ptrname = 0 ∨ ptrname = 1 ∨ ptrname = 2) :
    s.Inside file offset ptrname ↔ early ptrname s.w.f ∧ 0 < s.w.f.cnt ∧
      jump offset ptrname s.w ≤ s.w.f.cnt ∧ -s.w.f.ptr ≤ jump offset ptrname s.w := by
  have hj : ptrname < 2 → jump offset ptrname s.w = s.want.target file offset ptrname - s.want.pos :=
    fun h2 => h.jump_eq offset (by omega)
  unfold Watch.Inside Watch.index early
  constructor
  · rintro ⟨hb, hn, h2, hc, h3, h4⟩
    have := hj h2
    exact ⟨⟨h2, hb, hn⟩, hc, by omega, by omega⟩
  · rintro ⟨⟨h2, hb, hn⟩, hc, h3, h4⟩
    have := hj h2
    exact ⟨hb, hn, h2, hc, by omega, by omega⟩

/-- The `lseek` of `fseek` goes to the target. -/
theorem Follows.lseek_eq {file : List UInt8} {s : Watch} (h : Follows file s)
    {offset ptrname : Int} (hp : ptrname = 0 ∨ ptrname = 1 ∨ ptrname = 2)
    (hn : ptrname = 1 → s.w.f.nbf = true → s.w.f.cnt = 0) :
    lseek (env file) s.w.d (reach offset ptrname s.w) ptrname =
      (s.want.target file offset ptrname,
        { s.w.d with off := s.want.target file offset ptrname }) := by
  have e : (if ptrname = 1 then reach offset ptrname s.w + s.w.d.off
      else if ptrname = 2 then reach offset ptrname s.w + file.length
      else reach offset ptrname s.w) = s.want.target file offset ptrname := by
    unfold Reader.target
    obtain rfl | rfl | rfl := hp
    · have hr : reach offset 0 s.w = offset := if_neg fun h => h.2 rfl
      rw [hr, if_neg (by decide), if_neg (by decide), if_neg (by decide), if_neg (by decide)]
    · rw [if_pos rfl, if_pos rfl, h.pos, reach]
      split
      · omega
      · rename_i he
        have h0 : s.w.f.cnt = 0 := by
          by_cases hb : s.w.f.base = true
          · refine hn rfl (Bool.not_eq_false _ |>.mp fun hf => he ?_)
            exact ⟨⟨by decide, hb, hf⟩, by decide⟩
          · exact h.nobuf (Bool.not_eq_true _ |>.mp hb)
        omega
    · have hr : reach offset 2 s.w = offset := if_neg fun h => absurd h.1.1 (by decide)
      rw [hr, if_neg (by decide), if_pos rfl, if_neg (by decide), if_pos rfl, Int.add_comm]
  rw [lseek_file file h.reads.pipe, e]

theorem Follows.fseek_eq {file : List UInt8} {s : Watch} (h : Follows file s)
    {offset ptrname : Int} (hm : Meets file s (.fseek offset ptrname)) :
    Stdio.fseek (env file) offset ptrname s.w =
      if s.Inside file offset ptrname then
        (some 0, { s.w with f := moved (s.want.target file offset ptrname - s.want.pos) s.w.f })
      else (fseekEnd (some (s.want.target file offset ptrname)),
        sought (s.want.target file offset ptrname) s.w) := by
  obtain ⟨hp, hn, -⟩ := hm
  have hi := h.inside_iff offset hp
  rw [fseek_reads file h.reads, h.lseek_eq hp hn]
  by_cases hc : s.Inside file offset ptrname
  · obtain ⟨-, -, h2, -⟩ := id hc
    rw [if_pos hc, if_pos (hi.mp hc), h.jump_eq offset (by omega)]
  · rw [if_neg hc, if_neg (fun h => hc (hi.mpr h))]
    rfl

/-- A seek in the buffer, to a place from which on the buffer has the file's bytes. -/
theorem Follows.moved {file : List UInt8} {s : Watch} (h : Follows file s) {offset ptrname : Int}
    (hi : s.Inside file offset ptrname) (hs : s.stale ≤ s.index file offset ptrname) :
    Follows file ⟨{ s.w with
      f := Input.moved (s.want.target file offset ptrname - s.want.pos) s.w.f },
      s.want.fseek file offset ptrname, s.stale⟩ := by
  obtain ⟨hb, -, -, -, h0, h1⟩ := hi
  unfold Watch.index at hs h0 h1
  have hsize := h.size hb
  have hpos := h.pos
  have hend : (((s.w.f.ptr + (s.want.target file offset ptrname - s.want.pos)).toNat : Nat) : Int) +
      (s.w.f.cnt - (s.want.target file offset ptrname - s.want.pos)) = s.w.f.ptr + s.w.f.cnt := by
    omega
  refine ⟨⟨h.reads.read, h.reads.rw, h.reads.strg, h.reads.pipe⟩, ?_, ?_, ?_, ?_, ?_, ?_, ?_,
    h.stale.congr rfl rfl hend⟩
  · show 0 ≤ s.w.f.cnt - (s.want.target file offset ptrname - s.want.pos)
    omega
  · intro _
    exact hend.le.trans hsize
  · intro hf
    exact absurd (hb.symm.trans hf) Bool.noConfusion
  · show s.want.target file offset ptrname =
      s.w.d.off - (s.w.f.cnt - (s.want.target file offset ptrname - s.want.pos))
    omega
  · show ((0 : Nat) : Int) ≤ s.w.f.cnt - (s.want.target file offset ptrname - s.want.pos)
    omega
  · exact fun i hi => absurd hi (Nat.not_lt_zero i)
  · refine (h.stale.mono ?_).congr rfl rfl hend
    show s.stale ≤ (s.w.f.ptr + (s.want.target file offset ptrname - s.want.pos)).toNat + 0
    omega

/-- A seek that discards the buffer. -/
theorem Follows.sought {file : List UInt8} {s : Watch} (h : Follows file s) (offset ptrname : Int)
    {stale : Nat} (hs : s.want.target file offset ptrname = s.want.pos ∧ stale = s.stale ∨
      s.w.f.ptr ≤ stale) :
    Follows file ⟨Input.sought (s.want.target file offset ptrname) s.w,
      s.want.fseek file offset ptrname, stale⟩ := by
  refine follows_empty ⟨h.reads.read, h.reads.rw, h.reads.strg, h.reads.pipe⟩ rfl ?_ ?_
  · intro hb
    have := h.size hb
    have := h.cnt
    show s.w.f.ptr ≤ bufsiz s.w.f
    omega
  · obtain ⟨ht, rfl⟩ | hs := hs
    · intro j hij hj
      have hj' : (j : Int) < s.w.f.ptr + 0 := hj
      have hc := h.cnt
      have e : place (Input.sought (s.want.target file offset ptrname) s.w) j = place s.w j := by
        rw [ht, h.pos]
        simp only [place, Input.sought]
        omega
      rw [e]
      exact h.stale j hij (by omega)
    · refine holdsFrom_end file ?_
      show (s.w.f.ptr : Int) + 0 ≤ stale
      omega

/-! ## Runs -/

theorem Follows.getc_eq {file : List UInt8} {s : Watch} (h : Follows file s) (room : Bool) :
    (getc file room s.w).1 = (s.want.getc file).1 ∧
      Follows file ⟨(getc file room s.w).2, (s.want.getc file).2,
        if 0 < s.w.f.cnt then s.stale else 0⟩ := by
  by_cases hc : 0 < s.w.f.cnt
  · rw [if_pos hc, Input.getc_next file room hc]
    refine ⟨(h.getc_value hc).1, ?_⟩
    rw [← Input.getc_next file room hc]
    exact h.getc_next room hc
  · rw [if_neg hc]
    exact h.getc_fill room (le_antisymm (not_lt.mp hc) h.cnt)

theorem Follows.ftell_eq {file : List UInt8} {s : Watch} (h : Follows file s) :
    (ftell (env file) s.w).2 = s.w ∧
      (0 ≤ s.w.d.off → (ftell (env file) s.w).1 = s.want.pos) := by
  have hoff : (lseek (env file) s.w.d 0 1).1 = s.w.d.off := by
    rw [lseek_file file h.reads.pipe]
    exact Int.zero_add _
  have hcnt : ¬ s.w.f.cnt < 0 := not_lt.mpr h.cnt
  refine ⟨?_, fun h0 => ?_⟩
  · simp only [ftell, if_neg hcnt, h.reads.read, if_true]
    split <;> rfl
  · simp only [ftell, if_neg hcnt, h.reads.read, if_true, hoff, if_neg (not_lt.mpr h0), h.pos]

/-- One call. -/
theorem Follows.step {file : List UInt8} {s : Watch} (h : Follows file s) {c : Call}
    (hm : Meets file s c) : ∃ s', step file s c = some s' ∧ Follows file s' := by
  cases c with
  | getc room => exact ⟨_, rfl, (h.getc_eq room).2⟩
  | ungetc c =>
    obtain he | ⟨p, hp, he⟩ := h.ungetc_eq hm
    · refine ⟨⟨s.w, s.want, s.stale⟩, ?_, h⟩
      simp only [Input.step, call, he, Option.map_some]
      rfl
    · refine ⟨⟨{ s.w with f := pushedAt c p s.w.f }, s.want.ungetc c,
        s.staleAfter file (some 0) (pushedAt c p s.w.f) (.ungetc c)⟩, ?_, h.ungetc hp⟩
      simp only [Input.step, call, he, Option.map_some]
      rfl
  | fseek offset ptrname =>
    refine ⟨_, rfl, ?_⟩
    have he := h.fseek_eq hm
    by_cases hi : s.Inside file offset ptrname
    · rw [if_pos hi] at he
      simp only [he, Watch.staleAfter, Reader.call, hi, true_or, if_true]
      exact h.moved hi (hm.2.2 hi)
    · rw [if_neg hi] at he
      simp only [he, Watch.staleAfter, Reader.call, hi, false_or]
      refine h.sought offset ptrname ?_
      split
      · rename_i ht
        exact .inl ⟨ht, rfl⟩
      · exact .inr le_rfl
  | ftell =>
    refine ⟨_, rfl, ?_⟩
    show Follows file ⟨(Stdio.ftell (env file) s.w).2, s.want, s.stale⟩
    rw [h.ftell_eq.1]
    exact h

/-- Any number of calls. -/
theorem Follows.run {file : List UInt8} {s : Watch} (h : Follows file s) (calls : List Call)
    (hm : AllMeet file s calls) : ∃ s', run file s calls = some s' ∧ Follows file s' := by
  induction calls generalizing s with
  | nil => exact ⟨s, rfl, h⟩
  | cons c l ih =>
    obtain ⟨s₁, h₁, hf⟩ := h.step hm.1
    obtain ⟨s', h', hf'⟩ := ih hf (hm.2 s₁ h₁)
    refine ⟨s', ?_, hf'⟩
    rw [Input.run, List.foldlM_cons, h₁]
    exact h'

theorem bytesFrom_succ (file : List UInt8) (p : Int) (n : Nat) :
    bytesFrom file p (n + 1) = given (byteAt file p) ::
      bytesFrom file (if (byteAt file p).isSome then p + 1 else p) n := by
  unfold bytesFrom
  rw [List.range_succ_eq_map, List.map_cons, List.map_map]
  congr 1
  · split
    · rename_i h
      rw [byteAt_neg file h]
      rfl
    · rw [Int.natCast_zero, Int.add_zero]
  · refine List.map_congr_left fun k _ => ?_
    show (if p < 0 then EOF else given (byteAt file (p + (k + 1 : Nat)))) = _
    by_cases h0 : p < 0
    · rw [byteAt_neg file h0, Option.isSome_none, if_neg Bool.false_ne_true, if_pos h0, if_pos h0]
    · obtain ⟨q, rfl⟩ := Int.eq_ofNat_of_zero_le (not_lt.mp h0)
      rw [if_neg h0, byteAt_ofNat]
      by_cases hq : q < file.length
      · rw [List.getElem?_eq_getElem hq, Option.isSome_some, if_pos rfl, if_neg (by omega),
          Int.add_assoc, Int.add_comm 1]
        rfl
      · rw [List.getElem?_eq_none (not_lt.mp hq), Option.isSome_none, if_neg Bool.false_ne_true,
          if_neg h0, ← Int.natCast_add, ← Int.natCast_add, byteAt_ofNat, byteAt_ofNat,
          List.getElem?_eq_none (by omega), List.getElem?_eq_none (by omega)]

/-- With nothing pushed back, `getc` gives the file's bytes. -/
theorem Follows.getcs_eq {file : List UInt8} {s : Watch} (h : Follows file s)
    (hp : s.want.pushed = []) (rooms : List Bool) :
    getcs file rooms s.w = bytesFrom file s.want.pos rooms.length := by
  induction rooms generalizing s with
  | nil => rfl
  | cons room l ih =>
    obtain ⟨h1, h2⟩ := h.getc_eq room
    have hg : s.want.getc file = (given (byteAt file s.want.pos),
        ⟨if (byteAt file s.want.pos).isSome then s.want.pos + 1 else s.want.pos, []⟩) := by
      rw [Reader.getc, hp]
    rw [hg] at h1 h2
    rw [getcs, h1, List.length_cons, bytesFrom_succ, ih h2 rfl]

/-- A stream that `fopen` has just opened for reading. -/
def fresh : World where
  f := ⟨0, 0, false, fun _ => 0, true, false, false, false, false, false, false, false⟩
  d := ⟨false, 0, []⟩
  failed := false

end Venix.Stdio.Input
