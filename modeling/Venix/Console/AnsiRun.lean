/-
  The interpreter, byte by byte.

  `Spec` reads one byte at a time and knows no buffers: text is drawn, a control sequence is kept until
  its last character and then read as a whole (`decode`), and in truncation the printable characters
  are dropped. The calls of `ansi` do the same (`Agrees`) as long as each visit of the switch `Meets`
  three things: a first parameter that is left out finds a zero in `w_aparam[1]`, a parameter has its
  place in `w_aparam`, and the rest of a buffer in truncation is printable and not empty.
-/
import Mathlib.Data.List.TakeWhile
import Venix.Console.Ansi

namespace Venix.Ansi

open Fint

variable {D : Type}

/-! ## The sequences -/

/-- The number that digits stand for, as the elements of `w_aparam` hold it. -/
def value (dev : Device D) (ds : List Nat) : Int :=
  ds.foldl (fun (v : Int) (c : Nat) => dev.store (dev.store (v * 10) + (c - 48))) 0

/-- The parameters of a sequence: none, or one more than there are semicolons. -/
def params (dev : Device D) (ps : List Nat) : List Int :=
  if ps = [] then [] else (ps.splitOn 0x3b).map (value dev)

/-- The function of a last character. -/
def entry (t : List Fint) (c : Nat) : Fint :=
  if c < 64 ∨ 126 < c then aerror else t.getD (c - 64) aerror

/-- The table of a sequence `esc [`, by what follows. -/
def table (body : List Nat) : List Fint := if body.head? = some 0x3d then ctdisp else csidisp

/-- What is left of a sequence `esc [` without its `=`. -/
def paramPart (body : List Nat) : List Nat := body.dropWhile (· == 0x3d)

/-- The function and the parameters of a sequence: the characters between `esc` and the last one, and
the last one. -/
def decode (dev : Device D) : List Nat → Nat → Fint × List Int
  | [], c => (entry escdisp c, [])
  | _ :: body, c =>
    let f := entry (table body) c
    (f, if f.looks then params dev (paramPart body) else [])

/-- Whether the character does not end the sequence. -/
def continues : List Nat → Nat → Bool
  | [], c => c == 0x5b
  | _ :: body, c => isDigit c || c == 0x3b || (c == 0x3d && paramPart body == [])

/-! ## The interpreter without buffers -/

inductive Mode where
  | text
  | seq (bs : List Nat)
  | drop

structure Spec (D : Type) where
  mode : Mode
  screen : Screen D
  log : List Event

namespace Spec

def call (dev : Device D) (f : Fint) (args : List Int) (σ : Spec D) : Spec D :=
  { σ with
    screen := (dev.perform f args σ.screen).1
    log := σ.log ++ [.call f args] }

/-- A function of a table is called in text, with the flag of a line feed down. -/
def clear (σ : Spec D) : Spec D :=
  { σ with
    mode := .text
    screen := { σ.screen with
      alastlf := false } }

def control (dev : Device D) (c : Nat) (σ : Spec D) : Spec D :=
  if c = 0x1b then
    { σ with
      mode := .seq [] }
  else if c = 0x7f then σ
  else σ.clear.call dev (ctrldisp.getD c aerror) []

def draw (b : Nat) (s : Screen D) (σ : Spec D) : Spec D :=
  { σ with
    screen := s
    log := σ.log ++ [.text b] }

/-- A printable character in text: it is drawn, or dropped with what follows, or drawn on a new
line. -/
def put (dev : Device D) (b : Nat) (σ : Spec D) : Spec D :=
  match dev.rastex1 σ.screen b with
  | some s => σ.draw b s
  | none =>
    if σ.screen.anowrap then
      { σ with
        mode := .drop }
    else
      let σ' := σ.call dev anel []
      match dev.rastex1 σ'.screen b with
      | some s => σ'.draw b s
      | none => σ'

def byte (dev : Device D) (σ : Spec D) (b : Nat) : Spec D :=
  match σ.mode with
  | .text => if printable b then σ.put dev b else σ.control dev (b % 128)
  | .seq bs =>
    if continues bs (b % 128) then
      { σ with
        mode := .seq (bs ++ [b % 128]) }
    else
      let out := decode dev bs (b % 128)
      σ.clear.call dev out.1 out.2
  | .drop =>
    if printable b then σ
    else control dev (b % 128) { σ with
      mode := .text }

def run (dev : Device D) (σ : Spec D) (bs : List Nat) : Spec D := bs.foldl (byte dev) σ

end Spec

/-! ## The condition -/

/-- What a visit of the switch has to meet. -/
def Visit.Meets (dev : Device D) (v : Visit D) : Prop :=
  (v.wp.astate = .csi → v.c = 0x3b → v.wp.aparam[1]? = some 0) ∧
  (v.wp.astate = .param → v.c = 0x3b → v.wp.iparam + 1 < dev.naparam) ∧
  (v.wp.astate = .trunc → printable v.c → v.rest ≠ [] ∧ ∀ b ∈ v.rest, printable b)

instance (dev : Device D) (v : Visit D) : Decidable (v.Meets dev) :=
  inferInstanceAs (Decidable (_ ∧ _ ∧ _))

/-! ## Parameters -/

theorem splitOn_append_other {c x : Nat} (hc : c ≠ x) (ps : List Nat) :
    ∃ init l, ps.splitOn x = init ++ [l] ∧ (ps ++ [c]).splitOn x = init ++ [l ++ [c]] := by
  induction ps with
  | nil => exact ⟨[], [], rfl, List.splitOn_eq_singleton (by simpa using hc.symm)⟩
  | cons a ps ih =>
    obtain ⟨init, l, h, h'⟩ := ih
    rw [List.cons_append, List.splitOn_cons_eq_if_modifyHead, List.splitOn_cons_eq_if_modifyHead,
      h, h']
    by_cases ha : a = x
    · exact ⟨[] :: init, l, by simp [ha], by simp [ha]⟩
    · cases init with
      | nil => exact ⟨[], a :: l, by simp [ha], by simp [ha]⟩
      | cons i init => exact ⟨(a :: i) :: init, l, by simp [ha], by simp [ha]⟩

theorem value_append (dev : Device D) (ds : List Nat) (c : Nat) :
    value dev (ds ++ [c]) = dev.store (dev.store (value dev ds * 10) + (c - 48)) := by
  unfold value
  rw [List.foldl_append]
  rfl

theorem value_digit (dev : Device D) (c : Nat) : value dev [c] = dev.store (c - 48) := by
  change dev.store (dev.store (0 * 10) + (c - 48)) = _
  rw [Int.zero_mul, dev.store_zero, Int.zero_add]

theorem params_digit (dev : Device D) {c : Nat} (hc : c ≠ 0x3b) :
    params dev [c] = [dev.store (c - 48)] := by
  unfold params
  rw [if_neg (List.cons_ne_nil _ _), List.splitOn_eq_singleton (by simpa using hc.symm)]
  exact congrArg (fun v => [v]) (value_digit dev c)

theorem params_semi (dev : Device D) : params dev [0x3b] = [0, 0] := rfl

theorem params_append_digit (dev : Device D) {c : Nat} (hc : c ≠ 0x3b) {ps : List Nat}
    (hps : ps ≠ []) : ∃ init v, params dev ps = init ++ [v] ∧
      params dev (ps ++ [c]) = init ++ [dev.store (dev.store (v * 10) + (c - 48))] := by
  obtain ⟨init, l, h, h'⟩ := splitOn_append_other hc ps
  refine ⟨init.map (value dev), value dev l, ?_, ?_⟩
  · unfold params
    rw [if_neg hps, h, List.map_append]
    rfl
  · unfold params
    rw [if_neg (by simp), h', List.map_append, ← value_append]
    rfl

theorem params_append_semi (dev : Device D) {ps : List Nat} (hps : ps ≠ []) :
    params dev (ps ++ [0x3b]) = params dev ps ++ [0] := by
  unfold params
  rw [if_neg (by simp), if_neg hps, List.splitOn_append_cons_self, List.map_append]
  rfl

/-! ## The relation -/

/-- The parser's fields, by the mode. -/
def ModeRel (dev : Device D) (w : Window D) : Mode → Prop
  | .text => w.astate = .norm
  | .drop => w.astate = .trunc
  | .seq [] => w.astate = .esc ∧ w.adisp = escdisp
  | .seq (_ :: body) => w.adisp = table body ∧
    ((paramPart body = [] ∧ w.astate = .csi ∧ w.iparam = 0) ∨
      (paramPart body ≠ [] ∧ w.astate = .param ∧ w.iparam < dev.naparam ∧
        w.aparam.take (w.iparam + 1) = params dev (paramPart body)))

/-- What has been done and the screen are the same, and nothing went out of bounds. -/
structure Same (dev : Device D) (r : Run D) (σ : Spec D) : Prop where
  log : r.log = σ.log
  screen : r.wp.screen = σ.screen
  len : r.wp.aparam.length = dev.naparam
  clean : r.faults = []

/-- A run and the interpreter without buffers. -/
structure Agrees (dev : Device D) (r : Run D) (σ : Spec D) : Prop extends Same dev r σ where
  mode : ModeRel dev r.wp σ.mode

/-- In the state `norm` the mode is text. -/
theorem mode_text {dev : Device D} {w : Window D} {m : Mode} (h : ModeRel dev w m)
    (hnorm : w.astate = .norm) : m = .text := by
  cases m with
  | text => rfl
  | drop => exact absurd (hnorm.symm.trans h) (by decide)
  | seq bs =>
    cases bs with
    | nil => exact absurd (hnorm.symm.trans h.1) (by decide)
    | cons b body =>
      obtain ⟨-, ⟨-, hcsi, -⟩ | ⟨-, hparam, -⟩⟩ := h
      · exact absurd (hnorm.symm.trans hcsi) (by decide)
      · exact absurd (hnorm.symm.trans hparam) (by decide)

theorem mode_esc {dev : Device D} {w : Window D} {m : Mode} (h : ModeRel dev w m)
    (hesc : w.astate = .esc) : m = .seq [] ∧ w.adisp = escdisp := by
  cases m with
  | text => exact absurd (hesc.symm.trans h) (by decide)
  | drop => exact absurd (hesc.symm.trans h) (by decide)
  | seq bs =>
    cases bs with
    | nil => exact ⟨rfl, h.2⟩
    | cons b body =>
      obtain ⟨-, ⟨-, hcsi, -⟩ | ⟨-, hparam, -⟩⟩ := h
      · exact absurd (hesc.symm.trans hcsi) (by decide)
      · exact absurd (hesc.symm.trans hparam) (by decide)

theorem mode_csi {dev : Device D} {w : Window D} {m : Mode} (h : ModeRel dev w m)
    (hcsi : w.astate = .csi) : ∃ b body, m = .seq (b :: body) ∧ w.adisp = table body ∧
      paramPart body = [] ∧ w.iparam = 0 := by
  cases m with
  | text => exact absurd (hcsi.symm.trans h) (by decide)
  | drop => exact absurd (hcsi.symm.trans h) (by decide)
  | seq bs =>
    cases bs with
    | nil => exact absurd (hcsi.symm.trans h.1) (by decide)
    | cons b body =>
      obtain ⟨hdisp, ⟨hpart, -, hip⟩ | ⟨-, hparam, -⟩⟩ := h
      · exact ⟨b, body, rfl, hdisp, hpart, hip⟩
      · exact absurd (hcsi.symm.trans hparam) (by decide)

theorem mode_param {dev : Device D} {w : Window D} {m : Mode} (h : ModeRel dev w m)
    (hparam : w.astate = .param) : ∃ b body, m = .seq (b :: body) ∧ w.adisp = table body ∧
      paramPart body ≠ [] ∧ w.iparam < dev.naparam ∧
        w.aparam.take (w.iparam + 1) = params dev (paramPart body) := by
  cases m with
  | text => exact absurd (hparam.symm.trans h) (by decide)
  | drop => exact absurd (hparam.symm.trans h) (by decide)
  | seq bs =>
    cases bs with
    | nil => exact absurd (hparam.symm.trans h.1) (by decide)
    | cons b body =>
      obtain ⟨hdisp, ⟨-, hcsi, -⟩ | ⟨hpart, -, hip, hview⟩⟩ := h
      · exact absurd (hparam.symm.trans hcsi) (by decide)
      · exact ⟨b, body, rfl, hdisp, hpart, hip, hview⟩

theorem mode_trunc {dev : Device D} {w : Window D} {m : Mode} (h : ModeRel dev w m)
    (htrunc : w.astate = .trunc) : m = .drop := by
  cases m with
  | text => exact absurd (htrunc.symm.trans h) (by decide)
  | drop => rfl
  | seq bs =>
    cases bs with
    | nil => exact absurd (htrunc.symm.trans h.1) (by decide)
    | cons b body =>
      obtain ⟨-, ⟨-, hcsi, -⟩ | ⟨-, hparam, -⟩⟩ := h
      · exact absurd (htrunc.symm.trans hcsi) (by decide)
      · exact absurd (htrunc.symm.trans hparam) (by decide)

/-- The mode tells the state. -/
theorem astate_mode {dev : Device D} {w w' : Window D} {m : Mode} (h : ModeRel dev w m)
    (h' : ModeRel dev w' m) : w.astate = w'.astate := by
  cases m with
  | text => exact h.trans h'.symm
  | drop => exact h.trans h'.symm
  | seq bs =>
    cases bs with
    | nil => exact h.1.trans h'.1.symm
    | cons b body =>
      obtain ⟨-, ⟨hpart, hcsi, -⟩ | ⟨hpart, hparam, -⟩⟩ := h
      · obtain ⟨-, ⟨-, hcsi', -⟩ | ⟨hpart', -⟩⟩ := h'
        · exact hcsi.trans hcsi'.symm
        · exact absurd hpart hpart'
      · obtain ⟨-, ⟨hpart', -⟩ | ⟨-, hparam', -⟩⟩ := h'
        · exact absurd hpart' hpart
        · exact hparam.trans hparam'.symm

/-! ## The functions of the tables -/

theorem ctrldisp_looks (c : Nat) : (ctrldisp.getD c aerror).looks = false := by
  have hall : ∀ f ∈ ctrldisp, f.looks = false := by decide
  rw [List.getD_eq_getElem?_getD]
  cases h : ctrldisp[c]? with
  | none => rfl
  | some f => exact hall f (List.mem_of_getElem? h)

theorem entry_escdisp_looks (c : Nat) : (entry escdisp c).looks = false := by
  have hall : ∀ f ∈ escdisp, f.looks = false := by decide
  unfold entry
  split
  · rfl
  · rw [List.getD_eq_getElem?_getD]
    cases h : escdisp[c - 64]? with
    | none => rfl
    | some f => exact hall f (List.mem_of_getElem? h)

theorem callf_log (dev : Device D) (f : Fint) (r : Run D) :
    (callf dev f r).log = r.log ++ [.call f (if f.looks then r.wp.view else [])] := rfl

theorem callf_screen (dev : Device D) (f : Fint) (r : Run D) :
    (callf dev f r).wp.screen = (dev.perform f (if f.looks then r.wp.view else []) r.wp.screen).1 := rfl

theorem callf_norm (dev : Device D) (f : Fint) {r : Run D} (h : r.wp.astate = .norm) :
    (callf dev f r).wp.astate = .norm := by
  change (if f = aerror then AState.norm else r.wp.astate) = .norm
  rw [h, ite_self]

/-- A call in text. -/
theorem callf_agrees {dev : Device D} {f : Fint} {r : Run D} {σ : Spec D} (h : Same dev r σ)
    (hnorm : r.wp.astate = .norm) (hmode : σ.mode = .text) {args : List Int}
    (hargs : (if f.looks then r.wp.view else []) = args) :
    Agrees dev (callf dev f r) (σ.call dev f args) := by
  refine ⟨⟨?_, ?_, h.len, h.clean⟩, ?_⟩
  · rw [callf_log, hargs, h.log]
    rfl
  · rw [callf_screen, hargs, h.screen]
    rfl
  · change ModeRel dev _ σ.mode
    rw [hmode]
    exact callf_norm dev f hnorm

/-- `final` calls the function of the last character with the parameters up to `w_iparam`. -/
theorem final_agrees {dev : Device D} {c : Nat} {r : Run D} {σ : Spec D} (h : Same dev r σ)
    {f : Fint} (hf : entry r.wp.adisp c = f) {args : List Int}
    (hargs : (if f.looks then r.wp.aparam.take r.wp.iparam else []) = args) :
    Agrees dev (final dev c r) (σ.clear.call dev f args) := by
  have hcall : final dev c r = callf dev f { r with
      wp := { r.wp with
        astate := .norm
        nparam := r.wp.iparam
        iparam := 0
        screen := { r.wp.screen with
          alastlf := false } } } := by
    rw [← hf]
    unfold final entry
    split
    · rfl
    · rfl
  rw [hcall]
  have hsame : Same dev { r with
      wp := { r.wp with
        astate := .norm
        nparam := r.wp.iparam
        iparam := 0
        screen := { r.wp.screen with
          alastlf := false } } } σ.clear := by
    refine ⟨h.log, ?_, h.len, h.clean⟩
    change ({ r.wp.screen with alastlf := false } : Screen D) = { σ.screen with alastlf := false }
    rw [h.screen]
  exact callf_agrees hsame rfl rfl hargs

/-! ## One character -/

theorem normChar_agrees {dev : Device D} {c : Nat} {r : Run D} {σ : Spec D} (h : Same dev r σ)
    (hnorm : r.wp.astate = .norm) (hmode : σ.mode = .text) :
    Agrees dev (normChar dev c r) (σ.control dev c) := by
  unfold normChar Spec.control
  by_cases hesc : c = 0x1b
  · rw [if_pos hesc, if_pos hesc]
    exact ⟨⟨h.log, h.screen, h.len, h.clean⟩, rfl, rfl⟩
  · rw [if_neg hesc, if_neg hesc]
    unfold aspec
    by_cases hdel : c = 0x7f
    · rw [if_pos hdel, if_pos hdel]
      exact ⟨h, by rw [hmode]; exact hnorm⟩
    · rw [if_neg hdel, if_neg hdel]
      have hsame : Same dev { r with
          wp := { r.wp with
            screen := { r.wp.screen with
              alastlf := false } } } σ.clear := by
        refine ⟨h.log, ?_, h.len, h.clean⟩
        change ({ r.wp.screen with alastlf := false } : Screen D) =
          { σ.screen with alastlf := false }
        rw [h.screen]
      refine callf_agrees hsame hnorm rfl ?_
      rw [ctrldisp_looks]
      rfl

/-- The interpreter without buffers on a character of a sequence. -/
def Spec.seqChar (dev : Device D) (bs : List Nat) (c : Nat) (σ : Spec D) : Spec D :=
  if continues bs c then
    { σ with
      mode := .seq (bs ++ [c]) }
  else σ.clear.call dev (decode dev bs c).1 (decode dev bs c).2

theorem escChar_agrees {dev : Device D} {c : Nat} {r : Run D} {σ : Spec D} (h : Same dev r σ)
    (hdisp : r.wp.adisp = escdisp) : Agrees dev (escChar dev c r) (σ.seqChar dev [] c) := by
  unfold escChar Spec.seqChar continues
  by_cases hc : c = 0x5b
  · rw [if_pos hc, if_pos (by simpa using hc)]
    exact ⟨⟨h.log, h.screen, h.len, h.clean⟩, rfl, .inl ⟨rfl, rfl, rfl⟩⟩
  · rw [if_neg hc, if_neg (by simpa using hc)]
    refine final_agrees h (congrArg (entry · c) hdisp) ?_
    change (if (entry escdisp c).looks then _ else []) = []
    rw [entry_escdisp_looks]
    rfl

theorem setParam_in {i : Nat} {v : Int} {r : Run D} (hi : i < r.wp.aparam.length) :
    setParam i v r = { r with
      wp := { r.wp with
        aparam := r.wp.aparam.set i v } } := if_pos hi

theorem setParam_same {dev : Device D} {i : Nat} {v : Int} {r : Run D} {σ : Spec D}
    (h : Same dev r σ) (hi : i < dev.naparam) :
    Same dev (setParam i v r) σ ∧ (setParam i v r).wp = { r.wp with
      aparam := r.wp.aparam.set i v } := by
  rw [setParam_in (by rw [h.len]; exact hi)]
  exact ⟨⟨h.log, h.screen, by rw [List.length_set]; exact h.len, h.clean⟩, rfl⟩

theorem paramPart_append {body : List Nat} {c : Nat} (hc : c ≠ 0x3d) :
    paramPart (body ++ [c]) = paramPart body ++ [c] := by
  unfold paramPart
  induction body with
  | nil => simp [hc]
  | cons b body ih =>
    rw [List.cons_append, List.dropWhile_cons, List.dropWhile_cons]
    split
    · exact ih
    · rfl

theorem paramPart_append_eq {body : List Nat} (h : paramPart body = []) :
    paramPart (body ++ [0x3d]) = [] := by
  unfold paramPart at *
  rw [List.dropWhile_eq_nil_iff] at *
  intro b hb
  rcases List.mem_append.1 hb with hb | hb
  · exact h b hb
  · rw [List.mem_singleton.1 hb]
    rfl

theorem table_append {body : List Nat} {c : Nat} (h : c ≠ 0x3d ∨ body ≠ []) :
    table (body ++ [c]) = table body := by
  unfold table
  cases body with
  | nil =>
    have hc : c ≠ 0x3d := h.resolve_right (fun hne => hne rfl)
    rw [if_neg (by simpa using hc), if_neg (by simp)]
  | cons b body => rfl

theorem table_append_eq {body : List Nat} (h : paramPart body = []) :
    table (body ++ [0x3d]) = ctdisp := by
  cases body with
  | nil => rfl
  | cons b body =>
    have hb : b = 0x3d := by
      unfold paramPart at h
      rw [List.dropWhile_eq_nil_iff] at h
      simpa using h b (List.mem_cons_self ..)
    rw [hb]
    rfl

/-- The first zero and the first digit. -/
theorem take_set_zero {l : List Int} {v : Int} (h : 0 < l.length) :
    (l.set 0 v).take 1 = [v] := by
  cases l with
  | nil => exact absurd h (by decide)
  | cons a l => rfl

theorem take_set_last {l init : List Int} {i : Nat} {v w : Int} (h : l.take (i + 1) = init ++ [v])
    (hi : i < l.length) : l.getD i 0 = v ∧ (l.set i w).take (i + 1) = init ++ [w] := by
  have hlen : init.length = i := by
    have := congrArg List.length h
    rw [List.length_take, List.length_append, List.length_singleton] at this
    omega
  have hinit : l.take i = init := by
    have := congrArg (List.take i) h
    rw [List.take_take, Nat.min_eq_left (Nat.le_succ i), ← hlen, List.take_left' rfl, hlen] at this
    exact this
  refine ⟨?_, ?_⟩
  · have hget : (l.take (i + 1))[i]? = some v := by
      rw [h, ← hlen, List.getElem?_append_right (Nat.le_refl _), Nat.sub_self]
      rfl
    rw [List.getElem?_take_of_lt (Nat.lt_succ_self i)] at hget
    rw [List.getD_eq_getElem?_getD, hget]
    rfl
  · rw [List.take_add_one, List.take_set_of_le (Nat.le_refl _), hinit, List.getElem?_set_self hi]
    rfl

theorem take_set_next {l : List Int} {i : Nat} {ps : List Int} {w : Int}
    (h : l.take (i + 1) = ps) (hi : i + 1 < l.length) :
    (l.set (i + 1) w).take (i + 1 + 1) = ps ++ [w] := by
  rw [List.take_add_one, List.take_set_of_le (Nat.le_refl _), h, List.getElem?_set_self hi]
  rfl

theorem isDigit_iff {c : Nat} : isDigit c = true ↔ 48 ≤ c ∧ c ≤ 57 := by
  unfold isDigit
  rw [Bool.and_eq_true, decide_eq_true_iff, decide_eq_true_iff]

theorem modeRel_csi {dev : Device D} {w : Window D} (b : Nat) (body : List Nat)
    (hdisp : w.adisp = table body) (hpart : paramPart body = []) (hcsi : w.astate = .csi)
    (hip : w.iparam = 0) : ModeRel dev w (.seq (b :: body)) :=
  ⟨hdisp, .inl ⟨hpart, hcsi, hip⟩⟩

theorem modeRel_param {dev : Device D} {w : Window D} (b : Nat) (body : List Nat)
    (hdisp : w.adisp = table body) (hpart : paramPart body ≠ []) (hparam : w.astate = .param)
    (hip : w.iparam < dev.naparam)
    (hview : w.aparam.take (w.iparam + 1) = params dev (paramPart body)) :
    ModeRel dev w (.seq (b :: body)) :=
  ⟨hdisp, .inr ⟨hpart, hparam, hip, hview⟩⟩

/-- The state `csi`. -/
theorem csiChar_agrees {dev : Device D} (hpos : 0 < dev.naparam) {b c : Nat} {body : List Nat}
    {r : Run D} {σ : Spec D} (h : Same dev r σ) (hdisp : r.wp.adisp = table body)
    (hpart : paramPart body = []) (hcsi : r.wp.astate = .csi) (hip : r.wp.iparam = 0)
    (hmeets : c = 0x3b → r.wp.aparam[1]? = some 0) :
    Agrees dev (csiChar dev c r) (σ.seqChar dev (b :: body) c) := by
  have hlen : 0 < r.wp.aparam.length := by rw [h.len]; exact hpos
  unfold csiChar Spec.seqChar continues
  by_cases hsemi : c = 0x3b
  · subst hsemi
    rw [if_pos rfl, if_pos (by simp)]
    obtain ⟨hlt, hone⟩ := List.getElem?_eq_some_iff.1 (hmeets rfl)
    obtain ⟨hsame, hwp⟩ := setParam_same (v := 0) h hpos
    refine ⟨⟨hsame.log, hsame.screen, hsame.len, hsame.clean⟩,
      modeRel_param b (body ++ [0x3b]) ?_ ?_ rfl ?_ ?_⟩
    · change (setParam 0 0 r).wp.adisp = _
      rw [hwp, table_append (.inl (by decide))]
      exact hdisp
    · rw [paramPart_append (by decide)]
      exact List.append_ne_nil_of_right_ne_nil _ (List.cons_ne_nil _ _)
    · rw [h.len] at hlt
      exact hlt
    · change (setParam 0 0 r).wp.aparam.take 2 = _
      rw [hwp, paramPart_append (by decide), hpart, List.nil_append, params_semi]
      change (r.wp.aparam.set 0 0).take (1 + 1) = [0] ++ [0]
      rw [List.take_add_one, take_set_zero hlen, List.getElem?_set_ne (by decide),
        List.getElem?_eq_getElem hlt, hone]
      rfl
  rw [if_neg hsemi]
  by_cases heq : c = 0x3d
  · subst heq
    rw [if_pos rfl, if_pos (by simp [hpart])]
    exact ⟨⟨h.log, h.screen, h.len, h.clean⟩, modeRel_csi b (body ++ [0x3d])
      (table_append_eq hpart).symm (paramPart_append_eq hpart) hcsi hip⟩
  rw [if_neg heq]
  by_cases hdig : isDigit c = true
  · rw [if_pos hdig, if_pos (by simp [hdig])]
    obtain ⟨hsame, hwp⟩ := setParam_same (v := dev.store (c - 48)) h hpos
    refine ⟨⟨hsame.log, hsame.screen, hsame.len, hsame.clean⟩,
      modeRel_param b (body ++ [c]) ?_ ?_ rfl ?_ ?_⟩
    · change (setParam 0 _ r).wp.adisp = _
      rw [hwp, table_append (.inl heq)]
      exact hdisp
    · rw [paramPart_append heq]
      exact List.append_ne_nil_of_right_ne_nil _ (List.cons_ne_nil _ _)
    · change (setParam 0 _ r).wp.iparam < _
      rw [hwp]
      change r.wp.iparam < _
      rw [hip]
      exact hpos
    · change (setParam 0 _ r).wp.aparam.take ((setParam 0 _ r).wp.iparam + 1) = _
      rw [hwp, paramPart_append heq, hpart, List.nil_append, params_digit dev hsemi]
      change (r.wp.aparam.set 0 _).take (r.wp.iparam + 1) = _
      rw [hip, take_set_zero hlen]
  · rw [if_neg hdig, if_neg (by simp [hdig, hsemi, heq])]
    refine final_agrees h (congrArg (entry · c) hdisp) ?_
    change (if _ then r.wp.aparam.take r.wp.iparam else []) =
      if _ then params dev (paramPart body) else []
    rw [hip, hpart]
    rfl

theorem paramChar_digit {dev : Device D} {c : Nat} {r : Run D} (hdig : isDigit c = true)
    (hlen : r.wp.iparam < r.wp.aparam.length) : paramChar dev c r = { r with
      wp := { r.wp with
        aparam := r.wp.aparam.set r.wp.iparam
          (dev.store (dev.store (r.wp.aparam.getD r.wp.iparam 0 * 10) + (c - 48))) } } := by
  unfold paramChar
  rw [if_pos hdig]
  dsimp only
  rw [setParam_in hlen, setParam_in (by rw [List.length_set]; exact hlen)]
  dsimp only
  rw [List.set_set, List.getD_eq_getElem?_getD, List.getElem?_set_self hlen]
  rfl

/-- The state `param`. -/
theorem paramChar_agrees {dev : Device D} {b c : Nat} {body : List Nat}
    {r : Run D} {σ : Spec D} (h : Same dev r σ) (hdisp : r.wp.adisp = table body)
    (hpart : paramPart body ≠ []) (hparam : r.wp.astate = .param)
    (hip : r.wp.iparam < dev.naparam)
    (hview : r.wp.aparam.take (r.wp.iparam + 1) = params dev (paramPart body))
    (hmeets : c = 0x3b → r.wp.iparam + 1 < dev.naparam) :
    Agrees dev (paramChar dev c r) (σ.seqChar dev (b :: body) c) := by
  have hbody : body ≠ [] := by
    rintro rfl
    exact hpart rfl
  have hlen : r.wp.iparam < r.wp.aparam.length := by rw [h.len]; exact hip
  unfold Spec.seqChar continues
  by_cases hdig : isDigit c = true
  · obtain ⟨hlo, hhi⟩ := isDigit_iff.1 hdig
    rw [if_pos (by simp [hdig]), paramChar_digit hdig hlen]
    obtain ⟨init, v, hinit, happ⟩ := params_append_digit dev (show c ≠ 0x3b by omega) hpart
    obtain ⟨hold, hset⟩ := take_set_last (w := dev.store (dev.store (v * 10) + (c - 48)))
      (hview.trans hinit) hlen
    refine ⟨⟨h.log, h.screen, by rw [← h.len]; exact List.length_set .., h.clean⟩,
      modeRel_param b (body ++ [c]) ?_ ?_ hparam hip ?_⟩
    · rw [table_append (.inr hbody)]
      exact hdisp
    · rw [paramPart_append (by omega)]
      exact List.append_ne_nil_of_right_ne_nil _ (List.cons_ne_nil _ _)
    · rw [paramPart_append (by omega), happ, hold]
      exact hset
  unfold paramChar
  rw [if_neg hdig]
  by_cases hsemi : c = 0x3b
  · subst hsemi
    have hnext := hmeets rfl
    rw [if_pos rfl, if_pos (by simp)]
    dsimp only
    rw [if_neg (Nat.ne_of_lt hnext), setParam_in (by rw [h.len]; exact hnext)]
    refine ⟨⟨h.log, h.screen, by rw [← h.len]; exact List.length_set .., h.clean⟩,
      modeRel_param b (body ++ [0x3b]) ?_ ?_ ?_ ?_ ?_⟩
    · rw [table_append (.inr hbody)]
      exact hdisp
    · rw [paramPart_append (by decide)]
      exact List.append_ne_nil_of_right_ne_nil _ (List.cons_ne_nil _ _)
    · exact hparam
    · exact hnext
    · rw [paramPart_append (by decide), params_append_semi dev hpart]
      exact take_set_next hview (by rw [h.len]; exact hnext)
  · rw [if_neg hsemi, if_neg (by simp [hdig, hsemi, hpart])]
    have hsame : Same dev { r with
        wp := { r.wp with
          iparam := r.wp.iparam + 1 } } σ := ⟨h.log, h.screen, h.len, h.clean⟩
    refine final_agrees hsame (congrArg (entry · c) hdisp) ?_
    change (if _ then r.wp.aparam.take (r.wp.iparam + 1) else []) =
      if _ then params dev (paramPart body) else []
    rw [hview]

/-! ## Text -/

/-- The count does not exceed the memory. -/
def Run.Fits (r : Run D) : Prop := r.cc.toNat ≤ r.cp.length

theorem Run.length_left {r : Run D} (h : r.Fits) : r.left.length = r.cc.toNat := by
  unfold Run.left
  rw [List.length_take]
  exact Nat.min_eq_left h

/-- Why a run of text ended, by the screen and the bytes after it. -/
def Stops (dev : Device D) (s : Screen D) (rest : List Nat) : Nat → Prop
  | 0 => rest = []
  | 1 => ∃ b bs, rest = b :: bs ∧ printable b = false
  | _ => ∃ b bs, rest = b :: bs ∧ printable b = true ∧ dev.rastex1 s b = none

theorem rastex_le (dev : Device D) (s : Screen D) (bs : List Nat) :
    (rastex dev s bs).2.1 ≤ bs.length := by
  induction bs generalizing s with
  | nil => exact Nat.le_refl _
  | cons b bs ih =>
    unfold rastex
    split
    · split
      · exact Nat.succ_le_succ (ih _)
      · exact Nat.zero_le _
    · exact Nat.zero_le _

theorem rastex_stops (dev : Device D) (s : Screen D) (bs : List Nat) :
    (rastex dev s bs).2.2 ≤ 2 ∧
      Stops dev (rastex dev s bs).1 (bs.drop (rastex dev s bs).2.1) (rastex dev s bs).2.2 := by
  induction bs generalizing s with
  | nil => exact ⟨Nat.zero_le _, rfl⟩
  | cons b bs ih =>
    by_cases hb : printable b = true
    · cases hone : dev.rastex1 s b with
      | some s' =>
        have hr : rastex dev s (b :: bs) = ((rastex dev s' bs).1, (rastex dev s' bs).2.1 + 1,
            (rastex dev s' bs).2.2) := by
          rw [rastex, if_pos hb, hone]
        rw [hr]
        exact ih s'
      | none =>
        have hr : rastex dev s (b :: bs) = (s, 0, 2) := by
          rw [rastex, if_pos hb, hone]
        rw [hr]
        exact ⟨Nat.le_refl _, b, bs, rfl, hb, hone⟩
    · have hr : rastex dev s (b :: bs) = (s, 0, 1) := by
        rw [rastex, if_neg hb]
      rw [hr]
      exact ⟨Nat.le_succ 1, b, bs, rfl, by simpa using hb⟩

theorem Spec.run_append (dev : Device D) (σ : Spec D) (as bs : List Nat) :
    σ.run dev (as ++ bs) = (σ.run dev as).run dev bs := List.foldl_append

/-- The interpreter without buffers draws the same characters. -/
theorem rastex_run (dev : Device D) (bs : List Nat) (σ : Spec D) (hmode : σ.mode = .text) :
    σ.run dev (bs.take (rastex dev σ.screen bs).2.1) = { σ with
      screen := (rastex dev σ.screen bs).1
      log := σ.log ++ (bs.take (rastex dev σ.screen bs).2.1).map .text } := by
  induction bs generalizing σ with
  | nil => simp [Spec.run, rastex]
  | cons b bs ih =>
    by_cases hb : printable b = true
    · cases hone : dev.rastex1 σ.screen b with
      | some s' =>
        have hr : rastex dev σ.screen (b :: bs) = ((rastex dev s' bs).1,
            (rastex dev s' bs).2.1 + 1, (rastex dev s' bs).2.2) := by
          rw [rastex, if_pos hb, hone]
        have hbyte : σ.byte dev b = σ.draw b s' := by
          unfold Spec.byte Spec.put
          rw [hmode]
          dsimp only
          rw [if_pos hb, hone]
        have hrest := ih (σ.draw b s') hmode
        rw [hr]
        dsimp only
        rw [List.take_succ_cons]
        change Spec.run dev (σ.byte dev b) _ = _
        rw [hbyte]
        refine hrest.trans ?_
        unfold Spec.draw
        rw [List.map_cons, List.append_assoc]
        rfl
      | none =>
        have hr : rastex dev σ.screen (b :: bs) = (σ.screen, 0, 2) := by
          rw [rastex, if_pos hb, hone]
        rw [hr]
        simp [Spec.run]
    · have hr : rastex dev σ.screen (b :: bs) = (σ.screen, 0, 1) := by
        rw [rastex, if_neg hb]
      rw [hr]
      simp [Spec.run]

theorem drawn_eq {dev : Device D} {r : Run D} {s : Screen D} {k why : Nat}
    (h : rastex dev r.wp.screen r.left = (s, k, why)) :
    drawn dev r = ({ r with
      wp := { r.wp with
        screen := s }
      cp := r.cp.drop k
      cc := r.cc - k
      log := r.log ++ (r.cp.take k).map .text }, why) := by
  unfold drawn
  rw [show rastex dev r.wp.screen (r.cp.take r.cc.toNat) = _ from h]

/-- A call of `rastex`: what is left is behind the characters that the interpreter without buffers
has drawn, and it tells why `rastex` stopped. -/
theorem drawn_agrees {dev : Device D} {r : Run D} {σ : Spec D} (h : Agrees dev r σ)
    (hnorm : r.wp.astate = .norm) (hmode : σ.mode = .text) (hfits : r.Fits) :
    ∃ σ', σ'.mode = .text ∧ Agrees dev (drawn dev r).1 σ' ∧
      σ.run dev r.left = σ'.run dev (drawn dev r).1.left := by
  rcases hout : rastex dev r.wp.screen r.left with ⟨s, k, why⟩
  have hk : k ≤ r.cc.toNat := by
    have hle := rastex_le dev r.wp.screen r.left
    rw [hout, Run.length_left hfits] at hle
    exact hle
  have hrun := rastex_run dev r.left σ hmode
  rw [← h.screen, hout] at hrun
  have hleft : r.left.drop k = (r.cp.drop k).take (r.cc - k).toNat := by
    unfold Run.left
    rw [List.drop_take]
    congr 1
    omega
  have htext : r.left.take k = r.cp.take k := by
    unfold Run.left
    rw [List.take_take, Nat.min_eq_left hk]
  rw [drawn_eq hout]
  refine ⟨σ.run dev (r.left.take k), ?_, ⟨⟨?_, ?_, h.len, h.clean⟩, ?_⟩, ?_⟩
  · rw [hrun]
    exact hmode
  · rw [hrun, htext, ← h.log]
  · rw [hrun]
  · rw [hrun]
    change ModeRel dev _ σ.mode
    rw [hmode]
    exact hnorm
  · change _ = Spec.run dev _ ((r.cp.drop k).take (r.cc - k).toNat)
    rw [← hleft, ← Spec.run_append, List.take_append_drop]

theorem drawn_keeps (dev : Device D) {r : Run D} (hfits : r.Fits) :
    (drawn dev r).1.Fits ∧ (drawn dev r).1.wp.astate = r.wp.astate ∧
      (drawn dev r).1.visits = r.visits ∧ (drawn dev r).1.cc ≤ r.cc ∧ (drawn dev r).2 ≤ 2 ∧
      Stops dev (drawn dev r).1.wp.screen (drawn dev r).1.left (drawn dev r).2 := by
  rcases hout : rastex dev r.wp.screen r.left with ⟨s, k, why⟩
  obtain ⟨hwhy, hstops⟩ := rastex_stops dev r.wp.screen r.left
  rw [hout] at hwhy hstops
  rw [drawn_eq hout]
  refine ⟨?_, rfl, rfl, Int.sub_le_self _ (Int.natCast_nonneg k), hwhy, ?_⟩
  · unfold Run.Fits at *
    rw [List.length_drop]
    change (r.cc - k).toNat ≤ _
    omega
  · have hleft : r.left.drop k = (r.cp.drop k).take (r.cc - k).toNat := by
      unfold Run.left
      rw [List.drop_take]
      congr 1
      omega
    rw [hleft] at hstops
    exact hstops

/-- A character that meets the right edge is drawn on the new line. -/
theorem byte_wrap {dev : Device D} {σ : Spec D} {b : Nat} (hmode : σ.mode = .text)
    (hb : printable b = true) (hedge : dev.rastex1 σ.screen b = none)
    (hwrap : ¬σ.screen.anowrap = true) : σ.byte dev b = (σ.call dev anel []).byte dev b := by
  obtain ⟨s, hs⟩ := Option.isSome_iff_exists.1 (dev.fits σ.screen b hb)
  have hs' : dev.rastex1 (σ.call dev anel []).screen b = some s := hs
  have hmode' : (σ.call dev anel []).mode = .text := hmode
  unfold Spec.byte
  rw [hmode, hmode']
  dsimp only
  rw [if_pos hb, if_pos hb]
  unfold Spec.put
  rw [hedge, hs']
  dsimp only
  rw [if_neg hwrap, hs']

/-- Without wrap it is dropped. -/
theorem byte_drop {dev : Device D} {σ : Spec D} {b : Nat} (hmode : σ.mode = .text)
    (hb : printable b = true) (hedge : dev.rastex1 σ.screen b = none)
    (hwrap : σ.screen.anowrap = true) :
    σ.byte dev b = { σ with
      mode := .drop } := by
  unfold Spec.byte
  rw [hmode]
  dsimp only
  rw [if_pos hb]
  unfold Spec.put
  rw [hedge]
  dsimp only
  rw [if_pos hwrap]

/-- The loop at `top` has ended: what is left in text starts with a control character. -/
def Run.Ready (r : Run D) : Prop :=
  0 < r.cc → r.wp.astate = .norm → ∃ b bs, r.left = b :: bs ∧ printable b = false

/-- What the loop at `top` leaves, and what the interpreter without buffers does meanwhile. -/
theorem textLoop_agrees {dev : Device D} (n : Nat) {r r' : Run D} (hfits : r.Fits)
    (h : textLoop dev n r = some r') :
    r'.Fits ∧ r'.visits = r.visits ∧ r'.Ready ∧ r'.cc ≤ r.cc ∧ ∀ σ, Agrees dev r σ →
      ∃ σ', Agrees dev r' σ' ∧ σ.run dev r.left = σ'.run dev r'.left := by
  induction n generalizing r with
  | zero => cases h
  | succ n ih =>
    rw [textLoop] at h
    split at h
    case isFalse hdone =>
      cases h
      exact ⟨hfits, rfl, fun hcc hnorm => absurd ⟨hcc, hnorm⟩ hdone, Int.le_refl _,
        fun σ hag => ⟨σ, hag, rfl⟩⟩
    case isTrue hgo =>
      obtain ⟨hfits1, hnorm1, hvis1, hcc1, hwhy, hstops⟩ := drawn_keeps dev hfits
      have hagree := fun σ (hag : Agrees dev r σ) (htext : σ.mode = .text) =>
        drawn_agrees hag hgo.2 htext hfits
      have htextMode : ∀ σ, Agrees dev r σ → σ.mode = .text := fun σ hag =>
        mode_text hag.mode hgo.2
      rcases hd : drawn dev r with ⟨d, why⟩
      rw [hd] at h hfits1 hnorm1 hvis1 hcc1 hwhy hstops
      have hdnorm : d.wp.astate = .norm := hnorm1.trans hgo.2
      dsimp only at h
      split at h
      case isTrue hone =>
        cases h
        rw [hone] at hstops
        refine ⟨hfits1, hvis1, fun _ _ => hstops, hcc1, fun σ hag => ?_⟩
        obtain ⟨σ', -, hag', hrun⟩ := hagree σ hag (htextMode σ hag)
        rw [hd] at hag' hrun
        exact ⟨σ', hag', hrun⟩
      case isFalse hone =>
        split at h
        case isTrue htwo =>
          rw [htwo] at hstops
          obtain ⟨b, bs, hleft, hb, hedge⟩ := hstops
          dsimp only at hfits1 hcc1 hvis1 hleft hedge
          split at h
          case isTrue hno =>
            cases h
            refine ⟨hfits1, hvis1, fun _ hnorm => AState.noConfusion hnorm, hcc1,
              fun σ hag => ?_⟩
            obtain ⟨σ', htext', hag', hrun⟩ := hagree σ hag (htextMode σ hag)
            rw [hd] at hag' hrun
            rw [hag'.screen] at hedge hno
            refine ⟨{ σ' with
              mode := .drop }, ⟨⟨hag'.log, hag'.screen, hag'.len, hag'.clean⟩, rfl⟩, ?_⟩
            rw [hrun]
            change Spec.run dev σ' d.left = Spec.run dev _ d.left
            rw [hleft]
            change Spec.run dev (σ'.byte dev b) bs = Spec.run dev (Spec.byte dev _ b) bs
            rw [byte_drop htext' hb hedge hno]
            unfold Spec.byte
            dsimp only
            rw [if_pos hb]
          case isFalse hwrap =>
            obtain ⟨hfits2, hvis2, hready, hcc2, hrest⟩ := ih (r := callf dev anel d) hfits1 h
            refine ⟨hfits2, hvis2.trans hvis1, hready, Int.le_trans hcc2 hcc1, fun σ hag => ?_⟩
            obtain ⟨σ', htext', hag', hrun⟩ := hagree σ hag (htextMode σ hag)
            rw [hd] at hag' hrun
            rw [hag'.screen] at hedge hwrap
            obtain ⟨σ'', hag'', hrun'⟩ := hrest _ (callf_agrees hag'.toSame hdnorm htext' rfl)
            refine ⟨σ'', hag'', ?_⟩
            rw [hrun, ← hrun']
            change Spec.run dev σ' d.left = Spec.run dev (σ'.call dev anel []) d.left
            rw [hleft]
            change Spec.run dev (σ'.byte dev b) bs = Spec.run dev ((σ'.call dev anel []).byte dev b) bs
            rw [byte_wrap htext' hb hedge hwrap]
        case isFalse htwo =>
          obtain ⟨hfits2, hvis2, hready, hcc2, hrest⟩ := ih hfits1 h
          refine ⟨hfits2, hvis2.trans hvis1, hready, Int.le_trans hcc2 hcc1, fun σ hag => ?_⟩
          obtain ⟨σ', -, hag', hrun⟩ := hagree σ hag (htextMode σ hag)
          rw [hd] at hag' hrun
          obtain ⟨σ'', hag'', hrun'⟩ := hrest σ' hag'
          exact ⟨σ'', hag'', hrun.trans hrun'⟩

theorem rastex_moves {dev : Device D} {s : Screen D} {bs : List Nat}
    (hhead : ∀ b bs', bs = b :: bs' → printable b = true → (dev.rastex1 s b).isSome)
    (htwo : (rastex dev s bs).2.2 = 2) : 0 < (rastex dev s bs).2.1 := by
  cases bs with
  | nil => cases htwo
  | cons b bs =>
    unfold rastex at *
    by_cases hb : printable b = true
    · obtain ⟨s', hs'⟩ := Option.isSome_iff_exists.1 (hhead b bs rfl hb)
      rw [if_pos hb, hs']
      exact Nat.succ_pos _
    · rw [if_neg hb] at htwo
      cases htwo

/-- Each call of `rastex` but the first draws a character, since one fits after a new line. -/
theorem textLoop_total (dev : Device D) (n : Nat) {r : Run D} (hfits : r.Fits)
    (hn : r.cc.toNat + 2 ≤ n ∨ (r.cc.toNat + 1 ≤ n ∧ ∀ b bs, r.left = b :: bs →
      printable b = true → (dev.rastex1 r.wp.screen b).isSome)) :
    ∃ r', textLoop dev n r = some r' := by
  induction n generalizing r with
  | zero => omega
  | succ n ih =>
    rw [textLoop]
    split
    case isFalse => exact ⟨r, rfl⟩
    case isTrue hgo =>
      obtain ⟨hfits1, -, -, hcc1, hwhy, hstops⟩ := drawn_keeps dev hfits
      rcases hout : rastex dev r.wp.screen r.left with ⟨s, k, why⟩
      rw [drawn_eq hout] at hfits1 hcc1 hwhy hstops ⊢
      dsimp only at hwhy hstops ⊢
      split
      case isTrue => exact ⟨_, rfl⟩
      case isFalse hone =>
        split
        case isTrue htwo =>
          split
          case isTrue => exact ⟨_, rfl⟩
          case isFalse =>
            refine ih hfits1 (.inr ⟨?_, fun b _ _ hb => dev.fits _ b hb⟩)
            change (r.cc - k).toNat + 1 ≤ n
            rcases hn with hn | ⟨hn, hhead⟩
            · omega
            · have hk : 0 < k := by
                have hmoves := rastex_moves hhead (by rw [hout]; exact htwo)
                rw [hout] at hmoves
                exact hmoves
              omega
        case isFalse htwo =>
          -- the bytes are all done
          have hzero : why = 0 := by omega
          rw [hzero] at hstops
          have hnil := congrArg List.length hstops
          rw [Run.length_left hfits1, List.length_nil] at hnil
          refine ih hfits1 (.inr ⟨?_, fun b bs hleft _ => ?_⟩)
          · rw [hnil]
            omega
          · rw [hstops] at hleft
            cases hleft

/-! ## The switch -/

/-- The functions of one character leave the buffer alone. -/
def Kept (r r' : Run D) : Prop := r'.cp = r.cp ∧ r'.cc = r.cc ∧ r'.visits = r.visits

theorem setParam_kept (i : Nat) (v : Int) (r : Run D) : Kept r (setParam i v r) := by
  unfold setParam
  split
  · exact ⟨rfl, rfl, rfl⟩
  · exact ⟨rfl, rfl, rfl⟩

theorem final_kept (dev : Device D) (c : Nat) (r : Run D) : Kept r (final dev c r) := by
  unfold final
  dsimp only
  split
  · exact ⟨rfl, rfl, rfl⟩
  · exact ⟨rfl, rfl, rfl⟩

theorem normChar_kept (dev : Device D) (c : Nat) (r : Run D) : Kept r (normChar dev c r) := by
  unfold normChar aspec
  split
  · exact ⟨rfl, rfl, rfl⟩
  · split
    · exact ⟨rfl, rfl, rfl⟩
    · exact ⟨rfl, rfl, rfl⟩

theorem escChar_kept (dev : Device D) (c : Nat) (r : Run D) : Kept r (escChar dev c r) := by
  unfold escChar
  split
  · exact ⟨rfl, rfl, rfl⟩
  · exact final_kept dev c r

theorem csiChar_kept (dev : Device D) (c : Nat) (r : Run D) : Kept r (csiChar dev c r) := by
  unfold csiChar
  split
  · exact setParam_kept 0 0 r
  · split
    · exact ⟨rfl, rfl, rfl⟩
    · split
      · exact setParam_kept 0 _ r
      · exact final_kept dev c r

theorem Kept.trans {r r' r'' : Run D} (h : Kept r r') (h' : Kept r' r'') : Kept r r'' :=
  ⟨h'.1.trans h.1, h'.2.1.trans h.2.1, h'.2.2.trans h.2.2⟩

theorem paramChar_kept (dev : Device D) (c : Nat) (r : Run D) : Kept r (paramChar dev c r) := by
  unfold paramChar
  split
  · exact (setParam_kept _ _ r).trans (setParam_kept _ _ _)
  · split
    · dsimp only
      split
      · exact Kept.trans ⟨rfl, rfl, rfl⟩ (setParam_kept _ _ _)
      · exact Kept.trans ⟨rfl, rfl, rfl⟩ (setParam_kept _ _ _)
    · exact Kept.trans ⟨rfl, rfl, rfl⟩ (final_kept dev c _)

theorem printable_mod (b : Nat) : printable (b % 128) = printable b := by
  unfold printable
  rw [Nat.mod_mod]

theorem getc_fits {r : Run D} (h : r.cc.toNat + 1 ≤ r.cp.length ∨ r.cc < 0) :
    (getc r).2.Fits := by
  unfold Run.Fits
  change r.cc.toNat ≤ r.cp.tail.length
  rw [List.length_tail]
  omega

theorem truncLoop_keeps {dev : Device D} (n : Nat) {c : Nat} {r : Run D} {out : Run D × Bool}
    (hfits : r.Fits) (h : truncLoop dev n c r = some out) :
    out.1.Fits ∧ out.1.visits = r.visits ∧ out.1.cc ≤ r.cc := by
  induction n generalizing c r with
  | zero => cases h
  | succ n ih =>
    rw [truncLoop] at h
    split at h
    · split at h
      · cases h
        refine ⟨?_, rfl, Int.sub_le_self _ (by decide)⟩
        unfold Run.Fits at *
        change (r.cc - 1).toNat ≤ r.cp.length
        omega
      · rename_i hcc
        have hzero : r.cc = 0 := by simpa using hcc
        obtain ⟨hfits', hvis, hle⟩ := ih (getc_fits (.inr (by
          change r.cc - 1 < 0
          omega))) h
        refine ⟨hfits', hvis, Int.le_trans hle ?_⟩
        exact Int.sub_le_self _ (by decide)
    · cases h
      obtain ⟨hcp, hcc, hvis⟩ := normChar_kept dev c { r with
        wp := { r.wp with
          astate := .norm } }
      refine ⟨?_, hvis, Int.le_of_eq hcc⟩
      unfold Run.Fits at *
      rw [hcp, hcc]
      exact hfits

theorem truncLoop_total {dev : Device D} (n c : Nat) (r : Run D) :
    ∃ out, truncLoop dev (n + 2) c r = some out := by
  rw [truncLoop]
  split
  · split
    · exact ⟨_, rfl⟩
    · rename_i hcc
      rw [truncLoop]
      split
      · have hne : (getc r.count).2.cc ≠ 0 := by
          change r.cc - 1 ≠ 0
          omega
        rw [if_pos hne]
        exact ⟨_, rfl⟩
      · exact ⟨_, rfl⟩
  · exact ⟨_, rfl⟩

theorem dispatch_total (dev : Device D) (n c : Nat) (r : Run D) :
    ∃ out, dispatch dev (n + 2) c r = some out := by
  unfold dispatch
  split
  · exact ⟨_, rfl⟩
  · exact ⟨_, rfl⟩
  · exact ⟨_, rfl⟩
  · exact ⟨_, rfl⟩
  · exact truncLoop_total n c r

theorem Kept.keeps {r r' : Run D} (h : Kept r r') (hfits : r.Fits) :
    r'.Fits ∧ r'.visits = r.visits ∧ r'.cc ≤ r.cc := by
  refine ⟨?_, h.2.2, Int.le_of_eq h.2.1⟩
  unfold Run.Fits
  rw [h.1, h.2.1]
  exact hfits

theorem dispatch_keeps {dev : Device D} {n c : Nat} {r : Run D} {out : Run D × Bool}
    (hfits : r.Fits) (h : dispatch dev n c r = some out) :
    out.1.Fits ∧ out.1.visits = r.visits ∧ out.1.cc ≤ r.cc := by
  unfold dispatch at h
  split at h
  · cases h
    exact (normChar_kept dev c r).keeps hfits
  · cases h
    exact (escChar_kept dev c r).keeps hfits
  · cases h
    exact (csiChar_kept dev c r).keeps hfits
  · cases h
    exact (paramChar_kept dev c r).keeps hfits
  · exact truncLoop_keeps n hfits h

/-- A run of printable characters in truncation. -/
theorem run_drop {dev : Device D} {σ : Spec D} (hmode : σ.mode = .drop) {bs : List Nat}
    (hbs : ∀ b ∈ bs, printable b = true) : σ.run dev bs = σ := by
  induction bs with
  | nil => rfl
  | cons b bs ih =>
    have hbyte : σ.byte dev b = σ := by
      unfold Spec.byte
      rw [hmode]
      dsimp only
      rw [if_pos (hbs b (List.mem_cons_self ..))]
    change Spec.run dev (σ.byte dev b) bs = σ
    rw [hbyte]
    exact ih fun b' hb' => hbs b' (List.mem_cons_of_mem _ hb')

theorem Kept.left {r r' : Run D} (h : Kept r r') : r'.left = r.left := by
  unfold Run.left
  rw [h.1, h.2.1]

/-- Where the interpreter without buffers is after what the switch did. -/
def After (dev : Device D) (σ : Spec D) (b : Nat) (r : Run D) (out : Run D × Bool) : Prop :=
  if out.2 then out.1.left = r.left ∧ Agrees dev out.1 (σ.byte dev b)
  else Agrees dev out.1 (σ.run dev (b :: r.left))

/-- The switch on a character of a sequence. -/
theorem After.seq {dev : Device D} {σ : Spec D} {b : Nat} {bs : List Nat} {r r' : Run D}
    (hmode : σ.mode = .seq bs) (hkept : Kept r r')
    (hag : Agrees dev r' (σ.seqChar dev bs (b % 128))) : After dev σ b r (r', true) := by
  refine ⟨hkept.left, ?_⟩
  have hbyte : σ.byte dev b = σ.seqChar dev bs (b % 128) := by
    unfold Spec.byte
    rw [hmode]
    rfl
  rw [hbyte]
  exact hag

/-- One visit of the switch. -/
theorem dispatch_agrees {dev : Device D} (hpos : 0 < dev.naparam) {n b : Nat} {r : Run D}
    {σ : Spec D} {out : Run D × Bool} (hag : Agrees dev r σ) (hready : r.wp.astate = .norm → printable b = false)
    (hmeets : Visit.Meets dev ⟨r.wp, b % 128, r.left⟩)
    (h : dispatch dev (n + 1) (b % 128) r = some out) : After dev σ b r out := by
  obtain ⟨hmcsi, hmparam, hmtrunc⟩ := hmeets
  unfold dispatch at h
  have hmode := hag.mode
  split at h
  case h_1 hnorm =>
    cases h
    have htext := mode_text hmode hnorm
    refine ⟨(normChar_kept dev _ r).left, ?_⟩
    have hbyte : σ.byte dev b = σ.control dev (b % 128) := by
      unfold Spec.byte
      rw [htext]
      dsimp only
      rw [if_neg (by rw [hready hnorm]; decide)]
    rw [hbyte]
    exact normChar_agrees hag.toSame hnorm htext
  case h_2 hesc =>
    cases h
    obtain ⟨hm, hdisp⟩ := mode_esc hmode hesc
    exact After.seq hm (escChar_kept dev _ r) (escChar_agrees hag.toSame hdisp)
  case h_3 hcsi =>
    cases h
    obtain ⟨b', body, hm, hdisp, hpart, hip⟩ := mode_csi hmode hcsi
    exact After.seq hm (csiChar_kept dev _ r)
      (csiChar_agrees hpos hag.toSame hdisp hpart hcsi hip (hmcsi hcsi))
  case h_4 hparam =>
    cases h
    obtain ⟨b', body, hm, hdisp, hpart, hip, hview⟩ := mode_param hmode hparam
    exact After.seq hm (paramChar_kept dev _ r)
      (paramChar_agrees hag.toSame hdisp hpart hparam hip hview (hmparam hparam))
  case h_5 htrunc =>
    have hm := mode_trunc hmode htrunc
    rw [truncLoop] at h
    by_cases hb : printable (b % 128) = true
    · obtain ⟨hne, hall⟩ := hmtrunc htrunc hb
      have hcc' : r.cc ≠ 0 := by
        intro hzero
        apply hne
        unfold Run.left
        rw [hzero]
        rfl
      rw [if_pos hb, if_pos hcc'] at h
      cases h
      change Agrees dev _ (σ.run dev (b :: r.left))
      rw [run_drop hm (List.forall_mem_cons.2 ⟨by rw [← printable_mod]; exact hb, hall⟩)]
      exact ⟨⟨hag.log, hag.screen, hag.len, hag.clean⟩, hmode⟩
    · rw [if_neg hb] at h
      cases h
      have hsame : Same dev { r with
          wp := { r.wp with
            astate := .norm } } { σ with
          mode := .text } := ⟨hag.log, hag.screen, hag.len, hag.clean⟩
      refine ⟨(normChar_kept dev _ _).left, ?_⟩
      have hbyte : σ.byte dev b = Spec.control dev (b % 128) { σ with
          mode := .text } := by
        unfold Spec.byte
        rw [hm]
        dsimp only
        rw [if_neg (by rw [← printable_mod]; exact hb)]
      rw [hbyte]
      exact normChar_agrees hsame rfl rfl

/-! ## The whole buffer -/

/-- Reading a byte that is there. -/
theorem nextc_spec {r : Run D} (hfits : r.Fits) (hcc : 0 < r.cc) :
    ∃ b, r.left = b :: (nextc r).2.left ∧ (nextc r).1 = b % 128 ∧ (nextc r).2.faults = r.faults ∧
      (nextc r).2.Fits ∧
      (nextc r).2.visits = r.visits ++ [⟨r.wp, b % 128, (nextc r).2.left⟩] := by
  unfold Run.Fits at hfits
  have hcut : r.cc.toNat = (r.cc - 1).toNat + 1 := by omega
  have hfaults : (nextc r).2.faults = r.faults := if_neg (by
    change ¬r.cc - 1 < 0
    omega)
  have hfits' : (nextc r).2.Fits := by
    change (r.cc - 1).toNat ≤ r.cp.tail.length
    rw [List.length_tail]
    omega
  cases hcp : r.cp with
  | nil =>
    rw [hcp, List.length_nil] at hfits
    omega
  | cons b cp =>
    have hc : (nextc r).1 = b % 128 := by
      change r.cp.headD 0 % 128 = _
      rw [hcp]
      rfl
    refine ⟨b, ?_, hc, hfaults, hfits', ?_⟩
    · change r.cp.take r.cc.toNat = b :: r.cp.tail.take (r.cc - 1).toNat
      rw [hcp, hcut]
      rfl
    · rw [← hc]
      rfl

theorem top_total (dev : Device D) (n : Nat) {r : Run D} (hfits : r.Fits)
    (hn : r.cc.toNat + 3 ≤ n) : ∃ r', top dev n r = some r' := by
  induction n generalizing r with
  | zero => omega
  | succ n ih =>
    obtain ⟨r1, h1⟩ := textLoop_total dev (n + 1) hfits (.inl (by omega))
    obtain ⟨hfits1, -, -, hcc1, -⟩ := textLoop_agrees (n + 1) hfits h1
    rw [top, h1, Option.bind_some]
    split
    · exact ⟨_, rfl⟩
    · rename_i hpos
      obtain ⟨-, -, -, -, hfits2, -⟩ := nextc_spec hfits1 (by omega)
      obtain ⟨m, rfl⟩ : ∃ m, n = m + 1 := ⟨n - 1, by omega⟩
      obtain ⟨out, hout⟩ := dispatch_total dev m (nextc r1).1 (nextc r1).2
      obtain ⟨hfits3, -, hcc3⟩ := dispatch_keeps hfits2 hout
      have hcc2 : (nextc r1).2.cc = r1.cc - 1 := rfl
      rw [hout, Option.bind_some]
      split
      · exact ih hfits3 (by omega)
      · exact ⟨_, rfl⟩

/-- One call after the first byte: the interpreter without buffers does what is left. -/
theorem top_agrees {dev : Device D} (hpos : 0 < dev.naparam) (n : Nat) {r r' : Run D}
    (hfits : r.Fits) (h : top dev n r = some r') :
    (∀ v ∈ r.visits, v ∈ r'.visits) ∧ ∀ σ, Agrees dev r σ →
      (∀ v ∈ r'.visits, v.Meets dev) → Agrees dev r' (σ.run dev r.left) := by
  induction n generalizing r with
  | zero => cases h
  | succ n ih =>
    rw [top, Option.bind_eq_some_iff] at h
    obtain ⟨r1, h1, h⟩ := h
    obtain ⟨hfits1, hvis1, hready, -, htext⟩ := textLoop_agrees (n + 1) hfits h1
    split at h
    case isTrue hend =>
      cases h
      refine ⟨fun v hv => by rw [← hvis1] at hv; exact hv, fun σ hag _ => ?_⟩
      obtain ⟨σ', hag', hrun⟩ := htext σ hag
      have hnil : r1.left = [] := by
        unfold Run.left
        rw [Int.toNat_eq_zero.2 hend]
        rfl
      rw [hrun, hnil]
      exact ⟨⟨hag'.log, hag'.screen, hag'.len, hag'.clean⟩, hag'.mode⟩
    case isFalse hmore =>
      have hcc1 : 0 < r1.cc := by omega
      obtain ⟨b, hleft, hc, hfaults, hfits2, hvis2⟩ := nextc_spec hfits1 hcc1
      rw [Option.bind_eq_some_iff] at h
      obtain ⟨out, hout, h⟩ := h
      obtain ⟨hfits3, hvis3, -⟩ := dispatch_keeps hfits2 hout
      rw [hc] at hout
      have hlater : ∀ v ∈ out.1.visits, v ∈ r'.visits := by
        split at h
        · exact (ih hfits3 h).1
        · cases h
          exact fun v hv => hv
      have hvis : out.1.visits = r.visits ++ [⟨r1.wp, b % 128, (nextc r1).2.left⟩] := by
        rw [hvis3, hvis2, hvis1]
      refine ⟨fun v hv => hlater v (by rw [hvis]; exact List.mem_append_left _ hv),
        fun σ hag hmeets => ?_⟩
      obtain ⟨σ', hag', hrun⟩ := htext σ hag
      have hag2 : Agrees dev (nextc r1).2 σ' :=
        ⟨⟨hag'.log, hag'.screen, hag'.len, hfaults.trans hag'.clean⟩, hag'.mode⟩
      have hctl : (nextc r1).2.wp.astate = .norm → printable b = false := fun hnorm => by
        obtain ⟨b', bs, hleft', hb'⟩ := hready hcc1 hnorm
        rw [hleft] at hleft'
        cases hleft'
        exact hb'
      have hafter := dispatch_agrees hpos hag2 hctl
        (hmeets _ (hlater _ (by rw [hvis]; exact List.mem_append_right _ (List.mem_singleton.2 rfl))))
        hout
      rw [hrun, hleft]
      unfold After at hafter
      split at h
      case isTrue hagain =>
        rw [if_pos hagain] at hafter
        obtain ⟨hkeep, hag3⟩ := hafter
        have hfinal := (ih hfits3 h).2 _ hag3 hmeets
        rw [hkeep] at hfinal
        exact hfinal
      case isFalse hleave =>
        cases h
        rw [if_neg hleave] at hafter
        exact hafter

/-- One call of `ansi`. -/
theorem ansi_agrees {dev : Device D} (hpos : 0 < dev.naparam) {n : Nat} {tbuf : Ccblock}
    {r : Run D} {out : Run D × Nat} (h : ansi dev n tbuf r = some out) :
    (∀ v ∈ r.visits, v ∈ out.1.visits) ∧ ∀ σ, Agrees dev r σ →
      (∀ v ∈ out.1.visits, v.Meets dev) → Agrees dev out.1 (σ.run dev tbuf.bytes) := by
  unfold ansi at h
  unfold Ccblock.bytes
  split at h
  case isTrue hzero =>
    cases h
    refine ⟨fun v hv => hv, fun σ hag _ => ?_⟩
    cases tbuf.c_ptr with
    | none => exact hag
    | some m =>
      change Agrees dev _ (σ.run dev (m.take tbuf.c_count))
      rw [hzero]
      exact hag
  case isFalse =>
    cases hptr : tbuf.c_ptr with
    | none =>
      rw [hptr] at h
      cases h
      exact ⟨fun v hv => hv, fun σ hag _ => hag⟩
    | some m =>
      rw [hptr] at h
      obtain ⟨r', hr', rfl⟩ := Option.map_eq_some_iff.1 h
      have hfits : ({ r with cp := m, cc := tbuf.c_count } : Run D).Fits := tbuf.alloc m hptr
      obtain ⟨hvis, hag'⟩ := top_agrees hpos n hfits hr'
      refine ⟨hvis, fun σ hag hmeets => ?_⟩
      exact hag' σ ⟨⟨hag.log, hag.screen, hag.len, hag.clean⟩, hag.mode⟩ hmeets

theorem ansi_total (dev : Device D) {n : Nat} {tbuf : Ccblock} (hn : tbuf.c_count + 3 ≤ n)
    (r : Run D) : ∃ out, ansi dev n tbuf r = some out := by
  unfold ansi
  split
  · exact ⟨_, rfl⟩
  · cases hptr : tbuf.c_ptr with
    | none => exact ⟨_, rfl⟩
    | some m =>
      have hfits : ({ r with cp := m, cc := tbuf.c_count } : Run D).Fits := tbuf.alloc m hptr
      obtain ⟨r', hr'⟩ := top_total dev n hfits hn
      exact ⟨(r', 0), congrArg (Option.map fun r' => (r', 0)) hr'⟩

/-! ## One call after the other -/

theorem ansis_total (dev : Device D) {n : Nat} (bufs : List Ccblock)
    (hn : ∀ b ∈ bufs, b.c_count + 3 ≤ n) (r : Run D) : ∃ r', ansis dev n bufs r = some r' := by
  induction bufs generalizing r with
  | nil => exact ⟨r, rfl⟩
  | cons b bufs ih =>
    obtain ⟨out, hout⟩ := ansi_total dev (hn b (List.mem_cons_self ..)) r
    obtain ⟨r', hr'⟩ := ih (fun b' hb' => hn b' (List.mem_cons_of_mem _ hb')) out.1
    exact ⟨r', by rw [ansis, hout, Option.bind_some, hr']⟩

theorem ansis_agrees {dev : Device D} (hpos : 0 < dev.naparam) {n : Nat} (bufs : List Ccblock)
    {r r' : Run D} (h : ansis dev n bufs r = some r') :
    (∀ v ∈ r.visits, v ∈ r'.visits) ∧ ∀ σ, Agrees dev r σ →
      (∀ v ∈ r'.visits, v.Meets dev) →
        Agrees dev r' (σ.run dev (bufs.flatMap Ccblock.bytes)) := by
  induction bufs generalizing r with
  | nil =>
    cases h
    exact ⟨fun v hv => hv, fun σ hag _ => hag⟩
  | cons b bufs ih =>
    rw [ansis, Option.bind_eq_some_iff] at h
    obtain ⟨out, hout, h⟩ := h
    obtain ⟨hvis, hag⟩ := ansi_agrees hpos hout
    obtain ⟨hvis', hag'⟩ := ih h
    refine ⟨fun v hv => hvis' v (hvis v hv), fun σ hσ hmeets => ?_⟩
    have hfirst := hag σ hσ fun v hv => hmeets v (hvis' v hv)
    rw [List.flatMap_cons, Spec.run_append]
    exact hag' _ hfirst hmeets

/-- The interpreter without buffers on a whole sequence: `esc`, characters that continue it, and the
one that ends it. -/
theorem run_sequence {dev : Device D} {σ : Spec D} (hmode : σ.mode = .text) {bs : List Nat} {c : Nat}
    (hbs : ∀ as b cs, bs = as ++ b :: cs → continues (as.map (· % 128)) (b % 128) = true)
    (hc : continues (bs.map (· % 128)) (c % 128) = false) :
    σ.run dev (0x1b :: bs ++ [c]) = σ.clear.call dev (decode dev (bs.map (· % 128)) (c % 128)).1
      (decode dev (bs.map (· % 128)) (c % 128)).2 := by
  have hesc : σ.byte dev 0x1b = { σ with
      mode := .seq [] } := by
    unfold Spec.byte
    rw [hmode]
    rfl
  have hkeep : ∀ cs as, bs = as ++ cs → Spec.run dev { σ with
      mode := .seq (as.map (· % 128)) } cs = { σ with
      mode := .seq (bs.map (· % 128)) } := by
    intro cs
    induction cs with
    | nil =>
      intro as has
      rw [has, List.append_nil]
      rfl
    | cons b cs ih =>
      intro as has
      have hnext := ih (as ++ [b]) (by rw [has, List.append_assoc]; rfl)
      rw [List.map_append] at hnext
      rw [← hnext]
      change Spec.run dev (Spec.byte dev _ b) cs = _
      unfold Spec.byte
      dsimp only
      rw [if_pos (hbs as b cs has)]
      rfl
  rw [List.cons_append]
  change Spec.run dev (σ.byte dev 0x1b) (bs ++ [c]) = _
  have hseq := hkeep bs [] rfl
  rw [List.map_nil] at hseq
  rw [hesc, Spec.run_append, hseq]
  change Spec.byte dev { σ with
    mode := .seq (bs.map (· % 128)) } c = _
  unfold Spec.byte
  dsimp only
  rw [if_neg (by rw [hc]; decide)]
  rfl

/-- In truncation the printable characters are dropped, and text goes on with the next control
character. -/
theorem run_truncated {dev : Device D} {σ : Spec D} (hmode : σ.mode = .drop) {bs : List Nat} {c : Nat}
    (hbs : ∀ b ∈ bs, printable b = true) (hc : printable c = false) (cs : List Nat) :
    σ.run dev (bs ++ c :: cs) = Spec.run dev { σ with
      mode := .text } (c :: cs) := by
  rw [Spec.run_append, run_drop hmode hbs]
  change Spec.run dev (σ.byte dev c) cs = Spec.run dev (Spec.byte dev _ c) cs
  unfold Spec.byte
  rw [hmode]
  dsimp only
  rw [if_neg (by rw [hc]; decide), if_neg (by rw [hc]; decide)]

/-- Every stream in every cutting: the calls return, and when each visit of the switch meets the
condition nothing goes out of bounds, the calls do what the interpreter without buffers does on the
whole stream, and another cutting that meets it does the same. -/
theorem ansis_meets (dev : Device D) (hpos : 0 < dev.naparam) (w : Window D)
    (hnorm : w.astate = .norm) (hlen : w.aparam.length = dev.naparam) (n : Nat)
    (bufs : List Ccblock) (hn : ∀ b ∈ bufs, b.c_count + 3 ≤ n) :
    ∃ r, ansis dev n bufs (start w) = some r ∧ ((∀ v ∈ r.visits, v.Meets dev) →
      r.faults = [] ∧
      Agrees dev r (Spec.run dev ⟨.text, w.screen, []⟩ (bufs.flatMap Ccblock.bytes)) ∧
      ∀ m bufs' r', bufs'.flatMap Ccblock.bytes = bufs.flatMap Ccblock.bytes →
        ansis dev m bufs' (start w) = some r' → (∀ v ∈ r'.visits, v.Meets dev) →
        r'.log = r.log ∧ r'.wp.screen = r.wp.screen ∧ r'.wp.astate = r.wp.astate) := by
  obtain ⟨r, hr⟩ := ansis_total dev bufs hn (start w)
  have hstart : Agrees dev (start w) ⟨.text, w.screen, []⟩ := ⟨⟨rfl, rfl, hlen, rfl⟩, hnorm⟩
  refine ⟨r, hr, fun hmeets => ?_⟩
  have hag := (ansis_agrees hpos bufs hr).2 _ hstart hmeets
  refine ⟨hag.clean, hag, fun m bufs' r' hbytes hr' hmeets' => ?_⟩
  have hag' := (ansis_agrees hpos bufs' hr').2 _ hstart hmeets'
  rw [hbytes] at hag'
  exact ⟨hag'.log.trans hag.log.symm, hag'.screen.trans hag.screen.symm,
    astate_mode hag'.mode hag.mode⟩

/-! ## A window of eighty columns -/

/-- The drawing of a window that keeps its column only. -/
def columns : Device Nat where
  naparam := 8
  store := id
  store_zero := rfl
  rastex1 s _ := if s.rest < 80 then some { s with rest := s.rest + 1 } else none
  perform f args s :=
    match f with
    | anel => ({ s with rest := 0 }, 0)
    | acr => ({ s with rest := 0 }, 0)
    | awrap => ({ s with anowrap := args.headD 0 == 0 }, 1)
    | _ => (s, 0)
  fits _ _ _ := rfl

def blank : Window Nat := ⟨.norm, escdisp, 0, 0, List.replicate 8 0, ⟨false, false, 0⟩⟩

/-- A buffer of these bytes, with others behind it in memory. -/
def block (bs behind : List Nat) : Ccblock where
  c_count := bs.length
  c_ptr := some (bs ++ behind)
  alloc m hm := by
    cases hm
    rw [List.length_append]
    exact Nat.le_add_right _ _

/-- What a run of calls has done and where it went wrong. -/
def outcome (bufs : List Ccblock) : Option (List Event × List Fault) :=
  (ansis columns 200 bufs (start blank)).map fun r => (r.log, r.faults)

/-- `esc [ 5 ; 7 H`. -/
def cursor57 : List Nat := [0x1b, 0x5b, 0x35, 0x3b, 0x37, 0x48]

/-- `esc [ ; H`. -/
def cursorHome : List Nat := [0x1b, 0x5b, 0x3b, 0x48]

/-- `esc [ = 0 W`: no wrap. -/
def noWrap : List Nat := [0x1b, 0x5b, 0x3d, 0x30, 0x57]

/-- The second parameter of `esc [ ; H` is that of an earlier sequence; eight semicolons write behind
`w_aparam`; in truncation a byte behind the buffer is read, and a control character is lost or not as
the stream is cut. -/
theorem ansis_stale :
    outcome [block cursorHome []] = some ([.call acup [0, 0]], []) ∧
    outcome [block (cursor57 ++ cursorHome) []] =
      some ([.call acup [5, 7], .call acup [0, 7]], []) ∧
    (outcome [block ([0x1b, 0x5b, 0x31] ++ List.replicate 8 0x3b) []]).map Prod.snd =
      some [.outOfBounds 8] ∧
    (outcome [block (noWrap ++ List.replicate 81 0x61) []]).map Prod.snd = some [.overread] ∧
    outcome [block (noWrap ++ List.replicate 82 0x61 ++ [0x0d]) []] =
      some (.call awrap [0] :: List.replicate 80 (.text 0x61), []) ∧
    outcome [block (noWrap ++ List.replicate 82 0x61) [], block [0x0d] []] =
      some (.call awrap [0] :: List.replicate 80 (.text 0x61) ++ [.call acr []], []) := by
  decide

/-- A stream that meets the condition. -/
theorem ansis_meets_columns :
    ∃ r, ansis columns 200 [block cursor57 []] (start blank) = some r ∧
      (∀ v ∈ r.visits, v.Meets columns) ∧ r.faults = [] ∧
      Agrees columns r (Spec.run columns ⟨.text, blank.screen, []⟩
        ([block cursor57 []].flatMap Ccblock.bytes)) := by
  obtain ⟨r, hr, hmeets⟩ := ansis_meets columns (by decide) blank rfl rfl 200 [block cursor57 []]
    (by decide)
  have hall : (ansis columns 200 [block cursor57 []] (start blank)).map
      (fun r => decide (∀ v ∈ r.visits, v.Meets columns)) = some true := by decide
  rw [hr] at hall
  have hvisits : ∀ v ∈ r.visits, v.Meets columns := of_decide_eq_true (Option.some.inj hall)
  obtain ⟨hclean, hag, -⟩ := hmeets hvisits
  exact ⟨r, hr, hvisits, hclean, hag⟩

end Venix.Ansi
