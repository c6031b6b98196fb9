/-
  The arguments of `exece` come through.

  `Stored`: what has been collected is in the blocks of the swap space and in the buffer.
  `Laid`: what has been copied back is on the new stack. `exece_args` says exactly when a call does
  what it should: the arguments have fewer than `NCARGS` characters, and the words fit on the
  initial stack, which has `SSIZE` clicks for them; a word that does not fit is lost without an
  error.
-/
import Venix.Kernel.Exece

namespace Venix.Kernel

open Venix.Lib

/-! ## Strings and vectors in a memory -/

/-- The string `s` is at `a`. -/
def StrAt (m : Space) : BitVec 16 → List Byte → Prop
  | a, [] => m.fubyte a = some 0
  | a, c :: s => c ≠ 0 ∧ m.fubyte a = some c ∧ StrAt m (a + 1) s

/-- The pointers of `l` are at `p`, in the memory of the caller. The end of the address space ends
    a vector too, and the null pointer is an empty one. -/
def VecAt (m : Space) : BitVec 16 → List (List Byte) → Prop
  | p, [] => p = 0 ∨ m.fuword p = 0
  | p, s :: l => p ≠ 0 ∧ m.fuword p ≠ 0 ∧ m.fuword p ≠ -1 ∧ StrAt m (m.fuword p) s ∧
      VecAt m (p + 2) l

/-- The pointers of `l`, and 0, are at `a` on the stack. -/
def PtrsAt (m : Space) : Nat → List (List Byte) → Prop
  | a, [] => m.word a = some 0
  | a, s :: l => ∃ p, m.word a = some p ∧ p ≠ 0 ∧ StrAt m p s ∧ PtrsAt m (a + 2) l

/-- The stack at `sp` has the count, the arguments and the environment. -/
def Decodes (m : Space) (sp : BitVec 16) (argv envv : List (List Byte)) : Prop :=
  m.word sp.toNat = some (BitVec.ofNat 16 argv.length) ∧ PtrsAt m (sp.toNat + 2) argv ∧
    PtrsAt m (sp.toNat + 2 * (argv.length + 2)) envv

/-- The characters of the strings, each with its 0. -/
def chars (l : List (List Byte)) : List Byte := l.flatMap (· ++ [0])

theorem chars_cons (s : List Byte) (l : List (List Byte)) : chars (s :: l) = s ++ 0 :: chars l := by
  simp [chars]

theorem chars_append (l l' : List (List Byte)) : chars (l ++ l') = chars l ++ chars l' :=
  List.flatMap_append

theorem StrAt.nonzero {m : Space} {a : BitVec 16} {s : List Byte} (h : StrAt m a s) : ∀ c ∈ s, c ≠ 0 := by
  induction s generalizing a with
  | nil => simp
  | cons c s ih =>
    obtain ⟨hc, -, hs⟩ := h
    intro d hd
    rcases List.mem_cons.mp hd with rfl | hd
    · exact hc
    · exact ih hs d hd

theorem strAt_unique {m : Space} {a : BitVec 16} {s s' : List Byte} (h : StrAt m a s)
    (h' : StrAt m a s') : s = s' := by
  induction s generalizing a s' with
  | nil =>
    cases s' with
    | nil => rfl
    | cons d s' =>
      rw [StrAt] at h
      obtain ⟨hd, hb, -⟩ := h'
      rw [h] at hb
      exact absurd (Option.some.inj hb).symm hd
  | cons c s ih =>
    obtain ⟨hc, hb, hs⟩ := h
    cases s' with
    | nil =>
      rw [StrAt, hb] at h'
      exact absurd (Option.some.inj h') hc
    | cons d s' =>
      obtain ⟨-, hb', hs'⟩ := h'
      rw [hb] at hb'
      rw [Option.some.inj hb', ih hs hs']

theorem VecAt.nonzero {m : Space} {p : BitVec 16} {l : List (List Byte)} (h : VecAt m p l) :
    ∀ s ∈ l, ∀ c ∈ s, c ≠ 0 := by
  induction l generalizing p with
  | nil => simp
  | cons s l ih =>
    obtain ⟨-, -, -, hs, hl⟩ := h
    intro t ht
    rcases List.mem_cons.mp ht with rfl | ht
    · exact hs.nonzero
    · exact ih hl t ht

/-! ## Collecting -/

namespace Exec

variable {x : Execa} {s : Exec} {out : List Byte}

/-- What the call holds while it has the inode. -/
structure Holds (s : Exec) : Prop where
  busy : s.busy = s.bp.toList
  space : s.space = if s.bno = 0 then [] else [s.bno]
  inodes : s.inodes = 1

/-- Nothing is held. -/
structure Clean (s : Exec) : Prop where
  busy : s.busy = []
  space : s.space = []
  inodes : s.inodes = 0

theorem bad_clean (h : s.Holds) : s.bad.Clean := by
  have hb : s.busy = s.bp.toList := h.busy
  have hs := h.space
  have hi := h.inodes
  unfold bad ifBp brelse
  cases hbp : s.bp with
  | none =>
    rw [hbp] at hb
    dsimp only
    split
    · rename_i hne
      rw [if_neg hne] at hs
      exact ⟨hb, by simp [hs], by simp [hi]⟩
    · rename_i hne
      rw [if_pos (by simpa using hne)] at hs
      exact ⟨hb, hs, by simp [hi]⟩
  | some b =>
    rw [hbp] at hb
    dsimp only
    split
    · rename_i hne
      rw [if_neg hne] at hs
      exact ⟨by simp [hb], by simp [hs], by simp [hi]⟩
    · rename_i hne
      rw [if_pos (by simpa using hne)] at hs
      exact ⟨by simp [hb], hs, by simp [hi]⟩

/-- The block of the character `i`. -/
def blockOf (x : Execa) (s : Exec) (i : Nat) : Nat := x.swplo + s.bno + i / bsize

/-- The characters `out` have been collected. -/
structure Stored (x : Execa) (s : Exec) (out : List Byte) : Prop extends Holds s where
  nc : s.nc = out.length
  bp : s.bp = if out = [] then none else some (blockOf x s (out.length - 1))
  cp : out ≠ [] → s.cp = (out.length - 1) % bsize + 1
  bytes : ∀ i c, out[i]? = some c →
    (if s.bp = some (blockOf x s i) then s.buf else s.disk (blockOf x s i)) (i % bsize) = c

theorem Stored.store (h : Stored x s out) (c : Byte) : Stored x (s.store x c) (out ++ [c]) := by
  obtain ⟨⟨hbusy, hspace, hinodes⟩, hnc, hbp, hcp, hbytes⟩ := h
  have hlast : (out ++ [c]).length - 1 = out.length := by simp
  unfold Exec.store
  by_cases hz : s.nc % bsize = 0
  · rw [if_pos hz]
    -- the next block
    have hblock : s.block x = blockOf x s out.length := by
      unfold Exec.block blockOf
      rw [hnc]
    rw [hnc] at hz
    cases hb : s.bp with
    | none =>
      have hnil : out = [] := by
        by_contra hne
        rw [hb, if_neg hne] at hbp
        cases hbp
      subst hnil
      have hi : s.ifBp bawrite = s := by
        unfold ifBp
        rw [hb]
      rw [hi]
      refine ⟨⟨?_, hspace, hinodes⟩, ?_, ?_, ?_, ?_⟩
      · change s.block x :: s.busy = [s.block x]
        rw [hbusy, hb]
        rfl
      · change s.nc + 1 = _
        rw [hnc]
        rfl
      · change some (s.block x) = _
        rw [hblock]
        rfl
      · intro _
        rfl
      · intro i d hd
        have hi0 : i = 0 := by
          by_contra hne
          rw [List.nil_append, List.getElem?_eq_none (by simp; omega)] at hd
          cases hd
        subst hi0
        cases hd
        change (if some (s.block x) = some (blockOf x s 0) then Function.update (x.junk _) 0 c
          else s.disk (blockOf x s 0)) 0 = c
        rw [hblock, List.length_nil, if_pos rfl, Function.update_self]
    | some b =>
      have hne : out ≠ [] := by
        rintro rfl
        rw [hb] at hbp
        cases hbp
      rw [hb, if_neg hne] at hbp
      have hbb : b = blockOf x s (out.length - 1) := Option.some.inj hbp
      have hi : s.ifBp bawrite = bawrite b s := by
        unfold ifBp
        rw [hb]
      rw [hi]
      have hpos : 0 < out.length := List.length_pos_iff.mpr hne
      have hprev : b ≠ blockOf x s out.length := by
        rw [hbb]
        unfold blockOf bsize at *
        clear * - hz hpos
        omega
      refine ⟨⟨?_, hspace, hinodes⟩, ?_, ?_, ?_, ?_⟩
      · change s.block x :: (s.busy.erase b) = [s.block x]
        rw [hbusy, hb]
        simp
      · change s.nc + 1 = _
        rw [hnc, List.length_append]
        rfl
      · rw [if_neg (by simp)]
        change some (s.block x) = some (blockOf x s ((out ++ [c]).length - 1))
        rw [hblock, hlast]
      · intro _
        change 0 + 1 = _
        rw [List.length_append, List.length_singleton, Nat.add_sub_cancel, hz]
      · intro i d hd
        change (if some (s.block x) = some (blockOf x s i) then Function.update (x.junk _) 0 c
          else Function.update s.disk b s.buf (blockOf x s i)) (i % bsize) = d
        rw [hblock]
        by_cases hlt : i < out.length
        · have hbi : blockOf x s out.length ≠ blockOf x s i := by
            unfold blockOf bsize at *
            omega
          rw [if_neg (by simpa using hbi)]
          rw [List.getElem?_append_left hlt] at hd
          have h1 := hbytes i d hd
          rw [hb] at h1
          by_cases he : b = blockOf x s i
          · rw [if_pos (by rw [he])] at h1
            rw [he, Function.update_self]
            exact h1
          · rw [if_neg (by simpa using he)] at h1
            rw [Function.update_of_ne (Ne.symm he)]
            exact h1
        · have hil : i = out.length := by
            by_contra hne'
            rw [List.getElem?_eq_none (by simp; omega)] at hd
            cases hd
          subst hil
          rw [if_pos rfl, hz, Function.update_self]
          simpa using hd
  · rw [if_neg hz]
    -- the same block
    rw [hnc] at hz
    have hne : out ≠ [] := by
      rintro rfl
      exact hz rfl
    rw [if_neg hne] at hbp
    have hcp' : s.cp = out.length % bsize := by
      rw [hcp hne]
      unfold bsize at hz ⊢
      clear * - hz
      omega
    have hsame : blockOf x s (out.length - 1) = blockOf x s out.length := by
      unfold blockOf bsize at *
      clear * - hz
      omega
    refine ⟨⟨hbusy, hspace, hinodes⟩, ?_, ?_, ?_, ?_⟩
    · change s.nc + 1 = _
      rw [hnc, List.length_append]
      rfl
    · rw [if_neg (by simp)]
      change s.bp = some (blockOf x s ((out ++ [c]).length - 1))
      rw [hbp, hsame, hlast]
    · intro _
      change s.cp + 1 = _
      rw [hcp', List.length_append, List.length_singleton, Nat.add_sub_cancel]
    · intro i d hd
      change (if s.bp = some (blockOf x s i) then Function.update s.buf s.cp c
        else s.disk (blockOf x s i)) (i % bsize) = d
      by_cases hlt : i < out.length
      · rw [List.getElem?_append_left hlt] at hd
        have h1 := hbytes i d hd
        by_cases he : s.bp = some (blockOf x s i)
        · rw [if_pos he] at h1 ⊢
          have hoff : i % bsize ≠ s.cp := by
            rw [hbp, hsame] at he
            have h2 := Option.some.inj he
            unfold blockOf bsize at *
            omega
          rw [Function.update_of_ne hoff]
          exact h1
        · rw [if_neg he] at h1 ⊢
          exact h1
      · have hil : i = out.length := by
          by_contra hne'
          rw [List.getElem?_eq_none (by simp; omega)] at hd
          cases hd
        subst hil
        rw [hbp, hsame, if_pos rfl, hcp', Function.update_self]
        simpa using hd

/-- The error is one that the arguments may give. -/
def ArgErr (s : Exec) : Prop := s.err = some .e2big ∨ s.err = some .efault

theorem store_err (x : Execa) (s : Exec) (c : Byte) : (s.store x c).err = s.err := by
  unfold Exec.store ifBp
  split
  · cases s.bp <;> rfl
  · rfl

theorem store_na (x : Execa) (s : Exec) (c : Byte) :
    (s.store x c).na = s.na ∧ (s.store x c).ne = s.ne := by
  unfold Exec.store ifBp
  split
  · cases s.bp <;> exact ⟨rfl, rfl⟩
  · exact ⟨rfl, rfl⟩

theorem store_bno (x : Execa) (s : Exec) (c : Byte) : (s.store x c).bno = s.bno := by
  unfold Exec.store ifBp
  split
  · cases s.bp <;> rfl
  · rfl

theorem checkChar_cases (x : Execa) (ap : BitVec 16) (s : Exec) :
    (∃ e, (e = .e2big ∨ e = .efault) ∧ s.checkChar x ap = some e ∧
      (ncargs - 1 ≤ s.nc ∨ x.mem.fubyte ap = none)) ∨
    ∃ c, s.nc < ncargs - 1 ∧ x.mem.fubyte ap = some c ∧ s.checkChar x ap = s.err := by
  unfold checkChar
  dsimp only
  cases hc : x.mem.fubyte ap with
  | none => exact .inl ⟨.efault, .inr rfl, if_pos rfl, .inr rfl⟩
  | some c =>
    rw [if_neg (by simp)]
    by_cases hlim : s.nc ≥ ncargs - 1
    · exact .inl ⟨.e2big, .inl rfl, if_pos hlim, .inl hlim⟩
    · exact .inr ⟨c, by omega, rfl, if_neg hlim⟩

/-- One turn of the loop: an error, or the character. -/
theorem collectStr_turn (hs : s.err = none) (n : Nat) (ap : BitVec 16) :
    (∃ e, (e = .e2big ∨ e = .efault) ∧ collectStr x (n + 1) ap s = some { s with err := some e } ∧
      (ncargs - 1 ≤ s.nc ∨ x.mem.fubyte ap = none)) ∨
    ∃ c, s.nc < ncargs - 1 ∧ x.mem.fubyte ap = some c ∧ collectStr x (n + 1) ap s =
      if c ≠ 0 then collectStr x n (ap + 1) (s.store x c) else some (s.store x c) := by
  rw [collectStr]
  rcases checkChar_cases x ap s with ⟨e, he, h1, h2⟩ | ⟨c, h1, h2, h3⟩
  · rw [h1]
    exact .inl ⟨e, he, rfl, h2⟩
  · rw [h3, hs, h2]
    exact .inr ⟨c, h1, rfl, rfl⟩

theorem Stored.withErr (h : Stored x s out) (e : Option Errno) : Stored x { s with err := e } out :=
  ⟨⟨h.busy, h.space, h.inodes⟩, h.nc, h.bp, h.cp, h.bytes⟩

/-- The string at `ap` is collected if it ends before the limit; else there is an error. -/
theorem collectStr_spec (n : Nat) (h : Stored x s out) (hs : s.err = none)
    (hlen : out.length ≤ ncargs - 1) (hn : ncargs ≤ n + out.length) (ap : BitVec 16) :
    ∃ s', collectStr x n ap s = some s' ∧
      ((∃ str, StrAt x.mem ap str ∧ Stored x s' (out ++ (str ++ [0])) ∧
          out.length + str.length + 1 ≤ ncargs - 1 ∧ s'.err = none ∧
          s'.na = s.na ∧ s'.ne = s.ne ∧ s'.bno = s.bno) ∨
        Holds s' ∧ ArgErr s' ∧
          ∀ str, StrAt x.mem ap str → ncargs - 1 < out.length + str.length + 1) := by
  induction n generalizing s out ap with
  | zero =>
    unfold ncargs at *
    omega
  | succ n ih =>
    rcases collectStr_turn (x := x) hs n ap with ⟨e, he, heq, hwhy⟩ | ⟨c, hlt, hc, heq⟩
    · refine ⟨_, heq, .inr ⟨(h.withErr (some e)).toHolds, ?_, fun str hstr => ?_⟩⟩
      · rcases he with rfl | rfl
        · exact .inl rfl
        · exact .inr rfl
      · rw [h.nc] at hwhy
        rcases hwhy with hwhy | hwhy
        · omega
        · cases str with
          | nil =>
            rw [StrAt, hwhy] at hstr
            cases hstr
          | cons d str =>
            obtain ⟨-, hd, -⟩ := hstr
            rw [hwhy] at hd
            cases hd
    · rw [h.nc] at hlt
      rw [heq]
      by_cases h0 : c = 0
      · subst h0
        rw [if_neg (by simp)]
        refine ⟨_, rfl, .inl ⟨[], hc, h.store 0, ?_, ?_, ?_⟩⟩
        · rw [List.length_nil]
          omega
        · rw [store_err, hs]
        · exact ⟨(store_na x s 0).1, (store_na x s 0).2, store_bno x s 0⟩
      · rw [if_pos h0]
        obtain ⟨s', hs', hcase⟩ := ih (h.store c) (by rw [store_err, hs])
          (by rw [List.length_append, List.length_singleton]; omega)
          (by rw [List.length_append, List.length_singleton]; omega) (ap + 1)
        rw [List.length_append, List.length_singleton] at hcase
        refine ⟨s', hs', ?_⟩
        rcases hcase with ⟨str, h1, h2, h3, h4, h5, h6, h7⟩ | ⟨h1, h2, h3⟩
        · refine .inl ⟨c :: str, ⟨h0, hc, h1⟩, ?_, ?_, h4, ?_, ?_, ?_⟩
          · simpa using h2
          · rw [List.length_cons]
            omega
          · rw [h5, (store_na x s c).1]
          · rw [h6, (store_na x s c).2]
          · rw [h7, store_bno]
        · refine .inr ⟨h1, h2, fun str hstr => ?_⟩
          cases str with
          | nil =>
            rw [StrAt, hc] at hstr
            exact absurd (Option.some.inj hstr) h0
          | cons d str =>
            have h4 := h3 str hstr.2.2
            rw [List.length_cons]
            omega

/-- After an error the loop over the strings stops. -/
theorem collectStr_err (n : Nat) (hs : s.err = some .efault) (ap : BitVec 16) :
    ∃ e, (e = .e2big ∨ e = .efault) ∧ collectStr x (n + 1) ap s = some { s with err := some e } := by
  rw [collectStr]
  rcases checkChar_cases x ap s with ⟨e, he, h1, -⟩ | ⟨c, -, -, h3⟩
  · rw [h1]
    exact ⟨e, he, rfl⟩
  · rw [h3, hs]
    exact ⟨.efault, .inr rfl, rfl⟩

/-- What `nextPtr` finds: the end of both vectors, or the next string of one of them. -/
theorem nextPtr_cases (x : Execa) (s : Exec) (argp envp : BitVec 16) :
    ((nextPtr x argp envp s).1 = 0 ∧ (nextPtr x argp envp s).2.2.2 = s ∧ VecAt x.mem argp [] ∧
      VecAt x.mem envp []) ∨
    (argp ≠ 0 ∧ x.mem.fuword argp ≠ 0 ∧
      nextPtr x argp envp s = (x.mem.fuword argp, argp + 2, envp, s)) ∨
    (VecAt x.mem argp [] ∧ envp ≠ 0 ∧ x.mem.fuword envp ≠ 0 ∧
      nextPtr x argp envp s = (x.mem.fuword envp, 0, envp + 2, { s with ne := s.ne + 1 })) := by
  unfold nextPtr
  dsimp only
  by_cases ha : argp ≠ 0 ∧ x.mem.fuword argp ≠ 0
  · obtain ⟨ha, hw⟩ := ha
    refine .inr (.inl ⟨ha, hw, ?_⟩)
    rw [if_pos ha, if_pos ha, if_neg (fun h => hw h.1)]
  · have hargs : VecAt x.mem argp [] := by
      by_cases h0 : argp = 0
      · exact .inl h0
      · exact .inr (by_contra fun hw => ha ⟨h0, hw⟩)
    have hap : (if argp ≠ 0 then x.mem.fuword argp else 0) = 0 := by
      split
      · rename_i h0
        exact hargs.resolve_left h0
      · rfl
    rw [hap]
    by_cases he : envp ≠ 0
    · rw [if_pos ⟨rfl, he⟩]
      by_cases hw : x.mem.fuword envp = 0
      · rw [if_pos hw]
        exact .inl ⟨rfl, rfl, hargs, .inr hw⟩
      · rw [if_neg hw]
        exact .inr (.inr ⟨hargs, he, hw, rfl⟩)
    · rw [if_neg (fun h => he h.2)]
      exact .inl ⟨rfl, rfl, hargs, .inl (by simpa using he)⟩

theorem vecAt_nil {m : Space} {p : BitVec 16} {l : List (List Byte)} (h : VecAt m p l)
    (hend : VecAt m p []) : l = [] := by
  cases l with
  | nil => rfl
  | cons s l =>
    obtain ⟨h1, h2, -⟩ := h
    rcases hend with h3 | h3
    · exact absurd h3 h1
    · exact absurd h3 h2

/-- The argument at `ap` is counted. -/
def counted (ap : BitVec 16) (s : Exec) : Exec :=
  if ap = -1 then { s with na := s.na + 1, err := some .efault } else { s with na := s.na + 1 }

theorem collect_stop {argp envp : BitVec 16} (n : Nat) (h : (nextPtr x argp envp s).1 = 0) :
    collect x (n + 1) argp envp s = some (nextPtr x argp envp s).2.2.2 := by
  rw [collect]
  exact if_pos h

theorem collect_next {argp envp ap argp' envp' : BitVec 16} {s₁ : Exec} (n : Nat)
    (h : nextPtr x argp envp s = (ap, argp', envp', s₁)) (hap : ap ≠ 0) :
    collect x (n + 1) argp envp s = (collectStr x strBound ap (counted ap s₁)).bind fun s =>
      if s.err ≠ none then some s else collect x n argp' envp' s := by
  rw [collect, h]
  dsimp only
  rw [if_neg hap]
  unfold counted
  generalize collectStr x strBound ap _ = r
  cases r with
  | none => rfl
  | some s => rfl

/-- The loop over the strings: all are collected if they end before the limit. -/
theorem collect_spec (n : Nat) (h : Stored x s out) (hs : s.err = none)
    (hlen : out.length ≤ ncargs - 1) (hn : ncargs + 1 ≤ n + out.length) (argp envp : BitVec 16) :
    ∃ s', collect x n argp envp s = some s' ∧
      ((∃ argv envv, VecAt x.mem argp argv ∧ VecAt x.mem envp envv ∧
          Stored x s' (out ++ chars (argv ++ envv)) ∧
          out.length + (chars (argv ++ envv)).length ≤ ncargs - 1 ∧ s'.err = none ∧
          s'.na = s.na + argv.length + envv.length ∧ s'.ne = s.ne + envv.length ∧ s'.bno = s.bno) ∨
        Holds s' ∧ ArgErr s' ∧ ∀ argv envv, VecAt x.mem argp argv → VecAt x.mem envp envv →
          ncargs - 1 < out.length + (chars (argv ++ envv)).length) := by
  induction n generalizing s out argp envp with
  | zero =>
    unfold ncargs at *
    omega
  | succ n ih =>
    -- a string is next: the step, and what it says of the vectors
    have hstep : ∀ (ap argp' envp' : BitVec 16) (s₁ : Exec), Stored x s₁ out → s₁.err = none →
        s₁.bno = s.bno → ap ≠ 0 → ∃ s',
        ((collectStr x strBound ap (counted ap s₁)).bind fun s =>
          if s.err ≠ none then some s else collect x n argp' envp' s) = some s' ∧
        ((∃ str argv envv, ap ≠ -1 ∧ StrAt x.mem ap str ∧ VecAt x.mem argp' argv ∧
            VecAt x.mem envp' envv ∧
            Stored x s' (out ++ (str ++ [0]) ++ chars (argv ++ envv)) ∧
            out.length + (str.length + 1) + (chars (argv ++ envv)).length ≤ ncargs - 1 ∧
            s'.err = none ∧ s'.na = s₁.na + 1 + argv.length + envv.length ∧
            s'.ne = s₁.ne + envv.length ∧ s'.bno = s.bno) ∨
          Holds s' ∧ ArgErr s' ∧ ∀ str argv envv, ap ≠ -1 → StrAt x.mem ap str →
            VecAt x.mem argp' argv → VecAt x.mem envp' envv →
            ncargs - 1 < out.length + (str.length + 1) + (chars (argv ++ envv)).length) := by
      intro ap argp' envp' s₁ h₁ he₁ hb₁ hap
      have h₂ : Stored x { s₁ with na := s₁.na + 1 } out :=
        ⟨⟨h₁.busy, h₁.space, h₁.inodes⟩, h₁.nc, h₁.bp, h₁.cp, h₁.bytes⟩
      unfold counted
      by_cases hm : ap = -1
      · rw [if_pos hm]
        obtain ⟨e, he, heq⟩ := collectStr_err (x := x) (ncargs - 1)
          (s := { s₁ with na := s₁.na + 1, err := some .efault }) rfl ap
        rw [show strBound = ncargs - 1 + 1 by decide, heq]
        refine ⟨_, (Option.bind_some ..).trans (if_pos (by simp)),
          .inr ⟨(h₂.withErr (some e)).toHolds, ?_, ?_⟩⟩
        · rcases he with rfl | rfl
          · exact .inl rfl
          · exact .inr rfl
        · intro str argv envv hne
          exact absurd hm hne
      · rw [if_neg hm]
        obtain ⟨s₃, hs₃, hcase⟩ := collectStr_spec strBound h₂ he₁ hlen
          (by unfold strBound; omega) ap
        rw [hs₃, Option.bind_some]
        rcases hcase with ⟨str, h3, h4, h5, h6, h7, h8, h9⟩ | ⟨h3, h4, h5⟩
        · rw [if_neg (by simp [h6])]
          have hl : (out ++ (str ++ [0])).length = out.length + (str.length + 1) := by simp
          obtain ⟨s', hs', hcase'⟩ := ih h4 h6 (by rw [hl]; omega) (by rw [hl]; omega) argp' envp'
          refine ⟨s', hs', ?_⟩
          rw [hl] at hcase'
          rcases hcase' with ⟨argv, envv, g1, g2, g3, g4, g5, g6, g7, g8⟩ | ⟨g1, g2, g3⟩
          · refine .inl ⟨str, argv, envv, hm, h3, g1, g2, g3, g4, g5, ?_, ?_, ?_⟩
            · rw [g6, h7]
            · rw [g7, h8]
            · rw [g8, h9]
              exact hb₁
          · exact .inr ⟨g1, g2, fun str' argv envv _ hstr' hargv henvv => by
              have h10 : str' = str := strAt_unique hstr' h3
              rw [h10]
              exact g3 argv envv hargv henvv⟩
        · have he : s₃.err ≠ none := by
            rcases h4 with h4 | h4
            · rw [h4]
              simp
            · rw [h4]
              simp
          rw [if_pos he]
          refine ⟨s₃, rfl, .inr ⟨h3, h4, fun str argv envv _ hstr _ _ => ?_⟩⟩
          have := h5 str hstr
          omega
    rcases nextPtr_cases x s argp envp with ⟨h1, h2, h3, h4⟩ | ⟨h1, h2, h3⟩ | ⟨h1, h2, h3, h4⟩
    · refine ⟨s, (collect_stop n h1).trans (by rw [h2]), .inl ⟨[], [], h3, h4, ?_, ?_, hs, rfl, rfl, rfl⟩⟩
      · simpa [chars] using h
      · simpa [chars] using hlen
    · rw [collect_next n h3 h2]
      obtain ⟨s', hs', hcase⟩ := hstep _ (argp + 2) envp s h hs rfl h2
      refine ⟨s', hs', ?_⟩
      rcases hcase with ⟨str, argv, envv, g0, g1, g2, g3, g4, g5, g6, g7, g8, g9⟩ | ⟨g1, g2, g3⟩
      · refine .inl ⟨str :: argv, envv, ⟨h1, h2, g0, g1, g2⟩, g3, ?_, ?_, g6, ?_, g8, g9⟩
        · rw [List.cons_append, chars_cons]
          simpa using g4
        · rw [List.cons_append, chars_cons, List.length_append, List.length_cons]
          omega
        · rw [g7, List.length_cons]
          omega
      · refine .inr ⟨g1, g2, fun argv envv hargv henvv => ?_⟩
        cases argv with
        | nil =>
          rcases hargv with h4 | h4
          · exact absurd h4 h1
          · exact absurd h4 h2
        | cons str argv =>
          obtain ⟨-, -, h5, h6, h7⟩ := hargv
          have := g3 str argv envv h5 h6 h7 henvv
          rw [List.cons_append, chars_cons, List.length_append, List.length_cons]
          omega
    · rw [collect_next n h4 h3]
      obtain ⟨s', hs', hcase⟩ := hstep _ 0 (envp + 2) { s with ne := s.ne + 1 }
        ⟨⟨h.busy, h.space, h.inodes⟩, h.nc, h.bp, h.cp, h.bytes⟩ hs rfl h3
      refine ⟨s', hs', ?_⟩
      rcases hcase with ⟨str, argv, envv, g0, g1, g2, g3, g4, g5, g6, g7, g8, g9⟩ | ⟨g1, g2, g3⟩
      · have hnil : argv = [] := vecAt_nil g2 (.inl rfl)
        subst hnil
        refine .inl ⟨[], str :: envv, h1, ⟨h2, h3, g0, g1, g3⟩, ?_, ?_, g6, ?_, ?_, g9⟩
        · rw [List.nil_append, chars_cons]
          simpa using g4
        · rw [List.nil_append] at g5 ⊢
          rw [chars_cons, List.length_append, List.length_cons]
          omega
        · rw [g7]
          simp only [List.length_cons, List.length_nil]
          omega
        · rw [g8, List.length_cons]
          dsimp only
          omega
      · refine .inr ⟨g1, g2, fun argv envv hargv henvv => ?_⟩
        have hnil : argv = [] := vecAt_nil hargv h1
        subst hnil
        cases envv with
        | nil =>
          rcases henvv with h5 | h5
          · exact absurd h5 h2
          · exact absurd h5 h3
        | cons str envv =>
          obtain ⟨-, -, h5, h6, h7⟩ := henvv
          have := g3 str [] envv h5 h6 (.inl rfl) h7
          rw [List.nil_append] at this ⊢
          rw [chars_cons, List.length_append, List.length_cons]
          omega

/-! ## Copying back -/

/-- The characters `out` are in the swap space, and `s.nc` of them have been copied back. -/
structure Reading (x : Execa) (s : Exec) (out : List Byte) : Prop extends Holds s where
  disk : ∀ i c, out[i]? = some c → s.disk (blockOf x s i) (i % bsize) = c
  buf : s.nc ≠ 0 → s.bp = some (blockOf x s (s.nc - 1)) ∧
    s.buf = s.disk (blockOf x s (s.nc - 1)) ∧ s.cp = (s.nc - 1) % bsize + 1

theorem Reading.next (h : Reading x s out) {c : Byte} (hc : out[s.nc]? = some c) :
    (s.fill x).buf (s.fill x).cp = c ∧
      Reading x { s.fill x with cp := (s.fill x).cp + 1, nc := (s.fill x).nc + 1 } out := by
  obtain ⟨⟨hbusy, hspace, hinodes⟩, hdisk, hbuf⟩ := h
  have hd := hdisk s.nc c hc
  unfold fill
  by_cases hz : s.nc % bsize = 0
  · rw [if_pos hz]
    rw [hz] at hd
    have hfree : (s.ifBp brelse).busy = [] := by
      unfold ifBp brelse
      cases hb : s.bp with
      | none =>
        rw [hb] at hbusy
        exact hbusy
      | some b =>
        rw [hb] at hbusy
        dsimp only
        rw [hbusy]
        simp
    have hsame : (s.ifBp brelse).disk = s.disk ∧ (s.ifBp brelse).bno = s.bno ∧
        (s.ifBp brelse).nc = s.nc ∧ (s.ifBp brelse).space = s.space ∧
        (s.ifBp brelse).inodes = s.inodes := by
      unfold ifBp brelse
      cases s.bp <;> exact ⟨rfl, rfl, rfl, rfl, rfl⟩
    obtain ⟨h1, h2, h3, h4, h5⟩ := hsame
    refine ⟨?_, ⟨?_, ?_, ?_⟩, fun i d hi => ?_, fun _ => ⟨?_, ?_, ?_⟩⟩
    · change (s.ifBp brelse).disk (s.block x) 0 = c
      rw [h1]
      exact hd
    · change s.block x :: (s.ifBp brelse).busy = [s.block x]
      rw [hfree]
    · change (s.ifBp brelse).space = if (s.ifBp brelse).bno = 0 then [] else [(s.ifBp brelse).bno]
      rw [h4, h2]
      exact hspace
    · exact h5.trans hinodes
    · change (s.ifBp brelse).disk (x.swplo + (s.ifBp brelse).bno + i / bsize) (i % bsize) = d
      rw [h1, h2]
      exact hdisk i d hi
    · change some (x.swplo + s.bno + s.nc / bsize) =
        some (x.swplo + (s.ifBp brelse).bno + ((s.ifBp brelse).nc + 1 - 1) / bsize)
      rw [h2, h3, Nat.add_sub_cancel]
    · change (s.ifBp brelse).disk (x.swplo + s.bno + s.nc / bsize) =
        (s.ifBp brelse).disk (x.swplo + (s.ifBp brelse).bno + ((s.ifBp brelse).nc + 1 - 1) / bsize)
      rw [h2, h3, Nat.add_sub_cancel]
    · change 0 + 1 = ((s.ifBp brelse).nc + 1 - 1) % bsize + 1
      rw [h3, Nat.add_sub_cancel, hz]
  · rw [if_neg hz]
    have hne : s.nc ≠ 0 := by
      intro h0
      rw [h0] at hz
      exact hz rfl
    obtain ⟨h1, h2, h3⟩ := hbuf hne
    have hblk : blockOf x s (s.nc - 1) = blockOf x s s.nc := by
      unfold blockOf bsize at *
      omega
    have hcp : s.cp = s.nc % bsize := by
      unfold bsize at *
      omega
    refine ⟨?_, ⟨hbusy, hspace, hinodes⟩, hdisk, fun _ => ⟨?_, ?_, ?_⟩⟩
    · rw [h2, hblk, hcp]
      exact hd
    · change s.bp = some (blockOf x s (s.nc + 1 - 1))
      rw [h1, Nat.add_sub_cancel, hblk]
    · change s.buf = s.disk (blockOf x s (s.nc + 1 - 1))
      rw [h2, Nat.add_sub_cancel, hblk]
    · change s.cp + 1 = (s.nc + 1 - 1) % bsize + 1
      rw [hcp, Nat.add_sub_cancel]

theorem fill_nc (x : Execa) (s : Exec) : (s.fill x).nc = s.nc := by
  unfold fill ifBp
  split
  · cases s.bp <;> rfl
  · rfl

end Exec

/-- On the stack that begins at `A` are the words `W`, and from `U` on the characters `B`. -/
structure Laid (m₀ : Space) (A U : Nat) (m : Space) (W : List (BitVec 16)) (B : List Byte) :
    Prop where
  readable : m.readable = m₀.readable
  writable : m.writable = m₀.writable
  words : ∀ (i : Nat) (w : BitVec 16), W[i]? = some w → m.byte (A + 2 * i + 1) ++ m.byte (A + 2 * i) = w
  bytes : ∀ (i : Nat) (c : Byte), B[i]? = some c → m.byte (U + i) = c

section Stack

variable {m₀ m : Space} {A U : Nat} {W : List (BitVec 16)} {B : List Byte}

theorem toNat_of_lt {n : Nat} (hn : n < 65536) : (BitVec.ofNat 16 n).toNat = n := by
  rw [BitVec.toNat_ofNat]
  omega

theorem getElem?_snoc {α : Type} {l : List α} {a b : α} {i : Nat} (h : (l ++ [a])[i]? = some b) :
    l[i]? = some b ∨ i = l.length ∧ b = a := by
  rcases Nat.lt_trichotomy i l.length with hi | rfl | hi
  · rw [List.getElem?_append_left hi] at h
    exact .inl h
  · rw [List.getElem?_append_right (Nat.le_refl _), Nat.sub_self] at h
    exact .inr ⟨rfl, (Option.some.inj h).symm⟩
  · rw [List.getElem?_eq_none (by simp; omega)] at h
    cases h

theorem lt_length_of_getElem? {α : Type} {l : List α} {b : α} {i : Nat} (h : l[i]? = some b) :
    i < l.length := by
  by_contra hi
  rw [List.getElem?_eq_none (by omega)] at h
  cases h

theorem suword_byte {n : Nat} (hn : n < 65536) (w : BitVec 16) {a : Nat} (ha : a ≠ n)
    (ha' : a ≠ n + 1) : (m.suword (BitVec.ofNat 16 n) w).byte a = m.byte a := by
  unfold Space.suword
  dsimp only
  rw [toNat_of_lt hn]
  split
  · dsimp only
    rw [Function.update_of_ne ha', Function.update_of_ne ha]
  · rfl

theorem suword_perm (m : Space) (a : BitVec 16) (w : BitVec 16) :
    (m.suword a w).readable = m.readable ∧ (m.suword a w).writable = m.writable := by
  unfold Space.suword
  dsimp only
  split
  · exact ⟨rfl, rfl⟩
  · exact ⟨rfl, rfl⟩

theorem subyte_perm (m : Space) (a : BitVec 16) (c : Byte) :
    (m.subyte a c).readable = m.readable ∧ (m.subyte a c).writable = m.writable := by
  unfold Space.subyte
  split
  · exact ⟨rfl, rfl⟩
  · exact ⟨rfl, rfl⟩

theorem word_halves (w : BitVec 16) :
    ((w >>> 8).setWidth 8 : Byte) ++ (w.setWidth 8 : Byte) = w := by
  ext i hi
  simp only [BitVec.getElem_append, BitVec.getElem_setWidth, BitVec.getLsbD_ushiftRight]
  split
  · rw [BitVec.getLsbD_eq_getElem]
  · rw [show 8 + (i - 8) = i by omega, BitVec.getLsbD_eq_getElem]

theorem Laid.suword (h : Laid m₀ A U m W B) (hA : A % 2 = 0)
    (hw : ∀ a, A ≤ a → a < 65536 → m₀.writable a) (hroom : A + 2 * (W.length + 1) ≤ U)
    (hU : U ≤ 65536) (w : BitVec 16) :
    Laid m₀ A U (m.suword (BitVec.ofNat 16 (A + 2 * W.length)) w) (W ++ [w]) B := by
  have hlt : A + 2 * W.length < 65536 := by omega
  obtain ⟨hr, hwr⟩ := suword_perm m (BitVec.ofNat 16 (A + 2 * W.length)) w
  refine ⟨hr.trans h.readable, hwr.trans h.writable, fun i v hv => ?_, fun i c hc => ?_⟩
  · rcases getElem?_snoc hv with hv | ⟨rfl, rfl⟩
    · have hi := lt_length_of_getElem? hv
      rw [suword_byte hlt w (by omega) (by omega), suword_byte hlt w (by omega) (by omega)]
      exact h.words i v hv
    · unfold Space.suword
      dsimp only
      rw [toNat_of_lt hlt, if_pos ⟨by omega, by
        rw [h.writable]
        exact ⟨hw _ (by omega) (by omega), hw _ (by omega) (by omega)⟩⟩]
      dsimp only
      rw [Function.update_self, Function.update_of_ne (by omega), Function.update_self]
      exact word_halves v
  · rw [suword_byte hlt w (by omega) (by omega)]
    exact h.bytes i c hc

theorem Laid.subyte (h : Laid m₀ A U m W B) (hw : ∀ a, A ≤ a → a < 65536 → m₀.writable a)
    (hAU : A + 2 * W.length ≤ U) (hroom : U + B.length < 65536) (c : Byte) :
    Laid m₀ A U (m.subyte (BitVec.ofNat 16 (U + B.length)) c) W (B ++ [c]) := by
  obtain ⟨hr, hwr⟩ := subyte_perm m (BitVec.ofNat 16 (U + B.length)) c
  have hbyte : (m.subyte (BitVec.ofNat 16 (U + B.length)) c).byte =
      Function.update m.byte (U + B.length) c := by
    unfold Space.subyte
    rw [toNat_of_lt hroom, if_pos (by
      rw [h.writable]
      exact hw _ (by omega) hroom)]
  refine ⟨hr.trans h.readable, hwr.trans h.writable, fun i v hv => ?_, fun i d hd => ?_⟩
  · have hi := lt_length_of_getElem? hv
    rw [hbyte, Function.update_of_ne (by omega), Function.update_of_ne (by omega)]
    exact h.words i v hv
  · rw [hbyte]
    rcases getElem?_snoc hd with hd | ⟨rfl, rfl⟩
    · have hi := lt_length_of_getElem? hd
      rw [Function.update_of_ne (by omega)]
      exact h.bytes i d hd
    · exact Function.update_self _ _ _

/-- A word past all characters. -/
theorem Laid.beyond (h : Laid m₀ A U m W B) (hAU : A + 2 * W.length ≤ U)
    (hroom : U + B.length < 65536) (w : BitVec 16) :
    Laid m₀ A U (m.suword (BitVec.ofNat 16 (U + B.length)) w) W B := by
  obtain ⟨hr, hwr⟩ := suword_perm m (BitVec.ofNat 16 (U + B.length)) w
  refine ⟨hr.trans h.readable, hwr.trans h.writable, fun i v hv => ?_, fun i d hd => ?_⟩
  · have hi := lt_length_of_getElem? hv
    rw [suword_byte hroom w (by omega) (by omega), suword_byte hroom w (by omega) (by omega)]
    exact h.words i v hv
  · have hi := lt_length_of_getElem? hd
    rw [suword_byte hroom w (by omega) (by omega)]
    exact h.bytes i d hd

end Stack

namespace Exec

variable {x : Execa} {s : Exec} {out : List Byte} {m₀ m : Space} {A U : Nat}
  {W : List (BitVec 16)} {B : List Byte}

theorem getElem?_of_drop {α : Type} {l : List α} {n : Nat} {a : α} {rest : List α}
    (h : l.drop n = a :: rest) : l[n]? = some a ∧ l.drop (n + 1) = rest := by
  refine ⟨?_, ?_⟩
  · have h1 : (l.drop n)[0]? = some a := by rw [h]; rfl
    rw [List.getElem?_drop] at h1
    exact h1
  · have h1 : (l.drop n).drop 1 = rest := by rw [h]; rfl
    rw [List.drop_drop] at h1
    exact h1

theorem copyStr_spec (hw : ∀ a, A ≤ a → a < 65536 → m₀.writable a) (str rest : List Byte) (n : Nat)
    (hr : Reading x s out) (hdrop : out.drop s.nc = str ++ 0 :: rest) (hnz : ∀ c ∈ str, c ≠ 0)
    (hl : Laid m₀ A U m W B) (hAU : A + 2 * W.length ≤ U)
    (hroom : U + B.length + str.length + 1 ≤ 65536) (hn : str.length < n) :
    ∃ m' s', copyStr x n m (BitVec.ofNat 16 (U + B.length)) s =
        some (m', BitVec.ofNat 16 (U + (B ++ (str ++ [0])).length), s') ∧
      Laid m₀ A U m' W (B ++ (str ++ [0])) ∧ Reading x s' out ∧ out.drop s'.nc = rest := by
  induction str generalizing n s m B with
  | nil =>
    obtain ⟨hget, hdrop'⟩ := getElem?_of_drop hdrop
    obtain ⟨h1, h2⟩ := hr.next hget
    obtain ⟨n, rfl⟩ : ∃ k, n = k + 1 := ⟨n - 1, by simp at hn; omega⟩
    rw [copyStr, h1, if_neg (by simp)]
    refine ⟨_, _, ?_, hl.subyte hw hAU (by simp at hroom; omega) 0, h2, ?_⟩
    · rw [List.nil_append, List.length_append, List.length_singleton, ← Nat.add_assoc,
        BitVec.ofNat_add (U + B.length) 1]
      rfl
    · dsimp only
      rw [fill_nc]
      exact hdrop'
  | cons c str ih =>
    rw [List.cons_append] at hdrop
    obtain ⟨hget, hdrop'⟩ := getElem?_of_drop hdrop
    obtain ⟨h1, h2⟩ := hr.next hget
    rw [List.length_cons] at hroom hn
    obtain ⟨n, rfl⟩ : ∃ k, n = k + 1 := ⟨n - 1, by omega⟩
    rw [copyStr, h1, if_pos (hnz c List.mem_cons_self)]
    have hlen : (B ++ [c]).length = B.length + 1 := by simp
    obtain ⟨m', s', h3, h4, h5, h6⟩ := ih n h2 (by
        dsimp only
        rw [fill_nc]
        exact hdrop') (fun d hd => hnz d (List.mem_cons_of_mem _ hd))
      (hl.subyte hw hAU (by omega) c) (by rw [hlen]; omega) (by omega)
    rw [hlen, ← Nat.add_assoc, BitVec.ofNat_add (U + B.length) 1] at h3
    refine ⟨m', s', ?_, ?_, h5, h6⟩
    · rw [List.cons_append, List.append_cons]
      exact h3
    · rw [List.cons_append, List.append_cons]
      exact h4

/-- The words that the loop puts, for strings that it puts from `u` on. -/
def wordsOf (ne : Nat) : Nat → List (List Byte) → List (BitVec 16)
  | _, [] => if 0 = ne then [0] else []
  | u, s :: l => (if (s :: l).length = ne then [0] else []) ++
      BitVec.ofNat 16 u :: wordsOf ne (u + s.length + 1) l

theorem length_wordsOf (ne u : Nat) (l : List (List Byte)) :
    (wordsOf ne u l).length = l.length + if ne ≤ l.length then 1 else 0 := by
  induction l generalizing u with
  | nil =>
    unfold wordsOf
    by_cases h : 0 = ne
    · rw [if_pos h, if_pos (by simp [← h])]
      rfl
    · rw [if_neg h, if_neg (by simp; omega)]
      rfl
  | cons s l ih =>
    unfold wordsOf
    rw [List.length_append, List.length_cons (a := BitVec.ofNat 16 u), ih, List.length_cons]
    by_cases h : l.length + 1 = ne
    · rw [if_pos h, if_neg (by omega), if_pos (by omega), List.length_singleton]
      omega
    · rw [if_neg h, List.length_nil]
      by_cases h' : ne ≤ l.length
      · rw [if_pos h', if_pos (by omega)]
        omega
      · rw [if_neg h', if_neg (by omega)]
        omega

theorem copyBack_spec (hA : A % 2 = 0) (hw : ∀ a, A ≤ a → a < 65536 → m₀.writable a) (ne : Nat)
    (l : List (List Byte)) (ap : BitVec 16) (hap : ap + 2 = BitVec.ofNat 16 (A + 2 * W.length))
    (hr : Reading x s out) (hdrop : out.drop s.nc = chars l) (hnz : ∀ t ∈ l, ∀ c ∈ t, c ≠ 0)
    (hl : Laid m₀ A U m W B)
    (hAU : A + 2 * (W.length + (wordsOf ne (U + B.length) l).length + 1) ≤ U)
    (hroom : U + B.length + (chars l).length ≤ 65534) (hlim : (chars l).length < ncargs) :
    ∃ m' s', copyBack x ne l.length m ap (BitVec.ofNat 16 (U + B.length)) s =
        some (m', BitVec.ofNat 16 (A + 2 * (W ++ wordsOf ne (U + B.length) l).length),
          BitVec.ofNat 16 (U + (B ++ chars l).length), s') ∧
      Laid m₀ A U m' (W ++ wordsOf ne (U + B.length) l) (B ++ chars l) ∧ Reading x s' out := by
  induction l generalizing s m W B ap with
  | nil =>
    have hc : chars [] = [] := rfl
    rw [hc, List.append_nil]
    unfold copyBack wordsOf
    dsimp only
    rw [hap]
    by_cases h0 : 0 = ne
    · rw [List.length_nil, if_pos h0, if_pos h0, if_pos h0]
      refine ⟨_, s, ?_, hl.suword hA hw ?_ (by omega) 0, hr⟩
      · rw [List.length_append, List.length_singleton, Nat.mul_add, ← Nat.add_assoc,
          BitVec.ofNat_add (A + 2 * W.length)]
        rfl
      · unfold wordsOf at hAU
        rw [if_pos h0, List.length_singleton] at hAU
        omega
    · rw [List.length_nil, if_neg h0, if_neg h0, if_neg h0, List.append_nil]
      exact ⟨m, s, rfl, hl, hr⟩
  | cons str l ih =>
    rw [chars_cons] at hdrop hroom hlim
    rw [List.length_append, List.length_cons] at hroom hlim
    -- the null word between the arguments and the environment
    obtain ⟨W₁, m₁, hW₁, hm₁, hap₁, hl₁⟩ : ∃ W₁ m₁,
        W₁ = W ++ (if (str :: l).length = ne then [0] else []) ∧
        m₁ = (if (str :: l).length = ne then m.suword (ap + 2) 0 else m) ∧
        (if (str :: l).length = ne then ap + 2 + 2 else ap + 2) =
          BitVec.ofNat 16 (A + 2 * W₁.length) ∧ Laid m₀ A U m₁ W₁ B := by
      refine ⟨_, _, rfl, rfl, ?_, ?_⟩
      · rw [hap]
        split
        · rw [List.length_append, List.length_singleton, Nat.mul_add, ← Nat.add_assoc,
            BitVec.ofNat_add (A + 2 * W.length)]
          rfl
        · rw [List.append_nil]
      · split
        · rw [hap]
          refine hl.suword hA hw ?_ (by omega) 0
          have : 0 < (wordsOf ne (U + B.length) (str :: l)).length := by
            rw [length_wordsOf, List.length_cons]
            omega
          omega
        · rw [List.append_nil]
          exact hl
    have hwords : W ++ wordsOf ne (U + B.length) (str :: l) =
        (W₁ ++ [BitVec.ofNat 16 (U + B.length)]) ++ wordsOf ne (U + B.length + str.length + 1) l := by
      rw [hW₁, wordsOf]
      simp
    have hlenw : W₁.length + 1 + (wordsOf ne (U + B.length + str.length + 1) l).length =
        W.length + (wordsOf ne (U + B.length) (str :: l)).length := by
      have := congrArg List.length hwords
      simp only [List.length_append, List.length_singleton] at this
      omega
    have hl₂ := hl₁.suword hA hw (by omega) (by omega) (BitVec.ofNat 16 (U + B.length))
    obtain ⟨m₃, s₃, h3, hl₃, hr₃, hdrop₃⟩ := copyStr_spec hw str (chars l) strBound hr hdrop
      (hnz str List.mem_cons_self) hl₂ (by
        rw [List.length_append, List.length_singleton]
        omega) (by omega) (by unfold strBound; omega)
    have hB : (B ++ (str ++ [0])).length = B.length + str.length + 1 := by
      simp only [List.length_append, List.length_singleton]
      omega
    have hU : U + (B ++ (str ++ [0])).length = U + B.length + str.length + 1 := by omega
    obtain ⟨m', s', h4, h5, h6⟩ := ih (s := s₃) (m := m₃)
      (W := W₁ ++ [BitVec.ofNat 16 (U + B.length)]) (B := B ++ (str ++ [0]))
      (BitVec.ofNat 16 (A + 2 * W₁.length)) (by
        rw [List.length_append, List.length_singleton, Nat.mul_add, ← Nat.add_assoc,
          BitVec.ofNat_add (A + 2 * W₁.length)]
        rfl) hr₃ hdrop₃ (fun t ht => hnz t (List.mem_cons_of_mem _ ht)) hl₃ (by
        rw [hU, List.length_append, List.length_singleton]
        omega) (by omega) (by omega)
    rw [hU] at h4 h5
    rw [hU] at h3
    have hchars : B ++ chars (str :: l) = B ++ (str ++ [0]) ++ chars l := by
      rw [chars_cons]
      simp
    rw [hwords, hchars]
    refine ⟨m', s', ?_, h5, h6⟩
    rw [List.length_cons] at hap₁ hm₁
    rw [List.length_cons, copyBack, hap₁, ← hm₁, h3]
    exact h4

/-! ## What is on the stack -/

/-- The pointers to strings that are put from `u` on. -/
def ptrs : Nat → List (List Byte) → List (BitVec 16)
  | _, [] => []
  | u, s :: l => BitVec.ofNat 16 u :: ptrs (u + s.length + 1) l

theorem length_ptrs (u : Nat) (l : List (List Byte)) : (ptrs u l).length = l.length := by
  induction l generalizing u with
  | nil => rfl
  | cons s l ih => rw [ptrs, List.length_cons, List.length_cons, ih]

theorem wordsOf_env {ne : Nat} (u : Nat) {l : List (List Byte)} (h : l.length < ne) :
    wordsOf ne u l = ptrs u l := by
  induction l generalizing u with
  | nil => exact if_neg (Nat.ne_of_lt h)
  | cons s l ih =>
    rw [List.length_cons] at h
    rw [wordsOf, List.length_cons, if_neg (Nat.ne_of_lt h), List.nil_append, ptrs,
      ih _ (by omega)]

theorem wordsOf_last (u : Nat) (l : List (List Byte)) : wordsOf l.length u l = 0 :: ptrs u l := by
  cases l with
  | nil => rfl
  | cons s l =>
    rw [wordsOf, if_pos rfl, List.singleton_append, ptrs, wordsOf_env _ (by simp)]

theorem wordsOf_append (u : Nat) (argv envv : List (List Byte)) :
    wordsOf envv.length u (argv ++ envv) =
      ptrs u argv ++ 0 :: ptrs (u + (chars argv).length) envv := by
  induction argv generalizing u with
  | nil => exact wordsOf_last u envv
  | cons s argv ih =>
    have hne : (s :: (argv ++ envv)).length ≠ envv.length := by
      rw [List.length_cons, List.length_append]
      omega
    rw [List.cons_append, wordsOf, if_neg hne, List.nil_append, ih, ptrs, chars_cons,
      List.length_append, List.length_cons, List.cons_append]
    congr 4
    omega

theorem laid_word (h : Laid m₀ A U m W B) (hA : A % 2 = 0)
    (hr : ∀ a, A ≤ a → a < 65536 → m₀.readable a) (hW : A + 2 * W.length ≤ 65536) {i : Nat}
    {w : BitVec 16} (hw : W[i]? = some w) : m.word (A + 2 * i) = some w := by
  have hi := lt_length_of_getElem? hw
  unfold Space.word
  rw [if_pos ⟨by omega, by
    rw [h.readable]
    exact ⟨hr _ (by omega) (by omega), hr _ (by omega) (by omega)⟩⟩, h.words i w hw]

theorem strAt_of_laid (h : Laid m₀ A U m W B) (hr : ∀ a, A ≤ a → a < 65536 → m₀.readable a)
    (hAU : A ≤ U) (hroom : U + B.length ≤ 65535) (str B₁ B₂ : List Byte)
    (hB : B = B₁ ++ (str ++ 0 :: B₂)) (hnz : ∀ c ∈ str, c ≠ 0) :
    StrAt m (BitVec.ofNat 16 (U + B₁.length)) str := by
  have hread : ∀ (i : Nat) (c : Byte), B[i]? = some c →
      m.fubyte (BitVec.ofNat 16 (U + i)) = some c := by
    intro i c hc
    have hi := lt_length_of_getElem? hc
    unfold Space.fubyte
    rw [toNat_of_lt (by omega), if_pos (by
      rw [h.readable]
      exact hr _ (by omega) (by omega)), h.bytes i c hc]
  induction str generalizing B₁ with
  | nil =>
    refine hread B₁.length 0 ?_
    rw [hB, List.getElem?_append_right (Nat.le_refl _), Nat.sub_self]
    rfl
  | cons c str ih =>
    refine ⟨hnz c List.mem_cons_self, hread B₁.length c ?_, ?_⟩
    · rw [hB, List.getElem?_append_right (Nat.le_refl _), Nat.sub_self]
      rfl
    · have h1 := ih (B₁ ++ [c]) (by rw [hB]; simp)
        (fun d hd => hnz d (List.mem_cons_of_mem _ hd))
      rw [List.length_append, List.length_singleton, ← Nat.add_assoc,
        BitVec.ofNat_add (U + B₁.length) 1] at h1
      exact h1

theorem ptrsAt_of_laid (h : Laid m₀ A U m W B) (hA : A % 2 = 0)
    (hr : ∀ a, A ≤ a → a < 65536 → m₀.readable a) (hW : A + 2 * W.length ≤ U) (hU : 0 < U)
    (hroom : U + B.length ≤ 65535) (l : List (List Byte)) (W₁ W₂ : List (BitVec 16))
    (B₁ B₂ : List Byte) (hWl : W = W₁ ++ (ptrs (U + B₁.length) l ++ 0 :: W₂))
    (hBl : B = B₁ ++ (chars l ++ B₂)) (hnz : ∀ t ∈ l, ∀ c ∈ t, c ≠ 0) :
    PtrsAt m (A + 2 * W₁.length) l := by
  induction l generalizing W₁ B₁ with
  | nil =>
    refine laid_word h hA hr (by omega) ?_
    rw [hWl, List.getElem?_append_right (Nat.le_refl _), Nat.sub_self]
    rfl
  | cons str l ih =>
    have hlen : B₁.length < B.length := by
      rw [hBl, chars_cons]
      simp only [List.length_append, List.length_cons]
      omega
    rw [chars_cons] at hBl
    refine ⟨BitVec.ofNat 16 (U + B₁.length), laid_word h hA hr (by omega) ?_, ?_, ?_, ?_⟩
    · rw [hWl, List.getElem?_append_right (Nat.le_refl _), Nat.sub_self]
      rfl
    · intro h0
      have h1 := congrArg BitVec.toNat h0
      rw [toNat_of_lt (by omega)] at h1
      change U + B₁.length = 0 at h1
      omega
    · exact strAt_of_laid h hr (by omega) hroom str B₁ (chars l ++ B₂) (by rw [hBl]; simp)
        (hnz str List.mem_cons_self)
    · have h1 := ih (W₁ ++ [BitVec.ofNat 16 (U + B₁.length)]) (B₁ ++ (str ++ [0]))
        (by
          rw [hWl, ptrs]
          have he : U + (B₁ ++ (str ++ [0])).length = U + B₁.length + str.length + 1 := by
            simp only [List.length_append, List.length_singleton]
            omega
          rw [he]
          simp) (by rw [hBl]; simp) (fun t ht => hnz t (List.mem_cons_of_mem _ ht))
      rw [List.length_append, List.length_singleton, Nat.mul_add, ← Nat.add_assoc] at h1
      exact h1

/-- The words that the stack is decoded from can all be read. -/
theorem ptrsAt_words {a : Nat} {l : List (List Byte)} (h : PtrsAt m a l) (i : Nat) (hi : i ≤ l.length) :
    m.word (a + 2 * i) ≠ none := by
  induction l generalizing a i with
  | nil =>
    have hi0 : i = 0 := Nat.le_zero.mp hi
    subst hi0
    rw [PtrsAt] at h
    rw [Nat.mul_zero, Nat.add_zero, h]
    simp
  | cons s l ih =>
    obtain ⟨p, h1, -, -, h2⟩ := h
    cases i with
    | zero =>
      rw [Nat.mul_zero, Nat.add_zero, h1]
      simp
    | succ i =>
      have h3 := ih h2 i (by rw [List.length_cons] at hi; omega)
      rw [Nat.mul_succ, Nat.add_comm (2 * i), ← Nat.add_assoc]
      exact h3

theorem decodes_words {sp : BitVec 16} {argv envv : List (List Byte)} (h : Decodes m sp argv envv)
    (i : Nat) (hi : i < argv.length + envv.length + 3) : m.word (sp.toNat + 2 * i) ≠ none := by
  obtain ⟨h1, h2, h3⟩ := h
  rcases Nat.eq_zero_or_pos i with rfl | hpos
  · rw [Nat.mul_zero, Nat.add_zero, h1]
    simp
  · by_cases hle : i ≤ argv.length + 1
    · have h4 := ptrsAt_words h2 (i - 1) (by omega)
      rw [show sp.toNat + 2 + 2 * (i - 1) = sp.toNat + 2 * i by omega] at h4
      exact h4
    · have h4 := ptrsAt_words h3 (i - (argv.length + 2)) (by omega)
      rw [show sp.toNat + 2 * (argv.length + 2) + 2 * (i - (argv.length + 2)) =
        sp.toNat + 2 * i by omega] at h4
      exact h4

/-! ## The new stack -/

/-- The arguments with `nc` characters, rounded up, and `n` strings fit on the initial stack. -/
def Fits (nc n : Nat) : Prop := nc + 2 * n + 8 ≤ 64 * (20 + (nc + 63) / 64)

theorem newImage_ok {f : Xfile} {ts ds ss : BitVec 16} {sep : Bool} {m : Space}
    (h : newImage f ts ds ss sep = .ok (some m)) :
    m = layout f ts ds ss sep ∧ estabur f ts ds ss sep := by
  unfold newImage at h
  split at h
  · cases h
  · rename_i hest
    split at h
    · cases h
    · cases h
      exact ⟨rfl, by simpa using hest⟩

theorem getxfile_layout {f : Xfile} {nargc : BitVec 16} {m : Space}
    (h : getxfile f nargc = .ok (some m)) : ∃ ts ds sep,
      m = layout f ts ds (ssize + btoc nargc) sep ∧ estabur f ts ds (ssize + btoc nargc) sep := by
  unfold getxfile at h
  split at h
  · cases h
  · split at h
    · cases h
    · dsimp only at h
      generalize (if f.x.mag = 0o407 then f.x.dsize + f.x.tsize else f.x.dsize) = dsize at h
      generalize (if f.x.mag = 0o407 then 0 else f.x.tsize) = tsize at h
      split at h
      · cases h
      · split at h
        · cases h
        · split at h
          · cases h
          · split at h
            · cases h
            · split at h
              · split at h
                · cases h
                · cases h
              · exact ⟨_, _, _, newImage_ok h⟩

theorem stack_clicks (nc : Nat) (hnc : nc ≤ ncargs) :
    (ssize + btoc (BitVec.ofNat 16 nc)).toNat = 20 + (nc + 63) / 64 := by
  have h20 : (20 : BitVec 16).toNat = 20 := rfl
  have h63 : (63 : BitVec 16).toNat = 63 := rfl
  unfold ssize btoc ncargs at *
  rw [BitVec.toNat_add, BitVec.toNat_ushiftRight, BitVec.toNat_add, BitVec.toNat_ofNat,
    Nat.shiftRight_eq_div_pow, h20, h63, Nat.mod_eq_of_lt (show nc < 2 ^ 16 by omega),
    Nat.mod_eq_of_lt (show nc + 63 < 2 ^ 16 by omega)]
  exact Nat.mod_eq_of_lt (by omega)

theorem layout_stack (f : Xfile) (ts ds ss : BitVec 16) (sep : Bool) {a : Nat}
    (ha : 65536 - 64 * ss.toNat ≤ a) (ha' : a < 65536) :
    (layout f ts ds ss sep).readable a ∧ (layout f ts ds ss sep).writable a := by
  unfold layout
  dsimp only
  simp [ha, ha']

/-- There is a hole under the stack. -/
theorem layout_hole {f : Xfile} {ts ds ss : BitVec 16} {sep : Bool} (h : estabur f ts ds ss sep)
    (hss : 0 < ss.toNat) (hss' : ss.toNat < 127) :
    ¬(layout f ts ds ss sep).readable (65536 - 64 * ss.toNat - 2) := by
  have hs : ctos ss = 1 := by
    unfold ctos
    omega
  unfold estabur at h
  rw [hs] at h
  unfold layout
  dsimp only
  cases sep with
  | false =>
    simp only [Bool.false_eq_true, if_false, Bool.and_eq_true, decide_eq_true_eq] at h
    unfold ctos at *
    simp only [Bool.false_eq_true, if_false, Bool.not_false, Bool.true_and, Bool.or_eq_true,
      Bool.and_eq_true, decide_eq_true_eq]
    omega
  | true =>
    simp only [if_true, Bool.and_eq_true, decide_eq_true_eq] at h
    unfold ctos at *
    simp only [if_true, Bool.not_true, Bool.false_and, Bool.or_false, Bool.or_eq_true,
      Bool.and_eq_true, decide_eq_true_eq]
    omega

theorem length_le_chars (l : List (List Byte)) : l.length ≤ (chars l).length := by
  induction l with
  | nil => exact Nat.le_refl 0
  | cons s l ih =>
    rw [chars_cons, List.length_append, List.length_cons, List.length_cons]
    omega

theorem laid_nil (m : Space) (A U : Nat) : Laid m A U m [] [] :=
  ⟨rfl, rfl, fun _ _ h => by simp at h, fun _ _ h => by simp at h⟩

/-- The stack pointer. -/
theorem sp_eq {nc n : Nat} (h : nc + 2 * n + 8 ≤ 65536) :
    -BitVec.ofNat 16 nc - 2 - BitVec.ofNat 16 (n * 2) - 6 =
      BitVec.ofNat 16 (65536 - (nc + 2 * n + 8)) := by
  have h2 : (2 : BitVec 16).toNat = 2 := rfl
  have h6 : (6 : BitVec 16).toNat = 6 := rfl
  apply BitVec.eq_of_toNat_eq
  rw [BitVec.toNat_sub, BitVec.toNat_sub, BitVec.toNat_sub, BitVec.toNat_neg, BitVec.toNat_ofNat,
    BitVec.toNat_ofNat, BitVec.toNat_ofNat, h2, h6]
  omega

theorem ucp_eq {nc : Nat} (h : nc + 2 < 65536) :
    -BitVec.ofNat 16 nc - 2 = BitVec.ofNat 16 (65536 - nc - 2) := by
  have h2 : (2 : BitVec 16).toNat = 2 := rfl
  apply BitVec.eq_of_toNat_eq
  rw [BitVec.toNat_sub, BitVec.toNat_neg, BitVec.toNat_ofNat, BitVec.toNat_ofNat, h2]
  omega

theorem putArgs_spec {argv envv : List (List Byte)} (hnz : ∀ t ∈ argv ++ envv, ∀ c ∈ t, c ≠ 0)
    (hs : Reading x { s with nc := 0 } (chars (argv ++ envv)))
    (hna : s.na = (argv ++ envv).length) (hne : s.ne = envv.length) {nc : Nat} (hnc : nc % 2 = 0)
    (hle : (chars (argv ++ envv)).length ≤ nc) (hnc' : nc ≤ ncargs)
    (hlim : (chars (argv ++ envv)).length < ncargs)
    (hperm : ∀ a, 65536 - (nc + 2 * (argv ++ envv).length + 8) ≤ a → a < 65536 →
      m₀.readable a ∧ m₀.writable a) :
    ∃ m' s', putArgs x m₀ nc s =
        some (m', BitVec.ofNat 16 (65536 - (nc + 2 * (argv ++ envv).length + 8)), s') ∧
      Decodes m' (BitVec.ofNat 16 (65536 - (nc + 2 * (argv ++ envv).length + 8))) argv envv ∧
      Holds s' := by
  have hn := length_le_chars (argv ++ envv)
  unfold ncargs at hnc' hlim
  obtain ⟨A, hA⟩ : ∃ A, A = 65536 - (nc + 2 * (argv ++ envv).length + 8) := ⟨_, rfl⟩
  obtain ⟨U, hU⟩ : ∃ U, U = 65536 - nc - 2 := ⟨_, rfl⟩
  have hAlt : A < 65536 := by omega
  rw [← hA] at hperm ⊢
  have hr : ∀ a, A ≤ a → a < 65536 → m₀.readable a := fun a h1 h2 => (hperm a h1 h2).1
  have hw : ∀ a, A ≤ a → a < 65536 → m₀.writable a := fun a h1 h2 => (hperm a h1 h2).2
  have hA2 : A % 2 = 0 := by omega
  obtain ⟨W, hW⟩ : ∃ W, W = wordsOf envv.length U (argv ++ envv) := ⟨_, rfl⟩
  have hWlen : W.length = (argv ++ envv).length + 1 := by
    rw [hW, length_wordsOf, if_pos (by rw [List.length_append]; omega)]
  -- the count
  have hl₁ := (laid_nil m₀ A U).suword hA2 hw (by rw [List.length_nil]; omega) (by omega)
    (BitVec.ofNat 16 (s.na - s.ne))
  rw [List.length_nil, Nat.mul_zero, Nat.add_zero, List.nil_append] at hl₁
  -- the pointers and the strings
  have hap : BitVec.ofNat 16 A + 2 =
      BitVec.ofNat 16 (A + 2 * [BitVec.ofNat 16 (s.na - s.ne)].length) := by
    rw [List.length_singleton, BitVec.ofNat_add A]
    rfl
  obtain ⟨m₂, s₂, h2, hl₂, hr₂⟩ := copyBack_spec hA2 hw envv.length (argv ++ envv) (B := [])
    (BitVec.ofNat 16 A) hap hs rfl hnz hl₁ (by
      rw [List.length_nil, Nat.add_zero U, ← hW, hWlen, List.length_singleton]
      omega) (by rw [List.length_nil]; omega) (by unfold ncargs; omega)
  rw [List.length_nil, Nat.add_zero U, ← hW] at h2 hl₂
  rw [List.nil_append] at h2 hl₂
  -- the last words
  have hlen₂ : ([BitVec.ofNat 16 (s.na - s.ne)] ++ W).length = (argv ++ envv).length + 2 := by
    rw [List.length_append, List.length_singleton, hWlen]
    omega
  have hl₃ := hl₂.suword hA2 hw (by rw [hlen₂]; omega) (by omega) 0
  have hl₄ := hl₃.beyond (by
    rw [List.length_append, hlen₂, List.length_singleton]
    omega) (by omega) 0
  obtain ⟨m₄, hm₄⟩ : ∃ m₄, m₄ = (m₂.suword (BitVec.ofNat 16
      (A + 2 * ([BitVec.ofNat 16 (s.na - s.ne)] ++ W).length)) 0).suword
      (BitVec.ofNat 16 (U + (chars (argv ++ envv)).length)) 0 := ⟨_, rfl⟩
  rw [← hm₄] at hl₄
  refine ⟨m₄, s₂, ?_, ?_, hr₂.toHolds⟩
  · have hsp : -BitVec.ofNat 16 nc - 2 - BitVec.ofNat 16 (s.na * 2) - 6 = BitVec.ofNat 16 A := by
      rw [hna, sp_eq (by omega), hA]
    have hucp : -BitVec.ofNat 16 nc - 2 = BitVec.ofNat 16 U := by
      rw [ucp_eq (by omega), hU]
    rw [← hna, ← hne] at h2
    unfold putArgs
    dsimp only
    rw [hsp, hucp, h2, hm₄]
    rfl
  · have hWall : ([BitVec.ofNat 16 (s.na - s.ne)] ++ W) ++ [0] =
        [BitVec.ofNat 16 argv.length] ++
          (ptrs U argv ++ 0 :: (ptrs (U + (chars argv).length) envv ++ [0])) := by
      rw [hW, wordsOf_append, hna, hne, List.length_append, Nat.add_sub_cancel]
      simp
    rw [hWall] at hl₄
    have hWroom : A + 2 * ([BitVec.ofNat 16 argv.length] ++
        (ptrs U argv ++ 0 :: (ptrs (U + (chars argv).length) envv ++ [0]))).length ≤ U := by
      rw [← hWall, List.length_append, hlen₂, List.length_singleton]
      clear * - hle hnc' hn hA hU
      omega
    have hnzl : ∀ t ∈ argv, ∀ c ∈ t, c ≠ 0 := fun t ht => hnz t (List.mem_append_left _ ht)
    have hnzr : ∀ t ∈ envv, ∀ c ∈ t, c ≠ 0 := fun t ht => hnz t (List.mem_append_right _ ht)
    unfold Decodes
    rw [toNat_of_lt hAlt]
    refine ⟨?_, ?_, ?_⟩
    · exact laid_word hl₄ hA2 hr (by omega) (i := 0) rfl
    · exact ptrsAt_of_laid hl₄ hA2 hr hWroom (by omega) (by omega) argv
        [BitVec.ofNat 16 argv.length] _ [] (chars envv) rfl
        (by rw [chars_append]; rfl) hnzl
    · have h5 := ptrsAt_of_laid hl₄ hA2 hr hWroom (by omega) (by omega) envv
        ([BitVec.ofNat 16 argv.length] ++ (ptrs U argv ++ [0])) [] (chars argv) [] (by simp)
        (by rw [chars_append, List.append_nil]) hnzr
      have hlen : ([BitVec.ofNat 16 argv.length] ++ (ptrs U argv ++ [0])).length =
          argv.length + 2 := by
        simp only [List.length_append, List.length_singleton, length_ptrs]
        omega
      rw [hlen] at h5
      exact h5

/-! ## Where the words do not fit -/

theorem copyStr_readable (n : Nat) (m m' : Space) (ucp ucp' : BitVec 16) (s s' : Exec)
    (h : copyStr x n m ucp s = some (m', ucp', s')) : m'.readable = m.readable := by
  induction n generalizing m ucp s with
  | zero => cases h
  | succ n ih =>
    rw [copyStr] at h
    split at h
    · rw [ih _ _ _ h]
      exact (subyte_perm _ _ _).1
    · cases h
      exact (subyte_perm _ _ _).1

theorem copyBack_readable (ne na : Nat) (m m' : Space) (ap ap' ucp ucp' : BitVec 16) (s s' : Exec)
    (h : copyBack x ne na m ap ucp s = some (m', ap', ucp', s')) : m'.readable = m.readable := by
  have hnull : ∀ (c : Prop) [Decidable c] (m : Space) (a : BitVec 16),
      (if c then m.suword a 0 else m).readable = m.readable := by
    intro c _ m a
    split
    · exact (suword_perm _ _ _).1
    · rfl
  induction na generalizing m ap ucp s with
  | zero =>
    unfold copyBack at h
    cases h
    exact hnull _ _ _
  | succ na ih =>
    unfold copyBack at h
    dsimp only at h
    split at h
    · cases h
    · rename_i m₁ ucp₁ s₁ hcopy
      rw [ih _ _ _ _ h, copyStr_readable _ _ _ _ _ _ _ hcopy, (suword_perm _ _ _).1]
      exact hnull _ _ _

theorem putArgs_readable {nc : Nat} {m' : Space} {sp : BitVec 16} {s' : Exec}
    (h : putArgs x m nc s = some (m', sp, s')) : m'.readable = m.readable ∧
      sp = -BitVec.ofNat 16 nc - 2 - BitVec.ofNat 16 (s.na * 2) - 6 := by
  unfold putArgs at h
  dsimp only [Option.bind_eq_bind] at h
  rw [Option.bind_eq_some_iff] at h
  obtain ⟨⟨m₁, ap, ucp, s₁⟩, h1, h2⟩ := h
  cases h2
  refine ⟨?_, rfl⟩
  rw [(suword_perm _ _ _).1, (suword_perm _ _ _).1, copyBack_readable _ _ _ _ _ _ _ _ _ _ h1,
    (suword_perm _ _ _).1]

/-! ## The whole call -/

/-- The vectors that the caller gives. Without a vector of arguments there is no environment. -/
def Given (x : Execa) (argv envv : List (List Byte)) : Prop :=
  if x.argp = 0 then argv = [] ∧ envv = [] else VecAt x.mem x.argp argv ∧ VecAt x.mem x.envp envv

theorem vecAt_unique {m : Space} {p : BitVec 16} {l l' : List (List Byte)} (h : VecAt m p l)
    (h' : VecAt m p l') : l = l' := by
  induction l generalizing p l' with
  | nil => exact (vecAt_nil h' h).symm
  | cons s l ih =>
    cases l' with
    | nil => exact vecAt_nil h h'
    | cons s' l' =>
      obtain ⟨-, -, -, h1, h2⟩ := h
      obtain ⟨-, -, -, h3, h4⟩ := h'
      rw [strAt_unique h1 h3, ih h2 h4]

theorem given_unique {argv envv argv' envv' : List (List Byte)} (h : Given x argv envv)
    (h' : Given x argv' envv') : argv = argv' ∧ envv = envv' := by
  unfold Given at h h'
  split at h
  · rename_i h0
    rw [if_pos h0] at h'
    exact ⟨h.1.trans h'.1.symm, h.2.trans h'.2.symm⟩
  · rename_i h0
    rw [if_neg h0] at h'
    exact ⟨vecAt_unique h.1 h'.1, vecAt_unique h.2 h'.2⟩

theorem Given.nonzero {argv envv : List (List Byte)} (h : Given x argv envv) :
    ∀ t ∈ argv ++ envv, ∀ c ∈ t, c ≠ 0 := by
  unfold Given at h
  split at h
  · rw [h.1, h.2]
    simp
  · intro t ht
    rcases List.mem_append.mp ht with ht | ht
    · exact h.1.nonzero t ht
    · exact h.2.nonzero t ht

/-- The file may be executed, and there is swap space. -/
structure Checked (x : Execa) : Prop where
  namei : x.namei = none
  access : x.access = none
  regular : x.regular
  execBits : x.execBits
  malloc : x.malloc ≠ 0

/-- What `nc` is after rounding. -/
def rounded (l : List (List Byte)) : Nat := ((chars l).length + 1) / 2 * 2

/-- The end of the first half: the last block is written. -/
theorem Stored.flushed (h : Stored x s out) :
    Holds { s.ifBp bawrite with bp := none } ∧
      Reading x { s.ifBp bawrite with bp := none, nc := 0 } out := by
  obtain ⟨⟨hbusy, hspace, hinodes⟩, hnc, hbp, hcp, hbytes⟩ := h
  have hbno : (s.ifBp bawrite).bno = s.bno := by
    unfold ifBp
    cases s.bp <;> rfl
  have hfree : (s.ifBp bawrite).busy = [] := by
    unfold ifBp bawrite
    cases hb : s.bp with
    | none =>
      rw [hb] at hbusy
      exact hbusy
    | some b =>
      rw [hb] at hbusy
      dsimp only
      rw [hbusy]
      simp
  have hsp : (s.ifBp bawrite).space = s.space ∧ (s.ifBp bawrite).inodes = s.inodes := by
    unfold ifBp
    cases s.bp <;> exact ⟨rfl, rfl⟩
  have hholds : Holds { s.ifBp bawrite with bp := none } := by
    refine ⟨hfree, ?_, ?_⟩
    · change (s.ifBp bawrite).space = if (s.ifBp bawrite).bno = 0 then [] else
        [(s.ifBp bawrite).bno]
      rw [hsp.1, hbno]
      exact hspace
    · exact hsp.2.trans hinodes
  refine ⟨hholds, ⟨hholds.busy, hholds.space, hholds.inodes⟩, fun i c hi => ?_,
    fun h0 => absurd rfl h0⟩
  change (s.ifBp bawrite).disk (x.swplo + (s.ifBp bawrite).bno + i / bsize) (i % bsize) = c
  rw [hbno]
  have h1 := hbytes i c hi
  change (if s.bp = some (x.swplo + s.bno + i / bsize) then s.buf
    else s.disk (x.swplo + s.bno + i / bsize)) (i % bsize) = c at h1
  unfold ifBp bawrite
  cases hb : s.bp with
  | none =>
    rw [hb, if_neg (by simp)] at h1
    exact h1
  | some b =>
    rw [hb] at h1
    dsimp only
    by_cases he : b = x.swplo + s.bno + i / bsize
    · rw [if_pos (by rw [he])] at h1
      rw [he, Function.update_self]
      exact h1
    · rw [if_neg (by simpa using he)] at h1
      rw [Function.update_of_ne (Ne.symm he)]
      exact h1

/-- What the call does once the file may be executed. -/
theorem exece_checked (hc : Checked x) :
    (∃ s' argv envv, Given x argv envv ∧ Holds s' ∧
      Reading x { s' with nc := 0 } (chars (argv ++ envv)) ∧
      (chars (argv ++ envv)).length ≤ ncargs - 1 ∧
      s'.na = (argv ++ envv).length ∧ s'.ne = envv.length ∧
      exece x = match getxfile x.file (BitVec.ofNat 16 (rounded (argv ++ envv))) with
        | .error e => some (.failed e, s'.bad)
        | .ok none => some (.overlaid, s'.bad)
        | .ok (some m) => (putArgs x m (rounded (argv ++ envv)) s').map fun r =>
          (.started r.1 r.2.1, r.2.2.bad)) ∨
    ∃ s' e, (e = .e2big ∨ e = .efault) ∧ Holds s' ∧ exece x = some (.failed e, s'.bad) ∧
      ∀ argv envv, Given x argv envv → ncargs - 1 < (chars (argv ++ envv)).length := by
  obtain ⟨h1, h2, h3, h4, h5⟩ := hc
  obtain ⟨s₀, hs₀⟩ : ∃ s₀ : Exec, s₀ =
      { start x with inodes := 1, bno := x.malloc, space := [x.malloc] } := ⟨_, rfl⟩
  have hexec : exece x = execArgs x s₀ := by
    unfold exece
    rw [h1, h2]
    dsimp only
    rw [if_neg (by simp [h3, h4]), if_neg h5, hs₀]
  have hst : Stored x s₀ [] := by
    rw [hs₀]
    refine ⟨⟨rfl, ?_, rfl⟩, rfl, rfl, fun h => absurd rfl h, fun i c h => by simp at h⟩
    change [x.malloc] = if x.malloc = 0 then [] else [x.malloc]
    rw [if_neg h5]
  have herr : s₀.err = none := by rw [hs₀]; rfl
  have hna : s₀.na = 0 ∧ s₀.ne = 0 := by rw [hs₀]; exact ⟨rfl, rfl⟩
  obtain ⟨s₁, hs₁, hcase⟩ : ∃ s₁,
      (if x.argp ≠ 0 then collect x collectBound x.argp x.envp s₀ else some s₀) = some s₁ ∧
      ((∃ argv envv, Given x argv envv ∧ Stored x s₁ (chars (argv ++ envv)) ∧
          (chars (argv ++ envv)).length ≤ ncargs - 1 ∧ s₁.err = none ∧
          s₁.na = (argv ++ envv).length ∧ s₁.ne = envv.length) ∨
        Holds s₁ ∧ ArgErr s₁ ∧ ∀ argv envv, Given x argv envv →
          ncargs - 1 < (chars (argv ++ envv)).length) := by
    by_cases h0 : x.argp = 0
    · rw [if_neg (by simpa using h0)]
      refine ⟨s₀, rfl, .inl ⟨[], [], ?_, hst, Nat.zero_le _, herr, hna.1, hna.2⟩⟩
      unfold Given
      rw [if_pos h0]
      exact ⟨rfl, rfl⟩
    · rw [if_pos h0]
      obtain ⟨s₁, hs₁, hcase⟩ := collect_spec collectBound hst herr (Nat.zero_le _)
        (by unfold collectBound; omega) x.argp x.envp
      refine ⟨s₁, hs₁, ?_⟩
      simp only [List.nil_append, List.length_nil, Nat.zero_add] at hcase
      unfold Given
      rcases hcase with ⟨argv, envv, g1, g2, g3, g4, g5, g6, g7, -⟩ | ⟨g1, g2, g3⟩
      · refine .inl ⟨argv, envv, ?_, g3, by omega, g5, ?_, ?_⟩
        · rw [if_neg h0]
          exact ⟨g1, g2⟩
        · rw [g6, hna.1, List.length_append]
          omega
        · rw [g7, hna.2]
          omega
      · refine .inr ⟨g1, g2, fun argv envv hg => ?_⟩
        rw [if_neg h0] at hg
        have := g3 argv envv hg.1 hg.2
        omega
  rw [hexec]
  unfold execArgs
  rw [hs₁]
  dsimp only [Option.bind_eq_bind, Option.bind_some]
  rcases hcase with ⟨argv, envv, g1, g2, g3, g4, g5, g6⟩ | ⟨g1, g2, g3⟩
  · rw [g4]
    obtain ⟨hholds, hread⟩ := g2.flushed
    have hsame : (s₁.ifBp bawrite).na = s₁.na ∧ (s₁.ifBp bawrite).ne = s₁.ne ∧
        (s₁.ifBp bawrite).nc = s₁.nc := by
      unfold ifBp
      cases s₁.bp <;> exact ⟨rfl, rfl, rfl⟩
    refine .inl ⟨_, argv, envv, g1, hholds, hread, g3, hsame.1.trans g5, hsame.2.1.trans g6, ?_⟩
    have hnc : ((s₁.ifBp bawrite).nc + 1) / 2 * 2 = rounded (argv ++ envv) := by
      rw [hsame.2.2, g2.nc]
      rfl
    dsimp only
    rw [hnc]
    cases getxfile x.file (BitVec.ofNat 16 (rounded (argv ++ envv))) with
    | error e => rfl
    | ok o =>
      cases o with
      | none => rfl
      | some m =>
        dsimp only
        cases putArgs x m (rounded (argv ++ envv)) { s₁.ifBp bawrite with bp := none } <;> rfl
  · rcases g2 with he | he
    · rw [he]
      exact .inr ⟨s₁, _, .inl rfl, g1, rfl, g3⟩
    · rw [he]
      exact .inr ⟨s₁, _, .inr rfl, g1, rfl, g3⟩

/-- The call does what it should: the arguments come through, if they have at most `NCARGS`
    characters and the file can be loaded with them; else there is an error; and nothing is held at
    the end. -/
structure Right (x : Execa) (r : ExecRet) (s : Exec) : Prop where
  started : Checked x → ∀ argv envv, Given x argv envv → (chars (argv ++ envv)).length ≤ ncargs →
    (∃ m, getxfile x.file (BitVec.ofNat 16 (rounded (argv ++ envv))) = .ok (some m)) →
    ∃ m sp, r = .started m sp ∧ Decodes m sp argv envv
  refused : Checked x →
    (¬∃ argv envv, Given x argv envv ∧ (chars (argv ++ envv)).length ≤ ncargs) →
    r = .failed .e2big ∨ r = .failed .efault
  clean : r ≠ .panic → s.Clean

/-- The arguments stay below `NCARGS`, and their words fit on the initial stack. -/
def ArgsFit (x : Execa) : Prop :=
  Checked x → ∀ argv envv, Given x argv envv → (chars (argv ++ envv)).length ≤ ncargs →
    (∃ m, getxfile x.file (BitVec.ofNat 16 (rounded (argv ++ envv))) = .ok (some m)) →
    (chars (argv ++ envv)).length < ncargs ∧ Fits (rounded (argv ++ envv)) (argv ++ envv).length

theorem not_checked (hc : ¬Checked x) : ∃ r s, exece x = some (r, s) ∧ Right x r s := by
  have hclean : Clean (start x) := ⟨rfl, rfl, rfl⟩
  have hholds : Holds { start x with inodes := 1 } := ⟨rfl, rfl, rfl⟩
  have hright : ∀ r s, (r ≠ ExecRet.panic → s.Clean) → Right x r s := fun r s h =>
    ⟨fun h' => absurd h' hc, fun h' => absurd h' hc, h⟩
  unfold exece
  split
  · exact ⟨_, _, rfl, hright _ _ fun _ => hclean⟩
  · rename_i h1
    dsimp only
    split
    · exact ⟨_, _, rfl, hright _ _ fun _ => bad_clean hholds⟩
    · rename_i h2
      split
      · exact ⟨_, _, rfl, hright _ _ fun _ => bad_clean hholds⟩
      · rename_i h3
        split
        · exact ⟨_, _, rfl, hright _ _ fun h => absurd rfl h⟩
        · rename_i h4
          rw [not_or, not_not, not_not] at h3
          exact absurd ⟨h1, h2, h3.1, h3.2, h4⟩ hc

theorem rounded_le {l : List (List Byte)} (h : (chars l).length ≤ ncargs - 1) :
    rounded l ≤ ncargs ∧ rounded l % 2 = 0 ∧ (chars l).length ≤ rounded l := by
  unfold rounded ncargs at *
  omega

theorem right_of_fit (h : ArgsFit x) : ∃ r s, exece x = some (r, s) ∧ Right x r s := by
  by_cases hc : Checked x
  · have hfit := h hc
    rcases exece_checked hc with ⟨s', argv, envv, hg, hholds, hread, hlen, hna, hne, heq⟩ |
      ⟨s', e, he, hholds, heq, hlong⟩
    · have hsome : ∃ argv envv, Given x argv envv ∧ (chars (argv ++ envv)).length ≤ ncargs :=
        ⟨argv, envv, hg, by omega⟩
      cases hx : getxfile x.file (BitVec.ofNat 16 (rounded (argv ++ envv))) with
      | error e =>
        rw [hx] at heq
        refine ⟨_, _, heq, fun _ argv' envv' hg' _ hload => ?_, fun _ h => absurd hsome h,
          fun _ => bad_clean hholds⟩
        obtain ⟨rfl, rfl⟩ := given_unique hg hg'
        rw [hx] at hload
        obtain ⟨m, hm⟩ := hload
        cases hm
      | ok o =>
        cases o with
        | none =>
          rw [hx] at heq
          refine ⟨_, _, heq, fun _ argv' envv' hg' _ hload => ?_, fun _ h => absurd hsome h,
            fun _ => bad_clean hholds⟩
          obtain ⟨rfl, rfl⟩ := given_unique hg hg'
          rw [hx] at hload
          obtain ⟨m, hm⟩ := hload
          cases hm
        | some m =>
          rw [hx] at heq
          obtain ⟨hlt, hfits⟩ := hfit argv envv hg (by omega) ⟨m, hx⟩
          obtain ⟨ts, ds, sep, rfl, -⟩ := getxfile_layout hx
          obtain ⟨hr1, hr2, hr3⟩ := rounded_le hlen
          have hperm : ∀ a, 65536 - (rounded (argv ++ envv) + 2 * (argv ++ envv).length + 8) ≤ a →
              a < 65536 → (layout x.file ts ds (ssize + btoc (BitVec.ofNat 16
                (rounded (argv ++ envv)))) sep).readable a ∧ (layout x.file ts ds (ssize +
                btoc (BitVec.ofNat 16 (rounded (argv ++ envv)))) sep).writable a := by
            intro a ha ha'
            refine layout_stack x.file ts ds _ sep ?_ ha'
            rw [stack_clicks _ hr1]
            unfold Fits at hfits
            omega
          obtain ⟨m', s₂, hput, hdec, hholds₂⟩ := putArgs_spec hg.nonzero hread hna hne hr2 hr3 hr1
            hlt hperm
          dsimp only at heq
          rw [hput] at heq
          refine ⟨_, _, heq, fun _ argv' envv' hg' _ _ => ?_, fun _ h => absurd hsome h,
            fun _ => bad_clean hholds₂⟩
          obtain ⟨rfl, rfl⟩ := given_unique hg hg'
          exact ⟨m', _, rfl, hdec⟩
    · refine ⟨_, _, heq, fun _ argv envv hg hle hload => ?_, fun _ _ => ?_,
        fun _ => bad_clean hholds⟩
      · have h1 := hlong argv envv hg
        have h2 := (hfit argv envv hg hle hload).1
        omega
      · rcases he with rfl | rfl
        · exact .inl rfl
        · exact .inr rfl
  · exact not_checked hc

theorem fit_of_right (h : ∃ r s, exece x = some (r, s) ∧ Right x r s) : ArgsFit x := by
  intro hc argv envv hg hle hload
  obtain ⟨r, s, heq, hright⟩ := h
  obtain ⟨m, sp, rfl, hdec⟩ := hright.started hc argv envv hg hle hload
  rcases exece_checked hc with ⟨s', argv', envv', hg', hholds, hread, hlen, hna, hne, heq'⟩ |
    ⟨s', e, he, hholds, heq', hlong⟩
  · obtain ⟨rfl, rfl⟩ := given_unique hg hg'
    obtain ⟨hr1, hr2, hr3⟩ := rounded_le hlen
    refine ⟨by unfold ncargs at *; omega, ?_⟩
    by_contra hno
    obtain ⟨m₀, hm₀⟩ := hload
    rw [heq', hm₀] at heq
    dsimp only at heq
    rw [Option.map_eq_some_iff] at heq
    obtain ⟨⟨m₁, sp₁, s₁⟩, hput, heq⟩ := heq
    cases heq
    obtain ⟨hread', hsp⟩ := putArgs_readable hput
    have hn := length_le_chars (argv ++ envv)
    unfold ncargs at hlen hr1
    rw [hna, sp_eq (by omega)] at hsp
    obtain ⟨ts, ds, sep, rfl, hest⟩ := getxfile_layout hm₀
    have hclicks := stack_clicks (rounded (argv ++ envv)) (by unfold ncargs; omega)
    have hhole := layout_hole hest (by rw [hclicks]; omega) (by rw [hclicks]; omega)
    rw [← hread', hclicks] at hhole
    unfold Fits at hno
    -- the word in the hole is one of those that are decoded
    have hword := decodes_words hdec
      ((65536 - 64 * (20 + (rounded (argv ++ envv) + 63) / 64) - 2 -
        (65536 - (rounded (argv ++ envv) + 2 * (argv ++ envv).length + 8))) / 2)
      (by rw [← List.length_append]; omega)
    rw [hsp, toNat_of_lt (by omega)] at hword
    refine hword ?_
    unfold Space.word
    rw [if_neg]
    rintro ⟨-, h1, -⟩
    refine hhole ?_
    rw [← h1]
    congr 1
    clear * - hr2 hno
    generalize (rounded (argv ++ envv) + 63) / 64 = k at hno ⊢
    omega
  · rw [heq'] at heq
    cases heq

/-- **`exece` and its arguments.** The call does what it should exactly if the arguments have fewer
    than `NCARGS` characters and their words fit on the initial stack. -/
theorem exece_args (x : Execa) :
    (∃ r s, exece x = some (r, s) ∧ Right x r s) ↔ ArgsFit x :=
  ⟨fit_of_right, right_of_fit⟩

/-! ## Many arguments -/

/-- 700 pointers from 2 on, each to an empty string, and a small program. -/
def manyArgs : Execa where
  mem :=
    { readable := fun _ => true
      writable := fun _ => true
      byte := fun a => if a % 2 = 1 ∧ a < 1402 then 16 else 0 }
  argp := 2
  envp := 0
  namei := none
  access := none
  regular := true
  execBits := true
  malloc := 1
  swplo := 0
  junk := fun _ _ => 0
  file :=
    { readErr := none
      short := false
      x := ⟨0o407, 0, 64, 0⟩
      textBusy := false
      uSep := false
      uTsize := 0
      cpu40 := true
      maxmem := 2048
      lateErr := none
      content := fun _ => 0 }

theorem manyArgs_vec (k : Nat) (hk : k ≤ 700) :
    VecAt manyArgs.mem (BitVec.ofNat 16 (1402 - 2 * k)) (List.replicate k []) := by
  induction k with
  | zero => exact .inr rfl
  | succ k ih =>
    have hlt : 1402 - 2 * (k + 1) < 65536 := by omega
    have hword : manyArgs.mem.fuword (BitVec.ofNat 16 (1402 - 2 * (k + 1))) = 4096 := by
      unfold Space.fuword Space.word manyArgs
      dsimp only
      rw [toNat_of_lt hlt, if_pos ⟨by omega, rfl, rfl⟩, if_pos (by omega), if_neg (by omega)]
      rfl
    have hnext : BitVec.ofNat 16 (1402 - 2 * (k + 1)) + 2 = BitVec.ofNat 16 (1402 - 2 * k) := by
      rw [show 1402 - 2 * k = 1402 - 2 * (k + 1) + 2 by omega, BitVec.ofNat_add]
      rfl
    refine ⟨?_, ?_, ?_, ?_, ?_⟩
    · intro h0
      have h1 := congrArg BitVec.toNat h0
      rw [toNat_of_lt hlt] at h1
      change 1402 - 2 * (k + 1) = 0 at h1
      omega
    · rw [hword]
      decide
    · rw [hword]
      decide
    · rw [hword]
      rfl
    · rw [hnext]
      exact ih (by omega)

theorem length_chars_empty (k : Nat) : (chars (List.replicate k [])).length = k := by
  induction k with
  | zero => rfl
  | succ k ih =>
    rw [List.replicate_succ, chars_cons, List.nil_append, List.length_cons, ih]

/-- The pointers do not fit on the initial stack and are lost, and the call does not fail. -/
theorem many_args_lost : ¬∃ r s, exece manyArgs = some (r, s) ∧ Right manyArgs r s := by
  intro h
  have hgiven : Given manyArgs (List.replicate 700 []) [] := by
    unfold Given
    rw [if_neg (by decide)]
    exact ⟨manyArgs_vec 700 (Nat.le_refl _), .inl rfl⟩
  have hround : rounded (List.replicate 700 [] ++ []) = 700 := by
    unfold rounded
    rw [List.append_nil, length_chars_empty]
  have hfits := (fit_of_right h ⟨rfl, rfl, rfl, rfl, by decide⟩ _ _ hgiven (by
    rw [List.append_nil, length_chars_empty]
    decide) (by
    rw [hround]
    exact ⟨_, rfl⟩)).2
  rw [hround, List.append_nil, List.length_replicate] at hfits
  unfold Fits at hfits
  omega

end Exec

end Venix.Kernel
