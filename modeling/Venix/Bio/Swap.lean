/-
  `swap` of `bio.c`.

  A request is cut into transfers of at most 01700 clicks, which all go through one buffer header;
  its flags are set anew for each of them. The driver and the other processes are not part of the
  source: `done k` says whether the `k`-th transfer fails, and whether another process has set
  `B_WANTED` when `swap` goes on. `found` are the flags of a busy header each time the process is
  woken up. `b_blkno` is a `long`, the other numbers are `int`s.
-/
import Mathlib.Tactic

namespace Venix.Bio

namespace Swap

abbrev Word := BitVec 16

/-! ## Flags -/

def bRead : Word := 0o1
def bDone : Word := 0o2
def bError : Word := 0o4
def bBusy : Word := 0o10
def bPhys : Word := 0o20
def bWanted : Word := 0o100

/-- `b_flags` has the flag. -/
def has (flags flag : Word) : Bool := flags &&& flag ≠ 0

/-! ## Transfers -/

/-- The members of the header that the driver looks at. -/
structure Request where
  flags : Word
  dev : Word
  bcount : BitVec 16
  blkno : BitVec 32
  addr : BitVec 16
  xmem : BitVec 8
  deriving DecidableEq

/-- How a transfer ends. -/
structure Completion where
  error : Bool
  wanted : Bool

/-- The flags when `swap` goes on after a transfer: `iodone` sets `B_DONE`. -/
def Completion.flags (c : Completion) (flags : Word) : Word :=
  flags ||| bDone ||| (if c.error then bError else 0) ||| (if c.wanted then bWanted else 0)

/-- The device that is swapped to, and where its swap space begins. -/
structure Area where
  swapdev : Word
  swplo : BitVec 32

/-- `ctod`: clicks in disk blocks. -/
def ctod (x : Word) : Word := (x + 7).sshiftRight 3

/-- `ctob`: clicks in bytes. -/
def ctob (x : Word) : BitVec 16 := x <<< 6

/-- The clicks of the next transfer. -/
def tcount (count : Word) : Word := if (0o1700 : Word).sle count then 0o1700 else count

theorem tcount_eq (count : Word) :
    960 ≤ count.toNat ∧ count.toNat < 32768 ∧ tcount count = 960 ∨
      (count.toNat < 960 ∨ 32768 ≤ count.toNat) ∧ tcount count = count := by
  have hlt := count.isLt
  unfold tcount
  by_cases hle : (0o1700 : Word).sle count
  · rw [if_pos hle]
    rw [BitVec.sle_iff_toInt_le, BitVec.toInt_eq_toNat_cond count] at hle
    change (960 : Int) ≤ _ at hle
    split at hle
    · exact .inl ⟨by omega, by omega, rfl⟩
    · omega
  · rw [if_neg hle]
    rw [BitVec.sle_iff_toInt_le, BitVec.toInt_eq_toNat_cond count] at hle
    change ¬(960 : Int) ≤ _ at hle
    split at hle
    · exact .inr ⟨.inl (by omega), rfl⟩
    · exact .inr ⟨.inr (by omega), rfl⟩

theorem sub_tcount_lt {count : Word} (h : count ≠ 0) :
    (count - tcount count).toNat < count.toNat := by
  have hlt := count.isLt
  have hpos : count.toNat ≠ 0 := fun h0 => h (BitVec.toNat_inj.1 h0)
  rw [BitVec.toNat_sub]
  rcases tcount_eq count with ⟨hlo, -, heq⟩ | ⟨-, heq⟩
  · rw [heq]
    change (65536 - 960 + count.toNat) % 65536 < _
    omega
  · rw [heq]
    omega

def transfer (area : Area) (read : Bool) (blkno coreaddr count : Word) : Request where
  flags := bBusy ||| bPhys ||| if read then bRead else 0
  dev := area.swapdev
  bcount := ctob count
  blkno := area.swplo + blkno.signExtend 32
  addr := coreaddr <<< 6
  xmem := (coreaddr.sshiftRight 10 &&& 0o77).truncate 8

/-- The transfers from the `k`-th on, and the flags after them. -/
def transfers (area : Area) (read : Bool) (done : Nat → Completion) (k : Nat) (flags : Word)
    (blkno coreaddr count : Word) : List Request × Word :=
  if h : count = 0 then ([], flags)
  else
    let r := transfer area read blkno coreaddr (tcount count)
    have := sub_tcount_lt h
    let rest := transfers area read done (k + 1) ((done k).flags r.flags)
      (blkno + ctod (tcount count)) (coreaddr + tcount count) (count - tcount count)
    (r :: rest.1, rest.2)
  termination_by count.toNat

/-! ## `swap` -/

/-- The flags of the header when it is free, or `none` while the process sleeps. -/
def awaitFree : Word → List Word → Option Word
  | flags, found =>
    if has flags bBusy then
      match found with
      | [] => none
      | flags :: found => awaitFree flags found
    else some flags

/-- What `swap` has done: which header it took, its transfers, the flags it leaves, and whether it
called `wakeup` and `panic`. -/
structure Swapped where
  second : Bool
  requests : List Request
  flags : Word
  wakeup : Bool
  panic : Bool

def swap (area : Area) (swbuf1 swbuf2 : Word) (found : List Word) (done : Nat → Completion)
    (blkno coreaddr count : Word) (read : Bool) : Option Swapped :=
  let second := has swbuf1 bBusy && !has swbuf2 bWanted
  (awaitFree (if second then swbuf2 else swbuf1) found).map fun flags =>
    let (requests, flags) := transfers area read done 0 flags blkno coreaddr count
    { second
      requests
      flags := flags &&& ~~~(bBusy ||| bWanted)
      wakeup := has flags bWanted
      panic := has flags bError }

/-! ## The region -/

/-- Where in core the transfer begins, in bytes. -/
def Request.address (r : Request) : Nat := r.xmem.toNat * 2 ^ 16 + r.addr.toNat

/-- The transfer moves `n` clicks from `core` on, to or from the disk from `block` on. -/
structure Request.Moves (area : Area) (read : Bool) (block : Int) (core n : Nat) (r : Request) :
    Prop where
  dev : r.dev = area.swapdev
  read : has r.flags bRead = read
  bcount : r.bcount.toNat = 64 * n
  address : r.address = 64 * core % 2 ^ 22
  blkno : r.blkno = area.swplo + BitVec.ofInt 32 block

/-- The transfers move `count` clicks from `core` on, one after the other, each to its place from
`block` on. -/
inductive Covers (area : Area) (read : Bool) : Int → Nat → Nat → List Request → Prop
  | done (block : Int) (core : Nat) : Covers area read block core 0 []
  | next (block : Int) (core n count : Nat) (r : Request) (rs : List Request) : 0 < n →
      n ≤ 0o1700 → r.Moves area read block core n → (rs = [] ∨ n % 8 = 0) →
      Covers area read (block + (n / 8 : Nat)) (core + n) count rs →
      Covers area read block core (n + count) (r :: rs)

theorem low_bits : ∀ i : Fin 16, (0o77 : Word).getLsbD i = decide (i.val < 6) := by decide

theorem xmem_eq (c : Word) :
    ((c.sshiftRight 10 &&& 0o77).truncate 8 : BitVec 8).toNat = c.toNat / 1024 := by
  have hlt := c.isLt
  have hshift : c.sshiftRight 10 &&& (0o77 : Word) = c >>> 10 := by
    ext i hi
    rw [BitVec.getElem_and, BitVec.getElem_sshiftRight, BitVec.getElem_ushiftRight,
      ← BitVec.getLsbD_eq_getElem (x := (0o77 : Word)), low_bits ⟨i, hi⟩]
    by_cases h6 : i < 6
    · rw [dif_pos (by omega), decide_eq_true h6, Bool.and_true, BitVec.getLsbD_eq_getElem]
    · rw [decide_eq_false h6, Bool.and_false, BitVec.getLsbD_of_ge _ _ (by omega)]
  rw [hshift, BitVec.toNat_setWidth, BitVec.toNat_ushiftRight, Nat.shiftRight_eq_div_pow]
  omega

theorem transfer_moves (area : Area) (read : Bool) (blkno coreaddr n : Word) {core : Nat}
    (hn : n.toNat ≤ 960) (hcore : core % 2 ^ 16 = coreaddr.toNat) :
    (transfer area read blkno coreaddr n).Moves area read blkno.toInt core n.toNat := by
  refine ⟨rfl, ?_, ?_, ?_, ?_⟩
  · cases read
    · change has (bBusy ||| bPhys ||| 0) bRead = false
      decide
    · change has (bBusy ||| bPhys ||| bRead) bRead = true
      decide
  · change (n <<< 6).toNat = _
    rw [BitVec.toNat_shiftLeft, Nat.shiftLeft_eq]
    omega
  · have hlt := coreaddr.isLt
    unfold Request.address transfer
    dsimp only
    rw [xmem_eq, BitVec.toNat_shiftLeft, Nat.shiftLeft_eq]
    omega
  · rfl

/-! ## The transfers of a request -/

theorem transfers_zero (area : Area) (read : Bool) (done : Nat → Completion) (k : Nat)
    (flags blkno coreaddr : Word) {count : Word} (h : count = 0) :
    transfers area read done k flags blkno coreaddr count = ([], flags) := by
  rw [transfers, dif_pos h]

theorem transfers_last (area : Area) (read : Bool) (done : Nat → Completion) (k : Nat)
    (flags blkno coreaddr : Word) {count : Word} (h0 : count ≠ 0) (hlt : count.toNat < 960) :
    transfers area read done k flags blkno coreaddr count =
      ([transfer area read blkno coreaddr count],
        (done k).flags (transfer area read blkno coreaddr count).flags) := by
  have htc : tcount count = count := by
    rcases tcount_eq count with ⟨hlo, -, -⟩ | ⟨-, heq⟩
    · omega
    · exact heq
  rw [transfers, dif_neg h0]
  dsimp only
  rw [htc, transfers_zero _ _ _ _ _ _ _ (BitVec.sub_self count)]

theorem transfers_more (area : Area) (read : Bool) (done : Nat → Completion) (k : Nat)
    (flags blkno coreaddr : Word) {count : Word} (h0 : 960 ≤ count.toNat)
    (hlt : count.toNat < 32768) :
    transfers area read done k flags blkno coreaddr count =
      let r := transfer area read blkno coreaddr 960
      let rest := transfers area read done (k + 1) ((done k).flags r.flags) (blkno + 120)
        (coreaddr + 960) (count - 960)
      (r :: rest.1, rest.2) := by
  have htc : tcount count = 960 := by
    rcases tcount_eq count with ⟨-, -, heq⟩ | ⟨hor, -⟩
    · exact heq
    · omega
  have hne : count ≠ 0 := fun h => by
    subst h
    exact absurd h0 (by decide)
  rw [transfers, dif_neg hne]
  dsimp only
  rw [htc]
  rfl

theorem transfers_head (area : Area) (read : Bool) (done : Nat → Completion) (k : Nat)
    (flags blkno coreaddr : Word) {count : Word} (h : count ≠ 0) :
    ∃ n rs, (transfers area read done k flags blkno coreaddr count).1 =
      transfer area read blkno coreaddr n :: rs := by
  rw [transfers, dif_neg h]
  exact ⟨_, _, rfl⟩

theorem sub_toNat {count : Word} (h : 960 ≤ count.toNat) :
    (count - 960).toNat = count.toNat - 960 := by
  have hlt := count.isLt
  rw [BitVec.toNat_sub]
  change (65536 - 960 + count.toNat) % 65536 = _
  omega

/-- As many transfers as it takes, and the flags of the last of them. -/
theorem flags_error (c : Completion) (area : Area) (read : Bool) (blkno coreaddr n : Word) :
    has (c.flags (transfer area read blkno coreaddr n).flags) bError = c.error := by
  have hall : ∀ read error wanted : Bool,
      has (Completion.flags ⟨error, wanted⟩ (bBusy ||| bPhys ||| if read then bRead else 0)) bError =
        error := by decide
  exact hall read c.error c.wanted

theorem transfers_flags (area : Area) (read : Bool) (done : Nat → Completion) (m k : Nat)
    (flags blkno coreaddr count : Word) (hm : count.toNat ≤ m) (hlt : count.toNat < 32768) :
    (transfers area read done k flags blkno coreaddr count).1.length = (count.toNat + 959) / 960 ∧
      (count ≠ 0 → has (transfers area read done k flags blkno coreaddr count).2 bError =
        (done (k + (count.toNat - 1) / 960)).error) := by
  induction m generalizing k flags blkno coreaddr count with
  | zero =>
    have h0 : count = 0 := BitVec.toNat_inj.1 (Nat.le_zero.1 hm)
    rw [transfers_zero _ _ _ _ _ _ _ h0, h0]
    exact ⟨rfl, fun h => absurd rfl h⟩
  | succ m ih =>
    by_cases h0 : count = 0
    · rw [transfers_zero _ _ _ _ _ _ _ h0, h0]
      exact ⟨rfl, fun h => absurd rfl h⟩
    have hpos : count.toNat ≠ 0 := fun h => h0 (BitVec.toNat_inj.1 h)
    by_cases hlow : count.toNat < 960
    · rw [transfers_last _ _ _ _ _ _ _ h0 hlow]
      refine ⟨?_, fun _ => ?_⟩
      · change 1 = _
        omega
      · rw [flags_error, show (count.toNat - 1) / 960 = 0 by omega]
        rfl
    · have hsub := sub_toNat (not_lt.1 hlow)
      obtain ⟨hlen, herr⟩ := ih (k + 1) ((done k).flags (transfer area read blkno coreaddr 960).flags)
        (blkno + 120) (coreaddr + 960) (count - 960) (by omega) (by omega)
      rw [hsub] at hlen herr
      rw [transfers_more _ _ _ _ _ _ _ (not_lt.1 hlow) hlt]
      dsimp only
      refine ⟨?_, fun _ => ?_⟩
      · rw [List.length_cons, hlen]
        omega
      · by_cases hexact : count.toNat = 960
        · have hz : count - 960 = 0 := BitVec.toNat_inj.1 (by rw [hsub, hexact]; rfl)
          rw [transfers_zero _ _ _ _ _ _ _ hz, flags_error, hexact]
          rfl
        · have hne : count - 960 ≠ 0 := fun hz => by
            rw [hz] at hsub
            change 0 = _ at hsub
            omega
          rw [herr hne]
          congr 2
          omega

/-! ## The blocks -/

theorem blkno_add {x : Word} (h : x.toInt + 120 < 32768) : (x + 120).toInt = x.toInt + 120 := by
  have hlo := x.le_toInt
  rw [BitVec.toInt_add]
  exact Int.bmod_eq_of_le (by simp; omega) (by simp; omega)

/-- The sum of a block number and 120 that an `int` does not hold. -/
theorem blkno_wraps {x : Word} (h : 32768 ≤ x.toInt + 120) (swplo : BitVec 32) :
    swplo + (x + 120).signExtend 32 ≠ swplo + BitVec.ofInt 32 (x.toInt + 120) := by
  have hhi := x.toInt_lt
  intro heq
  have hcancel : (x + 120).signExtend 32 = BitVec.ofInt 32 (x.toInt + 120) := by
    simpa using heq
  have htoInt := congrArg BitVec.toInt hcancel
  rw [BitVec.toInt_signExtend_of_le (by decide), BitVec.toInt_ofInt, BitVec.toInt_add,
    Int.bmod_def, Int.bmod_def] at htoInt
  change (if (x.toInt + 120) % 65536 < 32768 then (x.toInt + 120) % 65536
      else (x.toInt + 120) % 65536 - 65536) =
    if (x.toInt + 120) % 4294967296 < 2147483648 then (x.toInt + 120) % 4294967296
      else (x.toInt + 120) % 4294967296 - 4294967296 at htoInt
  rw [if_neg (by omega), if_pos (by omega)] at htoInt
  omega

theorem Covers.cons_inv {area : Area} {read : Bool} {block : Int} {core total : Nat} {r : Request}
    {rs : List Request} (h : Covers area read block core total (r :: rs)) :
    ∃ n, n ≤ total ∧ r.Moves area read block core n ∧
      Covers area read (block + (n / 8 : Nat)) (core + n) (total - n) rs := by
  cases h with
  | next _ _ n count _ _ _ _ hmoves _ hrest =>
    refine ⟨n, Nat.le_add_right n count, hmoves, ?_⟩
    rwa [Nat.add_sub_cancel_left]

/-- The transfers cover the region exactly where the block number of the last one is an `int`. -/
theorem transfers_covers_iff (area : Area) (read : Bool) (done : Nat → Completion) (m k core : Nat)
    (flags blkno coreaddr count : Word) (hm : count.toNat ≤ m) (hlt : count.toNat < 32768)
    (hcore : core % 2 ^ 16 = coreaddr.toNat) :
    Covers area read blkno.toInt core count.toNat
        (transfers area read done k flags blkno coreaddr count).1 ↔
      count = 0 ∨ blkno.toInt + 120 * ((count.toNat - 1) / 960 : Nat) < 32768 := by
  induction m generalizing k core flags blkno coreaddr count with
  | zero =>
    have h0 : count = 0 := BitVec.toNat_inj.1 (Nat.le_zero.1 hm)
    rw [transfers_zero _ _ _ _ _ _ _ h0, h0]
    exact iff_of_true (.done _ _) (.inl rfl)
  | succ m ih =>
    by_cases h0 : count = 0
    · rw [transfers_zero _ _ _ _ _ _ _ h0, h0]
      exact iff_of_true (.done _ _) (.inl rfl)
    have hpos : count.toNat ≠ 0 := fun h => h0 (BitVec.toNat_inj.1 h)
    have hhi := blkno.toInt_lt
    by_cases hlow : count.toNat < 960
    · rw [transfers_last _ _ _ _ _ _ _ h0 hlow]
      have hmoves := transfer_moves area read blkno coreaddr count (by omega) hcore
      refine iff_of_true ?_ (.inr (by omega))
      exact .next _ _ count.toNat 0 _ _ (by omega) (by omega) hmoves (.inl rfl) (.done _ _)
    · have hge := not_lt.1 hlow
      have hsub := sub_toNat hge
      have hmoves := transfer_moves area read blkno coreaddr 960 (by decide) hcore
      have hrest := ih (k + 1) (core + 960) ((done k).flags (transfer area read blkno coreaddr 960).flags)
        (blkno + 120) (coreaddr + 960) (count - 960) (by omega) (by omega) (by
          rw [BitVec.toNat_add]
          change _ = (coreaddr.toNat + 960) % 65536
          omega)
      have hlen := (transfers_flags area read done m (k + 1)
        ((done k).flags (transfer area read blkno coreaddr 960).flags) (blkno + 120)
        (coreaddr + 960) (count - 960) (by omega) (by omega)).1
      rw [hsub] at hrest hlen
      rw [transfers_more _ _ _ _ _ _ _ hge hlt]
      dsimp only
      generalize hrs : (transfers area read done (k + 1) _ (blkno + 120) (coreaddr + 960)
        (count - 960)).1 = rs at hrest hlen ⊢
      -- the first transfer is right, so the region is covered where the rest is
      have hfirst : Covers area read blkno.toInt core count.toNat
            (transfer area read blkno coreaddr 960 :: rs) ↔
          Covers area read (blkno.toInt + 120) (core + 960) (count.toNat - 960) rs := by
        constructor
        · intro h
          obtain ⟨n, -, hn, h⟩ := h.cons_inv
          have hbytes := hn.bcount.symm.trans hmoves.bcount
          change 64 * n = 64 * 960 at hbytes
          obtain rfl : n = 960 := by omega
          exact h
        · intro h
          have hnext := Covers.next _ _ 960 _ _ _ (by decide) (by decide) hmoves (.inr (by decide)) h
          rwa [show 960 + (count.toNat - 960) = count.toNat by clear * - hlow; omega] at hnext
      rw [hfirst]
      by_cases hexact : count.toNat = 960
      · have hnil : rs = [] := List.eq_nil_of_length_eq_zero (by rw [hlen, hexact])
        rw [hnil, hexact]
        exact iff_of_true (.done _ _) (.inr (by omega))
      have hne : count - 960 ≠ 0 := fun hz => by
        rw [hz] at hsub
        change 0 = _ at hsub
        omega
      by_cases hfits : blkno.toInt + 120 < 32768
      · rw [blkno_add hfits] at hrest
        rw [hrest]
        simp only [h0, hne, false_or]
        clear * - hlow hexact
        omega
      · refine iff_of_false (fun h => ?_) (fun h => ?_)
        · obtain ⟨n, rest, hhead⟩ := transfers_head area read done (k + 1)
            ((done k).flags (transfer area read blkno coreaddr 960).flags) (blkno + 120)
            (coreaddr + 960) hne
          rw [hrs] at hhead
          rw [hhead] at h
          obtain ⟨n', -, hmoves', -⟩ := h.cons_inv
          exact blkno_wraps (not_lt.1 hfits) area.swplo hmoves'.blkno
        · rcases h with h | h
          · exact h0 h
          · omega

/-! ## `swap` -/

/-- The region is covered, and a transfer that fails makes the kernel panic. -/
structure Right (area : Area) (read : Bool) (done : Nat → Completion)
    (blkno coreaddr count : Word) (s : Swapped) : Prop where
  covers : Covers area read blkno.toInt coreaddr.toNat count.toNat s.requests
  panics : ∀ k < s.requests.length, (done k).error → s.panic

/-- Some of the first `n` transfers fails. -/
def SomeFails (done : Nat → Completion) (n : Nat) : Prop := ∃ k < n, (done k).error

/-- `swap` transfers the region, and panics where a transfer fails, exactly where the block number of
the last transfer is an `int`, and no transfer fails unless the last one does. -/
theorem swap_iff (area : Area) (swbuf1 swbuf2 : Word) (found : List Word)
    (done : Nat → Completion) (blkno coreaddr count : Word) (read : Bool)
    (hcount : 0 ≤ count.toInt) {s : Swapped}
    (h : swap area swbuf1 swbuf2 found done blkno coreaddr count read = some s) :
    Right area read done blkno coreaddr count s ↔
      (count = 0 ∨ blkno.toInt + 120 * ((count.toNat - 1) / 960 : Nat) < 32768) ∧
        (SomeFails done ((count.toNat + 959) / 960) → (done ((count.toNat - 1) / 960)).error) := by
  have hlt : count.toNat < 32768 := by
    have := count.isLt
    rw [BitVec.toInt_eq_toNat_cond] at hcount
    split at hcount
    · omega
    · omega
  unfold swap at h
  dsimp only at h
  obtain ⟨flags, -, rfl⟩ := Option.map_eq_some_iff.1 h
  obtain ⟨hlen, herr⟩ := transfers_flags area read done count.toNat 0 flags blkno coreaddr count
    (Nat.le_refl _) hlt
  have hcovers := transfers_covers_iff area read done count.toNat 0 coreaddr.toNat flags blkno
    coreaddr count (Nat.le_refl _) hlt (Nat.mod_eq_of_lt coreaddr.isLt)
  rw [← hcovers, ← hlen]
  constructor
  · intro hright
    refine ⟨hright.covers, fun ⟨k, hk, hfail⟩ => ?_⟩
    have hne : count ≠ 0 := fun h0 => by
      rw [transfers_zero _ _ _ _ _ _ _ h0] at hk
      exact absurd hk (Nat.not_lt_zero k)
    have hpanic := hright.panics k hk hfail
    rw [← Nat.zero_add ((count.toNat - 1) / 960), ← herr hne]
    exact hpanic
  · rintro ⟨hcov, hlast⟩
    refine ⟨hcov, fun k hk hfail => ?_⟩
    have hne : count ≠ 0 := fun h0 => by
      change k < (transfers area read done 0 flags blkno coreaddr count).1.length at hk
      rw [transfers_zero _ _ _ _ _ _ _ h0] at hk
      exact absurd hk (Nat.not_lt_zero k)
    have hpanic := hlast ⟨k, hk, hfail⟩
    rw [← Nat.zero_add ((count.toNat - 1) / 960), ← herr hne] at hpanic
    exact hpanic

/-- Two transfers, the second of which fails. -/
theorem swap_iff_two : ∃ s, swap ⟨0, 1000⟩ 0 0 [] (fun k => ⟨k = 1, false⟩) 40 8 1000 false = some s ∧
    (Right ⟨0, 1000⟩ false (fun k => ⟨k = 1, false⟩) 40 8 1000 s ↔
      ((1000 : Word) = 0 ∨ (40 : Word).toInt + 120 * (((1000 : Word).toNat - 1) / 960 : Nat) < 32768) ∧
        (SomeFails (fun k => ⟨k = 1, false⟩) (((1000 : Word).toNat + 959) / 960) →
          ((fun k => ⟨k = 1, false⟩ : Nat → Completion) (((1000 : Word).toNat - 1) / 960)).error)) :=
  ⟨_, rfl, swap_iff ⟨0, 1000⟩ 0 0 [] _ 40 8 1000 false (by decide) rfl⟩

/-- 1000 clicks take two transfers. The first one fails, and the kernel does not panic. -/
theorem swap_loses_error : ∃ s,
    swap ⟨0, 1000⟩ 0 0 [] (fun k => ⟨k = 0, false⟩) 40 8 1000 false = some s ∧
      s.requests.length = 2 ∧ s.panic = false ∧
      ¬Right ⟨0, 1000⟩ false (fun k => ⟨k = 0, false⟩) 40 8 1000 s := by
  obtain ⟨hlen, herr⟩ := transfers_flags ⟨0, 1000⟩ false (fun k => ⟨k = 0, false⟩) 1000 0 0 40 8 1000
    (by decide) (by decide)
  refine ⟨_, rfl, hlen, herr (by decide), fun hright => ?_⟩
  have hpanic := hright.panics 0 (hlen.symm ▸ Nat.two_pos) rfl
  exact absurd ((herr (by decide)).symm.trans hpanic) (by decide)

end Swap

end Venix.Bio
