/-
  The queue of a disk drive (`dsort.c`): `disksort`, with what the driver (`hp.c`) does before and
  after it.

  A drive has a list of requests, linked by `av_forw` from `b_actf`, with `b_actl` as its end. The
  driver takes the request at the head off when it is completed (`done`). The walk along the list
  has a number of steps, since nothing in the links says that it ends: `hang` is a walk that does
  not, and `fault` a null pointer that is followed.
-/
import Venix.Lib.Chain

namespace Venix.Bio

open Venix.Lib

namespace Disk

inductive Stop where
  | hang
  | fault
  deriving DecidableEq

/-- The head `dp` of a drive, and what its requests have. -/
structure Drive (B : Type) where
  actf : Option B
  actl : Option B
  avForw : B → Option B
  /-- `b_flags & B_READ`. -/
  read : B → Bool
  cylin : B → BitVec 16

variable {B : Type}

/-- The loop of `disksort`: the request `tp` after which `bp` belongs. -/
def place (dp : Drive B) (bp : B) : Nat → Option B → Option B → Except Stop (Option B)
  | _, none, tp => .ok tp
  | 0, some _, _ => .error .hang
  | n + 1, some ap, tp =>
    if dp.read bp && !dp.read ap then .ok (if tp = none then some ap else tp)
    else if !dp.read bp && dp.read ap then place dp bp n (dp.avForw ap) tp
    else if dp.cylin ap ≤ dp.cylin bp ∧ tp.all (dp.cylin · ≤ dp.cylin ap) then
      place dp bp n (dp.avForw ap) (some ap)
    else place dp bp n (dp.avForw ap) tp

def disksort [DecidableEq B] (n : Nat) (dp : Drive B) (bp : B) : Except Stop (Drive B) :=
  match dp.actf with
  | none => .ok { dp with
      actf := some bp
      actl := some bp
      avForw := Function.update dp.avForw bp none }
  | some ap =>
    match place dp bp n (some ap) none with
    | .error e => .error e
    | .ok tp =>
      match (if tp = none then dp.actl else tp) with
      | none => .error .fault
      | some tp => .ok { dp with
          avForw := Function.update (Function.update dp.avForw bp (dp.avForw tp)) tp (some bp)
          actl := if some tp = dp.actl then some bp else dp.actl }

/-- The part of `hpstrategy` that puts a request in. -/
def strategy [DecidableEq B] (n : Nat) (dp : Drive B) (bp : B) (read : Bool)
    (cylin : BitVec 16) : Except Stop (Drive B) :=
  disksort n { dp with
    read := Function.update dp.read bp read
    cylin := Function.update dp.cylin bp cylin } bp

/-- The request at the head is completed. -/
def done (dp : Drive B) : Option (B × Drive B) :=
  match dp.actf with
  | none => none
  | some bp => some (bp, { dp with actf := dp.avForw bp })

/-- The states that requests and completions lead to, with the requests that are pending. A request
    is not made again before it is completed. `Ok` may restrict the requests. -/
inductive Reached [DecidableEq B] (Ok : Drive B → Bool → BitVec 16 → Prop) : Drive B → List B → Prop
  | start {dp : Drive B} (h : dp.actf = none) : Reached Ok dp []
  | request {dp dp' : Drive B} {p : List B} {bp : B} {read : Bool} {cylin : BitVec 16} {n : Nat}
      (h : Reached Ok dp p) (hbp : bp ∉ p) (hok : Ok dp read cylin)
      (hcall : strategy n dp bp read cylin = .ok dp') : Reached Ok dp' (bp :: p)
  | done {dp dp' : Drive B} {p : List B} {bp : B} (h : Reached Ok dp p)
      (hcall : done dp = some (bp, dp')) : Reached Ok dp' (p.erase bp)

/-! ## The place -/

/-- The loop over the list itself. -/
def placeIn (dp : Drive B) (bp : B) : List B → Option B → Option B
  | [], tp => tp
  | ap :: l, tp =>
    if dp.read bp && !dp.read ap then if tp = none then some ap else tp
    else if !dp.read bp && dp.read ap then placeIn dp bp l tp
    else if dp.cylin ap ≤ dp.cylin bp ∧ tp.all (dp.cylin · ≤ dp.cylin ap) then
      placeIn dp bp l (some ap)
    else placeIn dp bp l tp

/-- A walk of enough steps ends, and any that ends has gone along the list. -/
theorem place_eq {dp : Drive B} {l : List B} {h : Option B} (hc : Chain dp.avForw h l) (bp : B)
    (n : Nat) (tp : Option B) :
    place dp bp n h tp = .ok (placeIn dp bp l tp) ∨
      n < l.length ∧ place dp bp n h tp = .error .hang := by
  induction l generalizing n h tp with
  | nil =>
    rw [show h = none from hc]
    cases n <;> exact .inl rfl
  | cons ap l ih =>
    obtain ⟨rfl, hc⟩ := hc
    cases n with
    | zero => exact .inr ⟨by simp, rfl⟩
    | succ n =>
      rw [place, placeIn, List.length_cons, Nat.succ_lt_succ_iff]
      split
      · exact .inl rfl
      · split
        · exact ih hc n tp
        · split
          · exact ih hc n (some ap)
          · exact ih hc n tp

theorem placeIn_mem {dp : Drive B} {bp : B} {l : List B} {tp : Option B} {t : B}
    (h : placeIn dp bp l tp = some t) : t ∈ l ∨ tp = some t := by
  induction l generalizing tp with
  | nil => exact .inr h
  | cons ap l ih =>
    rw [placeIn] at h
    split at h
    · split at h
      · cases h
        exact .inl List.mem_cons_self
      · exact .inr h
    · split at h
      · exact (ih h).imp_left (List.mem_cons_of_mem ap)
      · split at h
        · rcases ih h with hl | hap
          · exact .inl (List.mem_cons_of_mem ap hl)
          · cases hap
            exact .inl List.mem_cons_self
        · exact (ih h).imp_left (List.mem_cons_of_mem ap)

/-- The request after which `bp` is put in a list that is not empty. -/
def after (dp : Drive B) (bp : B) (l : List B) : Option B :=
  match placeIn dp bp l none with
  | none => l.getLast?
  | some t => some t

theorem after_mem {dp : Drive B} {bp : B} {l : List B} {t : B} (h : after dp bp l = some t) :
    t ∈ l := by
  unfold after at h
  split at h
  · exact List.mem_of_getLast? h
  · rename_i t' ht
    cases h
    rcases placeIn_mem ht with hl | hn
    · exact hl
    · cases hn

theorem after_some (dp : Drive B) (bp : B) {l : List B} (hne : l ≠ []) :
    ∃ t, after dp bp l = some t := by
  unfold after
  split
  · exact ⟨_, List.getLast?_eq_some_getLast hne⟩
  · exact ⟨_, rfl⟩

/-! ## The queue -/

/-- The list of the drive is `l`, with its end. -/
structure Listed (dp : Drive B) (l : List B) : Prop where
  chain : Chain dp.avForw dp.actf l
  tail : l ≠ [] → dp.actl = l.getLast?

/-- `l'` is `l` with `bp` after the request that `disksort` has found, or alone. -/
inductive Inserted (dp : Drive B) (bp : B) : List B → List B → Prop
  | alone : Inserted dp bp [] [bp]
  | after {a b : List B} {t : B} (h : after dp bp (a ++ t :: b) = some t) :
      Inserted dp bp (a ++ t :: b) (a ++ t :: bp :: b)

theorem last_insert [DecidableEq B] {a b : List B} {t x : B} (hnd : (a ++ t :: b).Nodup) :
    (if some t = (a ++ t :: b).getLast? then some x else (a ++ t :: b).getLast?) =
      (a ++ t :: x :: b).getLast? := by
  cases hb : b.getLast? with
  | none =>
    rw [List.getLast?_eq_none_iff.1 hb]
    simp
  | some y =>
    have hy : y ∈ b := List.mem_of_getLast? hb
    have hty : t ≠ y := by
      rintro rfl
      exact (List.nodup_cons.mp (List.nodup_append.mp hnd).2.1).1 hy
    rw [List.getLast?_append, List.getLast?_cons, List.getLast?_append, List.getLast?_cons,
      List.getLast?_cons, hb]
    simp [hty]

theorem Inserted.perm {dp : Drive B} {bp : B} {l l' : List B} (h : Inserted dp bp l l') :
    l'.Perm (bp :: l) := by
  cases h with
  | alone => exact List.Perm.refl _
  | @after a b t _ =>
    have hmid : (a ++ [t] ++ bp :: b).Perm (bp :: (a ++ [t] ++ b)) := List.perm_middle
    simpa using hmid

/-- The request at the head stays there. -/
theorem Inserted.head {dp : Drive B} {bp : B} {l l' : List B} (h : Inserted dp bp l l')
    (hne : l ≠ []) : l'.head? = l.head? := by
  cases h with
  | alone => exact absurd rfl hne
  | @after a b t _ => cases a <;> rfl

theorem done_spec {dp dp' : Drive B} {l : List B} (h : Listed dp l) {bp : B}
    (hcall : done dp = some (bp, dp')) :
    ∃ l', l = bp :: l' ∧ Listed dp' l' ∧ dp'.read = dp.read ∧ dp'.cylin = dp.cylin := by
  unfold done at hcall
  cases l with
  | nil =>
    rw [show dp.actf = none from h.chain] at hcall
    cases hcall
  | cons x l =>
    rw [h.chain.1] at hcall
    cases hcall
    refine ⟨l, rfl, ⟨h.chain.2, fun hne => ?_⟩, rfl, rfl⟩
    have htail : dp.actl = (bp :: l).getLast? := h.tail (by simp)
    change dp.actl = l.getLast?
    rw [htail, List.getLast?_cons, List.getLast?_eq_some_getLast hne]
    rfl

section Queue

variable [DecidableEq B]

theorem disksort_spec {dp : Drive B} {l : List B} (h : Listed dp l) {bp : B} (hbp : bp ∉ l) (n : Nat) :
    (∃ dp' l', disksort n dp bp = .ok dp' ∧ Inserted dp bp l l' ∧ Listed dp' l' ∧
      dp'.read = dp.read ∧ dp'.cylin = dp.cylin) ∨
    n < l.length ∧ disksort n dp bp = .error .hang := by
  unfold disksort
  cases l with
  | nil =>
    have hnone : dp.actf = none := h.chain
    rw [hnone]
    refine .inl ⟨_, [bp], rfl, .alone, ⟨⟨rfl, Function.update_self _ _ _⟩, fun _ => rfl⟩, rfl, rfl⟩
  | cons ap l =>
    have hsome : dp.actf = some ap := h.chain.1
    have hchain : Chain dp.avForw (some ap) (ap :: l) := ⟨rfl, h.chain.2⟩
    rw [hsome]
    dsimp only
    rcases place_eq hchain bp n none with hok | ⟨hlt, herr⟩
    · left
      obtain ⟨t, ht⟩ := after_some dp bp (l := ap :: l) (by simp)
      obtain ⟨a, b, hab⟩ := List.append_of_mem (after_mem ht)
      have htail : dp.actl = (ap :: l).getLast? := h.tail (by simp)
      have hfound : (if placeIn dp bp (ap :: l) none = none then dp.actl
          else placeIn dp bp (ap :: l) none) = some t := by
        rw [htail, ← ht]
        unfold after
        cases placeIn dp bp (ap :: l) none <;> rfl
      rw [hok]
      dsimp only
      rw [hfound, hab]
      rw [hab] at ht hbp htail hchain
      have hlast := last_insert hchain.nodup (x := bp)
      rw [← htail] at hlast
      exact ⟨_, _, rfl, .after ht, ⟨hsome ▸ hchain.insert hbp, fun _ => hlast⟩, rfl, rfl⟩
    · exact .inr ⟨hlt, by rw [herr]⟩

/-- The drive when the request has its direction and its cylinder, before it is put in. -/
def asked (dp : Drive B) (bp : B) (read : Bool) (cylin : BitVec 16) : Drive B :=
  { dp with
    read := Function.update dp.read bp read
    cylin := Function.update dp.cylin bp cylin }

theorem strategy_spec {dp : Drive B} {l : List B} (h : Listed dp l) {bp : B} (hbp : bp ∉ l)
    (read : Bool) (cylin : BitVec 16) (n : Nat) :
    (∃ dp' l', strategy n dp bp read cylin = .ok dp' ∧ Inserted (asked dp bp read cylin) bp l l' ∧
      Listed dp' l' ∧ dp'.read = (asked dp bp read cylin).read ∧
      dp'.cylin = (asked dp bp read cylin).cylin) ∨
    n < l.length ∧ strategy n dp bp read cylin = .error .hang := by
  have hasked : Listed (asked dp bp read cylin) l := ⟨h.chain, h.tail⟩
  exact disksort_spec hasked hbp n

/-- The list has the pending requests. -/
theorem Reached.listed {Ok : Drive B → Bool → BitVec 16 → Prop} {dp : Drive B} {p : List B}
    (h : Reached Ok dp p) : ∃ l, Listed dp l ∧ l.Perm p := by
  induction h with
  | start h => exact ⟨[], ⟨h, fun hne => absurd rfl hne⟩, List.Perm.refl _⟩
  | @request dp dp' p bp read cylin n _ hbp _ hcall ih =>
    obtain ⟨l, hl, hp⟩ := ih
    have hbl : bp ∉ l := fun hx => hbp (hp.mem_iff.1 hx)
    rcases strategy_spec hl hbl read cylin n with ⟨dp₁, l', h1, hins, hl', -⟩ | ⟨-, h1⟩
    · rw [hcall] at h1
      cases h1
      exact ⟨l', hl', hins.perm.trans (hp.cons bp)⟩
    · rw [hcall] at h1
      cases h1
  | @done dp dp' p bp _ hcall ih =>
    obtain ⟨l, hl, hp⟩ := ih
    obtain ⟨l', rfl, hl', -⟩ := done_spec hl hcall
    refine ⟨l', hl', ?_⟩
    have herase := hp.erase bp
    rwa [List.erase_cons_head] at herase

/-- The list has each pending request once, and its end; a new request is put in, and not before the
    one at the head. -/
theorem disksort_queue (dp : Drive B) (p : List B) (h : Reached (fun _ _ _ => True) dp p) :
    ∃ l, Listed dp l ∧ l.Perm p ∧ l.Nodup ∧
      ∀ bp ∉ p, ∀ read cylin n, p.length ≤ n → ∃ dp' l', strategy n dp bp read cylin = .ok dp' ∧
        Listed dp' l' ∧ l'.Perm (bp :: p) ∧ l'.Nodup ∧ (p ≠ [] → dp'.actf = dp.actf) := by
  obtain ⟨l, hl, hp⟩ := h.listed
  refine ⟨l, hl, hp, hl.chain.nodup, fun bp hbp read cylin n hn => ?_⟩
  have hbl : bp ∉ l := fun hx => hbp (hp.mem_iff.1 hx)
  rcases strategy_spec hl hbl read cylin n with ⟨dp', l', hcall, hins, hl', -⟩ | ⟨hlt, -⟩
  · refine ⟨dp', l', hcall, hl', hins.perm.trans (hp.cons bp), hl'.chain.nodup, fun hne => ?_⟩
    have hne' : l ≠ [] := by
      rintro rfl
      exact hne (List.nil_perm.1 hp)
    rw [hl'.chain.head_eq, hl.chain.head_eq, hins.head hne']
  · rw [hp.length_eq] at hlt
    omega

end Queue

/-! ## A drive with requests -/

/-- No requests. -/
def idleDrive : Drive Nat where
  actf := none
  actl := none
  avForw := fun _ => none
  read := fun _ => false
  cylin := fun _ => 0

theorem disksort_queue_two : ∃ dp l, Listed dp l ∧ l.Perm [2, 1] ∧ l.Nodup ∧
    ∀ bp ∉ [2, 1], ∀ read cylin n, 2 ≤ n → ∃ dp' l', strategy n dp bp read cylin = .ok dp' ∧
      Listed dp' l' ∧ l'.Perm [bp, 2, 1] ∧ l'.Nodup ∧ ([2, 1] ≠ [] → dp'.actf = dp.actf) := by
  have h0 : Reached (fun _ _ _ => True) idleDrive [] := .start rfl
  have h1 := Reached.request h0 (by decide : 1 ∉ []) trivial
    (show strategy 0 idleDrive 1 true 7 = .ok _ from rfl)
  have h2 := Reached.request h1 (by decide : 2 ∉ [1]) trivial
    (show strategy 1 _ 2 true 3 = .ok _ from rfl)
  exact ⟨_, disksort_queue _ [2, 1] h2⟩

end Disk

end Venix.Bio
