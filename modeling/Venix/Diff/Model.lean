/-
  `diff` (`cmd/diff.c`), on a machine whose `int` has 16 bits and whose `char` is signed.

  A file is its list of bytes; reading past the end gives `EOF`. The arrays that the program lays
  over each other are apart here: what lies under one is read before it is written over. Line
  numbers, serials and indices are natural numbers: the code never makes one of them negative. The
  sizes of the tables are not modelled. A loop that does not end, as the one of `skipline` at the
  end of a file, gives `none`.
-/
import Venix.Lib.Loop
import Venix.Lib.Shell
import Venix.Lib.Numeral
import Venix.Lib.Changes

namespace Venix.Diff

open Venix.Lib Function

def getc : List UInt8 → Int × List UInt8
  | [] => (-1, [])
  | c :: f => (c.toNat, f)

/-- `getc` to a `char`. -/
def getch : List UInt8 → Int8 × List UInt8
  | [] => (-1, [])
  | c :: f => (c.toInt8, f)

/-! ## `readhash` and `prepare` -/

/-- The sum of a line, or `none` at the end of the file. -/
def sumLine : List UInt8 → Int32 → Nat → Option Int32 × List UInt8
  | [], _, _ => (none, [])
  | t :: f, sum, shift =>
    if t = 10 then (some sum, f)
    else sumLine f (sum + Int32.ofNat t.toNat <<< Int32.ofNat (shift % 16)) (shift % 16 + 7)

/-- The same with `-b`. -/
def sumWords : List UInt8 → Int32 → Nat → Int16 → Option Int32 × List UInt8
  | [], _, _, _ => (none, [])
  | t :: f, sum, shift, space =>
    if t = 9 ∨ t = 32 then sumWords f sum shift (space + 1)
    else if t = 10 then (some sum, f)
    else
      let shift := if space ≠ 0 then shift + 7 else shift
      sumWords f (sum + Int32.ofNat t.toNat <<< Int32.ofNat (shift % 16)) (shift % 16 + 7) 0

def low (x : Int32) : Int32 := x &&& 0xFFFF

def high (x : Int32) : Int32 := x >>> 16

def readhash (bflag : Bool) (f : List UInt8) : Int16 × List UInt8 :=
  match if bflag then sumWords f 1 0 0 else sumLine f 1 0 with
  | (none, f) => (0, f)
  | (some sum, f) =>
    let sum := low sum + high sum
    ((low sum).toInt16 + (high sum).toInt16, f)

def prepareTurn (bflag : Bool) (s : List UInt8 × List Int16) :
    Option (Turn (List UInt8 × List Int16) (List Int16)) :=
  let (h, f) := readhash bflag s.1
  some (if h = 0 then .done s.2 else .more (f, s.2 ++ [h]))

/-- The values of the lines. -/
def prepare (bflag : Bool) (f : List UInt8) : Option (List Int16) :=
  loop (prepareTurn bflag) (f.length + 1) (f, [])

/-- `struct line`. -/
structure Entry where
  serial : Nat
  value : Int

/-- `file[i]`: the lines from 1 on. -/
def file (l : List Int16) : Nat → Entry
  | 0 => ⟨0, 0⟩
  | i + 1 => ⟨0, (l.getD i 0).toInt⟩

/-! ## `prune`, `sort`, `equiv` and `unsort` -/

def pref (a b : Nat → Entry) (len₀ len₁ : Nat) : Option Nat :=
  whileLoop (fun p => decide (p < len₀) && decide (p < len₁) &&
    decide ((a (p + 1)).value = (b (p + 1)).value)) (fun p => some (p + 1)) (len₀ + 1) 0

def suff (a b : Nat → Entry) (len₀ len₁ pref : Nat) : Option Nat :=
  whileLoop (fun s => decide (s < len₀ - pref) && decide (s < len₁ - pref) &&
    decide ((a (len₀ - s)).value = (b (len₁ - s)).value)) (fun s => some (s + 1)) (len₀ + 1) 0

/-- `sfile[j]`. -/
def sfile (a : Nat → Entry) (pref slen : Nat) (i : Nat) : Entry :=
  if i ≤ slen then ⟨i, (a (i + pref)).value⟩ else a (i + pref)

/-- The test that ends the inner loop of `sort`. -/
def less (x y : Entry) : Bool :=
  decide (y.value > x.value) || (decide (y.value = x.value) && decide (y.serial > x.serial))

/-- `m` after the loop that doubles `j`. -/
def startGap (n : Nat) : Nat → Nat → Nat → Nat
  | 0, _, m => m
  | f + 1, j, m => if j ≤ n then startGap n f (j * 2) (2 * j - 1) else m

def sort (a : Nat → Entry) (n : Nat) : Option (Nat → Entry) :=
  Shell.passes less (Shell.gaps n (startGap n n 1 0 / 2)) n a

/-- The state of the first loop of `equiv`. -/
structure Mate where
  a : Nat → Entry
  i : Nat
  j : Nat

def setValue (a : Nat → Entry) (i : Nat) (v : Int) (k : Nat) : Entry :=
  if k = i then { a i with value := v } else a k

def mateBody (b : Nat → Entry) (s : Mate) : Mate :=
  if (s.a s.i).value < (b s.j).value then ⟨setValue s.a s.i 0, s.i + 1, s.j⟩
  else if (s.a s.i).value = (b s.j).value then ⟨setValue s.a s.i s.j, s.i + 1, s.j⟩
  else ⟨s.a, s.i, s.j + 1⟩

/-- The first two loops of `equiv`, on `a`. -/
def mate (a : Nat → Entry) (n : Nat) (b : Nat → Entry) (m : Nat) : Option (Nat → Entry) := do
  let s ← whileLoop (fun s => decide (s.i ≤ n) && decide (s.j ≤ m)) (fun s => some (mateBody b s))
    (n + m + 1) ⟨a, 1, 1⟩
  let s ← whileLoop (fun s => decide (s.i ≤ n))
    (fun s => some ⟨setValue s.a s.i 0, s.i + 1, s.j⟩) (n + 1) s
  return s.a

/-- The rest of a class: `j` and `c` after the inner loop. -/
def classRest (b : Nat → Entry) (m : Nat) (s : Nat × (Nat → Int)) : Option (Nat × (Nat → Int)) :=
  whileLoop (fun s => decide ((b (s.1 + 1)).value = (b s.1).value))
    (fun s => some (s.1 + 1, update s.2 (s.1 + 1) (b (s.1 + 1)).serial)) (m + 1) s

/-- The last loop of `equiv`: `c`. -/
def members (b : Nat → Entry) (m : Nat) : Option (Nat → Int) := do
  let b := setValue b (m + 1) 0
  let s ← whileLoop (fun s => decide (s.1 + 1 ≤ m))
    (fun s => classRest b m (s.1 + 1, update s.2 (s.1 + 1) (-(b (s.1 + 1)).serial))) (m + 1)
    (0, fun _ => 0)
  return update s.2 (s.1 + 1) (-1)

def unsort (f : Nat → Entry) (l : Nat) : Option (Nat → Int) :=
  (List.range' 1 l).foldlM (fun a i => some (update a (f i).serial (f i).value)) fun _ => 0

/-! ## `stone` and `unravel` -/

structure Cand where
  x : Nat
  y : Nat
  pred : Nat

/-- The free storage of candidates, and `c` and `k` of `stone`. -/
structure Stone where
  clist : List Cand
  c : Nat → Nat
  k : Nat

def Stone.cand (s : Stone) (i : Nat) : Cand := s.clist.getD i ⟨0, 0, 0⟩

/-- `c[l] = newcand(x, y, pred)`. -/
def newcand (s : Stone) (l : Nat) (q : Cand) : Stone :=
  { s with
    clist := s.clist ++ [q]
    c := update s.c l s.clist.length }

def searchTurn (s : Stone) (y : Nat) (t : Nat × Nat) : Option (Turn (Nat × Nat) Nat) :=
  let l := (t.1 + t.2) / 2
  some (if l > t.1 then
      if (s.cand (s.c l)).y > y then .more (t.1, l)
      else if (s.cand (s.c l)).y < y then .more (l, t.2)
      else .done l
    else .done (l + 1))

def search (s : Stone) (y : Nat) : Option Nat :=
  if (s.cand (s.c s.k)).y < y then some (s.k + 1)
  else loop (searchTurn s y) (s.k + 2) (0, s.k + 1)

/-- The state at the start of a turn of the do-while loop. -/
structure Try where
  s : Stone
  j : Nat
  y : Nat
  oldc : Nat
  oldl : Nat

/-- The test of the do-while loop. -/
def tryNext (b : Nat → Int) (t : Try) : Turn Try Stone :=
  if b (t.j + 1) > 0 then
    .more { t with
      j := t.j + 1
      y := (b (t.j + 1)).toNat }
  else .done t.s

def tryTurn (b : Nat → Int) (i : Nat) (t : Try) : Option (Turn Try Stone) :=
  if t.y ≤ (t.s.cand t.oldc).y then some (tryNext b t)
  else do
    let l ← search t.s t.y
    let oldc := if l ≠ t.oldl + 1 then t.s.c (l - 1) else t.oldc
    if l ≤ t.s.k then
      if (t.s.cand (t.s.c l)).y ≤ t.y then some (tryNext b { t with oldc := oldc })
      else
        some (tryNext b { t with
          s := newcand t.s l ⟨i, t.y, oldc⟩
          oldc := t.s.c l
          oldl := l })
    else some (.done { newcand t.s l ⟨i, t.y, oldc⟩ with k := t.s.k + 1 })

/-- A line of the first file; `m` is the number of members. -/
def stoneLine (a b : Nat → Int) (m : Nat) (s : Stone) (i : Nat) : Option Stone :=
  let j := (a i).toNat
  if j = 0 then some s
  else loop (tryTurn b i) (m + 2) ⟨s, j, (-b j).toNat, s.c 0, 0⟩

def stone (a : Nat → Int) (n : Nat) (b : Nat → Int) (m : Nat) : Option Stone :=
  (List.range' 1 n).foldlM (stoneLine a b m)
    { clist := [⟨0, 0, 0⟩]
      c := fun _ => 0
      k := 0 }

def unravel (s : Stone) (p pref suff len₀ len₁ : Nat) : Option (Nat → Nat) := do
  let J := fun i => if i ≤ pref then i else if i > len₀ - suff then i + len₁ - len₀ else 0
  let t ← whileLoop (fun t => decide ((s.cand t.1).y ≠ 0))
    (fun t => some ((s.cand t.1).pred,
      update t.2 ((s.cand t.1).x + pref) ((s.cand t.1).y + pref))) (s.clist.length + 1) (p, J)
  return t.2

/-! ## `check` -/

def skiplineTurn (s : Int16 × List UInt8) :
    Option (Turn (Int16 × List UInt8) (Int16 × List UInt8)) :=
  let (c, f) := getc s.2
  some (if c = 10 then .done (s.1, f) else .more (s.1 + 1, f))

def skipline (f : List UInt8) : Option (Int16 × List UInt8) :=
  loop skiplineTurn (f.length + 1) (1, f)

/-- Two streams in step, with the counts of what was read from each. -/
structure Pair where
  ctold : Int
  ctnew : Int
  in₀ : List UInt8
  in₁ : List UInt8

/-- A loop over spaces with `-b`: the character that ends it, the count and the stream. -/
def spaces (isspace : Int8 → Bool) (c : Int8) (ct : Int) (f : List UInt8) :
    Option (Int8 × Int × List UInt8) :=
  loop (fun s : Int8 × Int × List UInt8 =>
    if s.1 = 10 then some (.done s)
    else
      let (c, f) := getch s.2.2
      some (if isspace c then .more (c, s.2.1 + 1, f) else .done (c, s.2.1 + 1, f)))
    (f.length + 2) (c, ct, f)

/-- A turn of the loop over the characters of two lines; the result says whether they are equal. -/
def sameTurn (bflag : Bool) (isspace : Int8 → Bool) (p : Pair) :
    Option (Turn Pair (Bool × Pair)) := do
  let (c, in₀) := getch p.in₀
  let (d, in₁) := getch p.in₁
  let p : Pair := ⟨p.ctold + 1, p.ctnew + 1, in₀, in₁⟩
  let (c, d, p) ← if bflag && isspace c && isspace d then do
      let (c, ctold, in₀) ← spaces isspace c p.ctold p.in₀
      let (d, ctnew, in₁) ← spaces isspace d p.ctnew p.in₁
      pure (c, d, ⟨ctold, ctnew, in₀, in₁⟩)
    else pure (c, d, p)
  if c ≠ d then
    let p ← if c ≠ 10 then do
        let (i, in₀) ← skipline p.in₀
        pure { p with
          ctold := p.ctold + i.toInt
          in₀ := in₀ }
      else pure p
    let p ← if d ≠ 10 then do
        let (i, in₁) ← skipline p.in₁
        pure { p with
          ctnew := p.ctnew + i.toInt
          in₁ := in₁ }
      else pure p
    some (.done (false, p))
  else if c = 10 then some (.done (true, p))
  else some (.more p)

def sameLine (bflag : Bool) (isspace : Int8 → Bool) (p : Pair) : Option (Bool × Pair) :=
  loop (sameTurn bflag isspace) (p.in₀.length + p.in₁.length + 1) p

/-- The variables of `check`. -/
structure Check where
  J : Nat → Nat
  j : Nat
  ixold : Nat → Int
  ixnew : Nat → Int
  p : Pair

/-- `ixnew[j] = ctnew += skipline(1); j++`. -/
def skipNew (s : Check) : Option Check := do
  let (n, in₁) ← skipline s.p.in₁
  let ctnew := s.p.ctnew + n.toInt
  return { s with
    j := s.j + 1
    ixnew := update s.ixnew s.j ctnew
    p := { s.p with
      ctnew := ctnew
      in₁ := in₁ } }

/-- Line `i` of the first file. -/
def checkLine (bflag : Bool) (isspace : Int8 → Bool) (len₁ : Nat) (s : Check) (i : Nat) :
    Option Check :=
  if s.J i = 0 then do
    let (n, in₀) ← skipline s.p.in₀
    let ctold := s.p.ctold + n.toInt
    return { s with
      ixold := update s.ixold i ctold
      p := { s.p with
        ctold := ctold
        in₀ := in₀ } }
  else do
    let s ← whileLoop (fun s => decide (s.j < s.J i)) skipNew (len₁ + 1) s
    let (same, p) ← sameLine bflag isspace s.p
    return { J := if same then s.J else update s.J i 0
             j := s.j + 1
             ixold := update s.ixold i p.ctold
             ixnew := update s.ixnew s.j p.ctnew
             p := p }

def check (bflag : Bool) (isspace : Int8 → Bool) (J : Nat → Nat) (len₀ len₁ : Nat)
    (f₀ f₁ : List UInt8) : Option Check := do
  let s ← (List.range' 1 len₀).foldlM (checkLine bflag isspace len₁)
    ⟨J, 1, fun _ => 0, fun _ => 0, ⟨0, 0, f₀, f₁⟩⟩
  whileLoop (fun s => decide (s.j ≤ len₁)) skipNew (len₁ + 1) s

/-! ## The program up to `output` -/

structure Found where
  len₀ : Nat
  len₁ : Nat
  J : Nat → Nat
  ixold : Nat → Int
  ixnew : Nat → Int

def run (bflag : Bool) (isspace : Int8 → Bool) (f₀ f₁ : List UInt8) : Option Found := do
  let v₀ ← prepare bflag f₀
  let v₁ ← prepare bflag f₁
  let len₀ := v₀.length
  let len₁ := v₁.length
  let pref ← pref (file v₀) (file v₁) len₀ len₁
  let suff ← suff (file v₀) (file v₁) len₀ len₁ pref
  let slen₀ := len₀ - pref - suff
  let slen₁ := len₁ - pref - suff
  let s₀ ← sort (sfile (file v₀) pref slen₀) slen₀
  let s₁ ← sort (sfile (file v₁) pref slen₁) slen₁
  let s₀ ← mate s₀ slen₀ s₁ slen₁
  let member ← members s₁ slen₁
  let cls ← unsort s₀ slen₀
  let s ← stone cls slen₀ member slen₁
  let J ← unravel s (s.c s.k) pref suff len₀ len₁
  let s ← check bflag isspace J len₀ len₁ f₀ f₁
  return ⟨len₀, len₁, s.J, s.ixold, s.ixnew⟩

/-! ## `output` -/

/-- `J` and `i0` of `output`, and the calls of `change` so far. -/
structure Output where
  J : Nat → Nat
  i0 : Nat
  calls : List Hunk

def forwardBody (m : Nat) (s : Output) : Option Output := do
  let i0 ← whileLoop (fun i => decide (i ≤ m) && decide (s.J i = s.J (i - 1) + 1))
    (fun i => some (i + 1)) (m + 2) s.i0
  let j0 := s.J (i0 - 1) + 1
  let i1 ← whileLoop (fun i => decide (i < m) && decide (s.J (i + 1) = 0))
    (fun i => some (i + 1)) (m + 2) (i0 - 1)
  let j1 := s.J (i1 + 1) - 1
  return { J := update s.J i1 j1
           i0 := i1 + 1
           calls := s.calls ++ [⟨i0, i1, j0, j1⟩] }

def backwardBody (m : Nat) (s : Output) : Option Output := do
  let i0 ← whileLoop
    (fun i => decide (1 ≤ i) && decide (s.J i = s.J (i + 1) - 1) && decide (s.J i ≠ 0))
    (fun i => some (i - 1)) (m + 2) s.i0
  let j0 := s.J (i0 + 1) - 1
  let i1 ← whileLoop (fun i => decide (1 < i) && decide (s.J (i - 1) = 0))
    (fun i => some (i - 1)) (m + 2) (i0 + 1)
  let j1 := s.J (i1 - 1) + 1
  return { J := update s.J i1 j1
           i0 := i1 - 1
           calls := s.calls ++ [⟨i1, i0, j1, j0⟩] }

/-- `opt`. -/
inductive Opt where
  | e
  | normal
  | f
  deriving DecidableEq

/-- The calls of `change`, in order. -/
def calls (opt : Opt) (r : Found) : Option (List Hunk) := do
  let m := r.len₀
  let J := update (update r.J 0 0) (m + 1) (r.len₁ + 1)
  let s ← if opt ≠ .e then
      whileLoop (fun s => decide (s.i0 ≤ m)) (forwardBody m) (2 * m + 4) ⟨J, 1, []⟩
    else whileLoop (fun s => decide (1 ≤ s.i0)) (backwardBody m) (2 * m + 4) ⟨J, m, []⟩
  return if m = 0 then s.calls ++ [⟨1, 0, 1, r.len₁⟩] else s.calls

/-- `printf("%d", n)`. -/
def printd (n : Nat) : List UInt8 := (numeral 10 n).map fun d => UInt8.ofNat (48 + d)

def range (a b : Nat) (separator : List UInt8) : List UInt8 :=
  printd (if a > b then b else a) ++ if a < b then separator ++ printd b else []

/-- `fseek` from the start; a read before it fails. -/
def seek (lb : List UInt8) (n : Int) : List UInt8 := if n < 0 then [] else lb.drop n.toNat

/-- `n` characters; `EOF` is put as a byte. -/
def copy : Nat → List UInt8 → List UInt8
  | 0, _ => []
  | n + 1, [] => 255 :: copy n []
  | n + 1, c :: lb => c :: copy n lb

def fetch (f : Nat → Int) (a b : Nat) (lb s : List UInt8) : List UInt8 :=
  (List.range' a (b + 1 - a)).flatMap fun i =>
    let nc := Int16.ofInt (f i - f (i - 1))
    s ++ copy nc.toInt.toNat (seek lb (f (i - 1)))

/-- `a`, `d` or `c`. -/
def letter (h : Hunk) : UInt8 := if h.a > h.b then 97 else if h.c > h.d then 100 else 99

/-- The text of a call of `change`. -/
def change (opt : Opt) (r : Found) (f₀ f₁ : List UInt8) (h : Hunk) : List UInt8 :=
  if h.a > h.b ∧ h.c > h.d then []
  else
    (if opt ≠ .f then
        range h.a h.b [44] ++ [letter h] ++ if opt ≠ .e then range h.c h.d [44] else []
      else [letter h] ++ range h.a h.b [32]) ++ [10] ++
    (if opt = .normal then
        -- `< ` before each old line, and `---` between old and new lines
        fetch r.ixold h.a h.b f₀ [60, 32] ++
          if h.a ≤ h.b ∧ h.c ≤ h.d then [45, 45, 45, 10] else []
      else []) ++
    fetch r.ixnew h.c h.d f₁ (if opt = .normal then [62, 32] else []) ++
    if opt ≠ .normal ∧ h.c ≤ h.d then [46, 10] else []

def output (opt : Opt) (r : Found) (f₀ f₁ : List UInt8) : Option (List UInt8) := do
  let hs ← calls opt r
  return hs.flatMap (change opt r f₀ f₁)

/-- The whole program. -/
def diff (bflag : Bool) (isspace : Int8 → Bool) (opt : Opt) (f₀ f₁ : List UInt8) :
    Option (List UInt8) := do
  let r ← run bflag isspace f₀ f₁
  output opt r f₀ f₁

end Venix.Diff
