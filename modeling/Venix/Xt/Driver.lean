/-
  The winchester driver (`dev/at.c`): the range check of `xtstrategy`, and the transfers that
  `xtstart` and `xtintr` make of one request.

  Machine words have 16 bits. A physical address has 20. A transfer is what the DMA controller and
  the command packet are set to; where it goes through the bounce buffer, the address of the user's
  memory on the other side is kept beside it.
-/
import Mathlib.Tactic

namespace Venix.Xt

def NUNIT : Nat := 8

def u16 (n : Nat) : Nat := n % 65536

def i16 (n : Int) : Int := (n + 32768) % 65536 - 32768

/-- An entry of `xt_sizes`. -/
structure Part where
  nblock : Nat
  oblock : Nat

/-- An entry of `xd_parm`. -/
structure Xd where
  sechd : Nat
  nhead : Nat
  cntf : Nat
  maxfer : Nat

/-- The tables, the kernel's data segment, and the address in it of the bounce buffer. -/
structure Env where
  sizes : Nat → Nat → Part
  parm : Nat → Xd
  ndrv : Nat
  ds : Nat
  bounce : Nat

/-- The header of a request. -/
structure Buf where
  minor : Nat
  read : Bool
  phys : Bool
  addr : Nat
  xmem : Nat
  wcount : Int
  blkno : Nat

def Buf.drive (b : Buf) : Nat := b.minor / NUNIT

def Buf.unit (b : Buf) : Nat := b.minor % NUNIT

def Env.part (e : Env) (b : Buf) : Part := e.sizes b.drive b.unit

def Env.xd (e : Env) (b : Buf) : Xd := e.parm b.drive

/-! ## `xtstrategy` -/

/-- `bp->b_blkno + ((255 - bp->b_wcount) >> 8)`. -/
def lastBlock (b : Buf) : Nat := ((b.blkno + i16 (255 - b.wcount) / 256) % 65536).toNat

/-- The request passes. -/
def InRange (e : Env) (b : Buf) : Prop :=
  ¬(b.unit ≥ NUNIT ∨ b.drive ≥ e.ndrv ∨ lastBlock b > (e.part b).nblock)

/-! ## `xtstart` -/

/-- The registers of the DMA controller and the command packet. -/
structure Transfer where
  read : Bool
  page : Nat
  addr : Nat
  len : Nat
  bcnt : Nat
  block : Nat
  sect : Nat
  head : Nat
  cyln : Nat
  ctrl : Nat

/-- `count` rounded up to blocks. -/
def rounded (w : Int) : Nat := (((-w * 2 + 0x1FF) % 65536).toNat) / 512 * 512

/-- The chunk of a raw request that is moved next: the header, `xtcntrl` and `count`. -/
def chunk (maxfer : Nat) (b : Buf) : Buf × Int × Nat :=
  let count := rounded b.wcount
  if count > maxfer ∨ u16 (b.addr + count) < count then
    let cut : Nat × Nat :=
      if count > maxfer ∧ u16 (b.addr + count) ≥ count then (maxfer, b.xmem)
      else
        let count := u16 (65536 - b.addr)
        if count % 512 ≠ 0 then (count / 512 * 512, b.xmem) else (count, u16 (b.xmem + 1))
    ({ b with
      addr := u16 (b.addr + cut.1)
      xmem := cut.2
      wcount := i16 (b.wcount + (cut.1 / 2 : Nat)) }, 1, cut.1)
  else (b, 0, count)

/-- The page and the address of kernel memory. -/
def kernelDma (ds addr : Nat) : Nat × Nat :=
  let count := u16 (addr / 16 + ds)
  (count / 4096, u16 (count * 16 + addr % 16))

/-- The transfer of `count` bytes for the block in the header `b`. -/
def transfer (e : Env) (b : Buf) (dma : Nat × Nat) (count : Nat) : Transfer :=
  let block := u16 (b.blkno + (e.part b).oblock)
  let xd := e.xd b
  let track := block / xd.sechd
  let cyln := track / xd.nhead
  { read := b.read
    page := dma.1
    addr := dma.2
    len := u16 (count + 65535) + 1
    bcnt := count / 512 % 256
    block
    sect := block % xd.sechd % 256 ||| (cyln / 4 &&& 0xC0)
    head := (track % xd.nhead ||| b.drive * 32) % 256
    cyln := cyln % 256
    ctrl := xd.cntf }

/-- The physical address of the user's side of the bounce buffer. -/
def userCopy (b : Buf) : Nat :=
  (u16 (u16 (b.xmem * 4096) + 32) * 16 + u16 (b.addr + 65536 - 512)) % 2 ^ 20

/-- What `xtstart` leaves: the header, `xtcntrl`, the transfer and what it has copied. -/
structure Started where
  b : Buf
  cntrl : Int
  t : Transfer
  copied : Option Nat

def xtstart (e : Env) (b : Buf) : Started :=
  if b.phys then
    if b.addr > 0xFE00 then
      { b
        cntrl := -1
        t := transfer e b (kernelDma e.ds e.bounce) 512
        copied := if b.read then none else some (userCopy b) }
    else
      let r := chunk (e.xd b).maxfer b
      { b := r.1
        cntrl := r.2.1
        t := transfer e b (b.xmem, b.addr) r.2.2
        copied := none }
  else
    { b
      cntrl := 0
      t := transfer e b (kernelDma e.ds b.addr) 512
      copied := none }

/-! ## `xtintr` -/

/-- How a transfer ends: well, with an error number, or not begun. -/
inductive Outcome where
  | done
  | sense (j : Nat)
  | timeout

/-- The transfer counts as done. -/
def Outcome.good : Outcome → Bool
  | .done => true
  | .sense j => j = 0x18
  | .timeout => false

/-- `xtintr` after a good transfer: the header, if the request goes on, and what it has copied. -/
def xtintr (s : Started) : Option Buf × Option Nat :=
  if s.cntrl ≠ 0 then
    let copied := if s.cntrl < 0 ∧ s.b.read then some (userCopy s.b) else none
    let b : Buf := if s.cntrl < 0 then
        { s.b with
          addr := u16 (s.b.addr + 512)
          xmem := u16 (s.b.xmem + 1)
          wcount := i16 (s.b.wcount + 256) }
      else s.b
    (if b.wcount ≥ 0 then none else some { b with blkno := u16 (b.blkno + s.t.bcnt) }, copied)
  else (none, none)

/-- A transfer, and the user's address where it is bounced. -/
structure Event where
  t : Transfer
  user : Option Nat

/-- The transfers of a request whose transfers end with `outs`, and whether it has finished. -/
def run (e : Env) : List Outcome → Buf → List Event × Bool
  | [], _ => ([], false)
  | o :: outs, b =>
    let s := xtstart e b
    if o.good then
      let r := xtintr s
      let ev : Event := ⟨s.t, s.copied <|> r.2⟩
      match r.1 with
      | none => ([ev], true)
      | some b => (ev :: (run e outs b).1, (run e outs b).2)
    else ([⟨s.t, s.copied⟩], true)

/-! ## What a transfer moves -/

/-- The number of blocks: a command for 0 blocks goes on until the DMA controller ends it. -/
def Transfer.blocks (t : Transfer) : Nat := if t.bcnt = 0 then t.len / 512 else t.bcnt

/-- The memory of a block. The DMA controller stays in its page. -/
def Event.mem (ev : Event) (i : Nat) : Nat :=
  match ev.user with
  | some p => (p + 512 * i) % 2 ^ 20
  | none => (ev.t.page * 65536 + (ev.t.addr + 512 * i) % 65536) % 2 ^ 20

/-- Memory and disk, block by block. -/
def Event.moves (ev : Event) : List (Nat × Nat) :=
  (List.range ev.t.blocks).map fun i => (ev.mem i, (ev.t.block + i) % 65536)

/-- The DMA controller leaves its page. -/
def Transfer.Crosses (t : Transfer) : Prop := t.addr + t.len > 65536

end Venix.Xt
