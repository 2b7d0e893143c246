/-
Raw flash partitions: the block reader and writer of `mtdutils`.

A partition is read and written in whole erase blocks.  The writer skips
blocks that are marked bad and blocks it cannot verify; the reader decides on
its own which blocks to skip.  The programs issue the device's system calls;
`Flash` gives each block its faults, and `handler` answers the calls.
-/
import MetaOS.ByteString
import MetaOS.ProgramLogic

namespace MetaOS

namespace Mtd

/-- `struct MtdPartition`, with a block size the kernel can report. -/
structure Partition where
  size : Nat
  eraseSize : Nat
  eraseSize_pos : 0 < eraseSize

/-- `(int) partition->size`.  From 2 GiB on it is negative, and no block lies
below it. -/
def Partition.limit (part : Partition) : Nat :=
  if part.size < 2 ^ 31 then part.size else 0

theorem Partition.limit_le (part : Partition) : part.limit ≤ part.size := by
  rw [Partition.limit]
  split
  · exact le_rfl
  · exact Nat.zero_le _

/-- How often the guard `pos + size <= (int) partition->size` still holds
when `pos` moves on by one block at a time. -/
def Partition.blocksFrom (part : Partition) (pos : Nat) : Nat :=
  (part.limit - pos) / part.eraseSize

theorem Partition.blocksFrom_mul_le (part : Partition) {pos : Nat}
    (hsome : part.blocksFrom pos ≠ 0) :
    pos + part.blocksFrom pos * part.eraseSize ≤ part.limit := by
  have hle : part.blocksFrom pos * part.eraseSize ≤ part.limit - pos :=
    Nat.div_mul_le_self _ _
  have hpos : pos ≤ part.limit := by
    by_contra hbeyond
    apply hsome
    rw [Partition.blocksFrom, Nat.sub_eq_zero_of_le (by omega), Nat.zero_div]
  omega

theorem Partition.blocksFrom_succ (part : Partition) {pos : Nat}
    (hroom : pos + part.eraseSize ≤ part.limit) :
    part.blocksFrom pos = part.blocksFrom (pos + part.eraseSize) + 1 := by
  unfold Partition.blocksFrom
  rw [Nat.div_eq_sub_div part.eraseSize_pos (by omega), Nat.sub_sub]

inductive Call where
  | openDevice
  | lseekCur
  | lseekSet (pos : Nat)
  | read (len : Nat)
  | write (data : Bytes)
  | getBadBlock (pos : Nat)
  | erase (start len : Nat)
  | eccGetStats
  | close

/-- What the code looks at in each answer: whether the call did what it was
asked to, the bytes of a full read, the number of failed corrections. -/
abbrev Answer : Call → Type
  | .openDevice => Bool
  | .lseekCur => Option Nat
  | .lseekSet _ => Bool
  | .read _ => Option Bytes
  | .write _ => Bool
  | .getBadBlock _ => Int
  | .erase _ _ => Bool
  | .eccGetStats => Option Nat
  | .close => Bool

abbrev MtdProg := Prog Call Answer

def openDevice : MtdProg Bool := Prog.perform Call.openDevice

def lseekCur : MtdProg (Option Nat) := Prog.perform Call.lseekCur

def lseekSet (pos : Nat) : MtdProg Bool := Prog.perform (Call.lseekSet pos)

def readCall (len : Nat) : MtdProg (Option Bytes) :=
  Prog.perform (Call.read len)

def writeCall (data : Bytes) : MtdProg Bool := Prog.perform (Call.write data)

def memGetBadBlock (pos : Nat) : MtdProg Int :=
  Prog.perform (Call.getBadBlock pos)

def memErase (start len : Nat) : MtdProg Bool :=
  Prog.perform (Call.erase start len)

def eccGetStats : MtdProg (Option Nat) := Prog.perform Call.eccGetStats

def closeDevice : MtdProg Bool := Prog.perform Call.close

section Reader

variable (part : Partition)

/-- The loop of `read_block`.  `before` is the count of failed corrections
when the call started. -/
def readBlockLoop (before : Nat) :
    (blocks pos : Nat) → MtdProg (Option Bytes)
  | 0, _ => pure none
  | blocks + 1, pos => do
      if ← lseekSet pos then
        match ← readCall part.eraseSize with
        | none => readBlockLoop before blocks (pos + part.eraseSize)
        | some data =>
            match ← eccGetStats with
            | none => pure none
            | some after =>
                if after ≠ before then
                  readBlockLoop before blocks (pos + part.eraseSize)
                else if (← memGetBadBlock pos) ≠ 0 then
                  readBlockLoop before blocks (pos + part.eraseSize)
                else if data.any (· != 0) then pure (some data)
                else readBlockLoop before blocks (pos + part.eraseSize)
      else readBlockLoop before blocks (pos + part.eraseSize)

/-- A failing `lseek` for the position, which an open device does not give,
ends the call here; the C code takes its -1 for the position and goes on. -/
def readBlock : MtdProg (Option Bytes) := do
  match ← eccGetStats with
  | none => pure none
  | some before =>
      match ← lseekCur with
      | none => pure none
      | some pos => readBlockLoop part before (part.blocksFrom pos) pos

/-- `struct MtdReadContext`. -/
structure ReadContext where
  buffer : Bytes
  consumed : Nat

/-- `mtd_read_partition`. -/
def mtdReadPartition : MtdProg (Option ReadContext) := do
  if ← openDevice then
    pure (some ⟨List.replicate part.eraseSize 0, part.eraseSize⟩)
  else pure none

/-- Complete blocks go directly into the user's buffer. -/
def readDirect : (blocks : Nat) → MtdProg (Option Bytes)
  | 0 => pure (some [])
  | blocks + 1 => do
      match ← readBlock part with
      | none => pure none
      | some data =>
          match ← readDirect blocks with
          | none => pure none
          | some rest => pure (some (data ++ rest))

/-- The loop of `mtd_read_data`; `want` bytes are still missing.  Every pass
but the first takes bytes from the buffer. -/
def readLoop : (fuel want : Nat) → ReadContext →
    MtdProg (Option Bytes × ReadContext)
  | 0, _, ctx => pure (none, ctx)
  | fuel + 1, want, ctx => do
      if want = 0 then pure (some [], ctx)
      else
        let copy := min want (part.eraseSize - ctx.consumed)
        let copied := ctx.buffer.window ctx.consumed copy
        let ctx := { ctx with consumed := ctx.consumed + copy }
        let want := want - copy
        let blocks :=
          if ctx.consumed = part.eraseSize then want / part.eraseSize else 0
        match ← readDirect part blocks with
        | none => pure (none, ctx)
        | some direct =>
            let want := want - blocks * part.eraseSize
            if want = 0 then pure (some (copied ++ direct), ctx)
            else
              match ← readBlock part with
              | none => pure (none, ctx)
              | some buffer =>
                  let (rest, ctx) ← readLoop fuel want ⟨buffer, 0⟩
                  pure (rest.map (copied ++ direct ++ ·), ctx)

/-- `(int) len` is negative from 2 GiB on, and the loop is not entered. -/
def mtdReadData (ctx : ReadContext) (len : Nat) :
    MtdProg (Option Bytes × ReadContext) :=
  if len < 2 ^ 31 then readLoop part (len + 1) len ctx
  else pure (some [], ctx)

end Reader

section Writer

variable (part : Partition)

/-- `struct MtdWriteContext`: the `stored` bytes of the buffer, and the
blocks passed over. -/
structure WriteContext where
  pending : Bytes
  badBlockOffsets : List Nat
deriving DecidableEq

/-- `mtd_write_partition`. -/
def mtdWritePartition : MtdProg (Option WriteContext) := do
  if ← openDevice then pure (some ⟨[], []⟩) else pure none

def addBadBlockOffset (ctx : WriteContext) (pos : Nat) : WriteContext :=
  { ctx with badBlockOffsets := ctx.badBlockOffsets ++ [pos] }

/-- The retry loop on one block.  A write error is only reported: the
verification decides. -/
def writeAttempts (pos : Nat) (data : Bytes) : (retries : Nat) → MtdProg Bool
  | 0 => pure false
  | retries + 1 => do
      if ← memErase pos part.eraseSize then
        if ← lseekSet pos then
          let _ ← writeCall data
        if ← lseekSet pos then
          match ← readCall part.eraseSize with
          | none => writeAttempts pos data retries
          | some verify =>
              if verify = data then pure true
              else writeAttempts pos data retries
        else writeAttempts pos data retries
      else writeAttempts pos data retries

/-- The loop of `write_block`. -/
def writeBlockLoop (data : Bytes) :
    (blocks pos : Nat) → WriteContext → MtdProg (Bool × WriteContext)
  | 0, _, ctx => pure (false, ctx)
  | blocks + 1, pos, ctx => do
      if (← memGetBadBlock pos) > 0 then
        writeBlockLoop data blocks (pos + part.eraseSize)
          (addBadBlockOffset ctx pos)
      else if ← writeAttempts part pos data 2 then pure (true, ctx)
      else
        let _ ← memErase pos part.eraseSize
        writeBlockLoop data blocks (pos + part.eraseSize)
          (addBadBlockOffset ctx pos)

def writeBlock (ctx : WriteContext) (data : Bytes) :
    MtdProg (Bool × WriteContext) := do
  match ← lseekCur with
  | none => pure (false, ctx)
  | some pos => writeBlockLoop part data (part.blocksFrom pos) pos ctx

/-- Complete blocks are written directly from the user's buffer. -/
def writeDirect : (blocks : Nat) → WriteContext → Bytes →
    MtdProg (Bool × WriteContext × Bytes)
  | 0, ctx, data => pure (true, ctx, data)
  | blocks + 1, ctx, data => do
      let (ok, ctx) ← writeBlock part ctx (data.take part.eraseSize)
      if ok then writeDirect blocks ctx (data.drop part.eraseSize)
      else pure (false, ctx, data)

/-- A complete block was accumulated. -/
def writePending (ctx : WriteContext) : MtdProg (Bool × WriteContext) := do
  if ctx.pending.length = part.eraseSize then
    let (ok, ctx) ← writeBlock part ctx ctx.pending
    pure (ok, if ok then { ctx with pending := [] } else ctx)
  else pure (true, ctx)

/-- One pass of the loop of `mtd_write_data`; `data` is not yet taken over. -/
def writePass (ctx : WriteContext) (data : Bytes) :
    MtdProg (Bool × WriteContext × Bytes) := do
  let copy :=
    if ctx.pending ≠ [] ∨ data.length < part.eraseSize then
      min data.length (part.eraseSize - ctx.pending.length)
    else 0
  let (ok, ctx) ← writePending part
    { ctx with pending := ctx.pending ++ data.take copy }
  let data := data.drop copy
  if ok then
    let blocks := if ctx.pending = [] then data.length / part.eraseSize else 0
    writeDirect part blocks ctx data
  else pure (false, ctx, data)

/-- The loop of `mtd_write_data`.  Every pass takes a byte at least. -/
def writeLoop : (fuel : Nat) → WriteContext → Bytes →
    MtdProg (Bool × WriteContext)
  | 0, ctx, _ => pure (true, ctx)
  | fuel + 1, ctx, data => do
      if data = [] then pure (true, ctx)
      else
        let (ok, ctx, data) ← writePass part ctx data
        if ok then writeLoop fuel ctx data else pure (false, ctx)

def mtdWriteData (ctx : WriteContext) (data : Bytes) :
    MtdProg (Bool × WriteContext) :=
  writeLoop part data.length ctx data

/-- Zero-pad and write any pending data. -/
def padPending (ctx : WriteContext) : MtdProg (Bool × WriteContext) := do
  if ctx.pending ≠ [] then
    let (ok, ctx) ← writeBlock part ctx (ctx.pending ++
      List.replicate (part.eraseSize - ctx.pending.length) 0)
    pure (ok, if ok then { ctx with pending := [] } else ctx)
  else pure (true, ctx)

def eraseLoop : (blocks pos : Nat) → MtdProg Nat
  | 0, pos => pure pos
  | blocks + 1, pos => do
      if (← memGetBadBlock pos) > 0 then
        eraseLoop blocks (pos + part.eraseSize)
      else
        let _ ← memErase pos part.eraseSize
        eraseLoop blocks (pos + part.eraseSize)

def mtdEraseBlocks (ctx : WriteContext) (blocks : Int) :
    MtdProg (Option Nat × WriteContext) := do
  let (ok, ctx) ← padPending part ctx
  if ok then
    match ← lseekCur with
    | none => pure (none, ctx)
    | some pos =>
        let total := (part.size - pos) / part.eraseSize
        let blocks := if blocks < 0 then (total : Int) else blocks
        if blocks > total then pure (none, ctx)
        else
          let stop ← eraseLoop part blocks.toNat pos
          pure (some stop, ctx)
  else pure (none, ctx)

def mtdWriteClose (ctx : WriteContext) : MtdProg Bool := do
  let (erased, _) ← mtdEraseBlocks part ctx 0
  let closed ← closeDevice
  pure (erased.isSome && closed)

end Writer

section Sessions

variable (part : Partition)

/-- Successive `mtd_write_data` calls on one context. -/
def writeAll : WriteContext → List Bytes → MtdProg (Bool × WriteContext)
  | ctx, [] => pure (true, ctx)
  | ctx, data :: datas => do
      let (ok, ctx) ← mtdWriteData part ctx data
      if ok then writeAll ctx datas else pure (false, ctx)

/-- A write context from beginning to end: the writes, an erase of all that
follows, and the close.  The result is the context before the close, when
every call succeeded. -/
def writeSession (writes : List Bytes) : MtdProg (Option WriteContext) := do
  match ← mtdWritePartition with
  | none => pure none
  | some ctx =>
      let (ok, ctx) ← writeAll part ctx writes
      if ok then
        let (stop, ctx) ← mtdEraseBlocks part ctx (-1)
        if stop.isSome then
          let closed ← mtdWriteClose part ctx
          pure (if closed then some ctx else none)
        else pure none
      else pure none

/-- Successive `mtd_read_data` calls on one context. -/
def readAll : ReadContext → List Nat → MtdProg (Option (List Bytes))
  | _, [] => pure (some [])
  | ctx, len :: lens => do
      let (data, ctx) ← mtdReadData part ctx len
      match data with
      | none => pure none
      | some data =>
          let rest ← readAll ctx lens
          pure (rest.map (data :: ·))

def readSession (lens : List Nat) : MtdProg (Option (List Bytes)) := do
  match ← mtdReadPartition part with
  | none => pure none
  | some ctx => readAll part ctx lens

/-- The offsets of the blocks that successive `read_block` calls return. -/
def readOffsets : (count : Nat) → MtdProg (Option (List Nat))
  | 0 => pure (some [])
  | count + 1 => do
      match ← readBlock part with
      | none => pure none
      | some _ =>
          match ← lseekCur with
          | none => pure none
          | some pos =>
              let rest ← readOffsets count
              pure (rest.map ((pos - part.eraseSize) :: ·))

end Sessions

end Mtd

end MetaOS
