/-
The bootloader control block in the MISC partition.

The message lives in the second page of the partition.  Setting it is a
read-modify-write of the first three pages through the block-skipping reader
of `mtdutils`, so what a write preserves depends on the block the reader
settled on.
-/
import MetaOS.CString
import MetaOS.MtdRoundTrip

namespace MetaOS

namespace Bootloader

open Mtd

/-- `struct bootloader_message`. -/
structure BootloaderMessage where
  command : Bytes
  status : Bytes
  recovery : Bytes
  command_length : command.length = 32
  status_length : status.length = 32
  recovery_length : recovery.length = 1024
deriving DecidableEq

namespace BootloaderMessage

/-- The structure `memset` leaves behind. -/
def zero : BootloaderMessage where
  command := List.replicate 32 0
  status := List.replicate 32 0
  recovery := List.replicate 1024 0
  command_length := List.length_replicate
  status_length := List.length_replicate
  recovery_length := List.length_replicate

/-- `sizeof(struct bootloader_message)`. -/
def size : Nat := 1088

/-- The structure in memory. -/
def toBytes (message : BootloaderMessage) : Bytes :=
  message.command ++ message.status ++ message.recovery

@[simp] theorem toBytes_length (message : BootloaderMessage) :
    message.toBytes.length = size := by
  simp [toBytes, size, message.command_length, message.status_length,
    message.recovery_length]

def ofBytes (data : Bytes) : Option BootloaderMessage :=
  if hlength : data.length = size then
    some
      { command := data.take 32
        status := (data.drop 32).take 32
        recovery := data.drop 64
        command_length := by
          rw [List.length_take, hlength]
          rfl
        status_length := by
          rw [List.length_take, List.length_drop, hlength]
          rfl
        recovery_length := by
          rw [List.length_drop, hlength]
          rfl }
  else none

@[simp] theorem ofBytes_toBytes (message : BootloaderMessage) :
    ofBytes message.toBytes = some message := by
  obtain ⟨command, status, recovery, hcommand, hstatus, hrecovery⟩ := message
  have hlength := toBytes_length
    ⟨command, status, recovery, hcommand, hstatus, hrecovery⟩
  rw [ofBytes, dif_pos hlength, Option.some.injEq,
    BootloaderMessage.mk.injEq]
  simp only [toBytes]
  refine ⟨?_, ?_, ?_⟩
  · rw [List.append_assoc, ← hcommand, List.take_left]
  · rw [List.append_assoc, ← hcommand, List.drop_left, hcommand, ← hstatus,
      List.take_left]
  · rw [List.drop_left']
    rw [List.length_append, hcommand, hstatus]

end BootloaderMessage

/-- Number of pages to save. -/
def miscPages : Nat := 3

/-- The bootloader command is this page. -/
def miscCommandPage : Nat := 1

/-- `memcpy` into an array; a copy that leaves it has no defined result. -/
def overlay (data : Bytes) (off : Nat) (text : Bytes) : Option Bytes :=
  if off + text.length ≤ data.length then
    some (data.take off ++ text ++ data.drop (off + text.length))
  else none

/-- The pages of MISC, through a read context of their own. -/
def readPages (part : Partition) (writeSize : Nat) :
    MtdProg (Option Bytes) := do
  match ← mtdReadPartition part with
  | none => pure none
  | some ctx =>
      let (data, _) ← mtdReadData part ctx (writeSize * miscPages)
      let _ ← closeDevice
      pure (data.filter (·.length = writeSize * miscPages))

/-- `get_bootloader_message`.  `misc` is the partition and its page size, or
nothing when it cannot be found. -/
def getBootloaderMessage (misc : Option (Partition × Nat)) :
    MtdProg (Option BootloaderMessage) := do
  match misc with
  | none => pure none
  | some (part, writeSize) =>
      match ← readPages part writeSize with
      | none => pure none
      | some data =>
          pure (BootloaderMessage.ofBytes
            (data.window (writeSize * miscCommandPage)
              BootloaderMessage.size))

/-- `set_bootloader_message`. -/
def setBootloaderMessage (misc : Option (Partition × Nat))
    (message : BootloaderMessage) : MtdProg Bool := do
  match misc with
  | none => pure false
  | some (part, writeSize) =>
      match ← readPages part writeSize with
      | none => pure false
      | some data =>
          match overlay data (writeSize * miscCommandPage)
              message.toBytes with
          | none => pure false
          | some data =>
              match ← mtdWritePartition with
              | none => pure false
              | some ctx =>
                  let (ok, ctx) ← mtdWriteData part ctx data
                  let closed ← mtdWriteClose part ctx
                  pure (ok && closed)

inductive Op where
  | set (message : BootloaderMessage)
  | get

/-- A successful call and what it returned. -/
inductive Event where
  | set (message : BootloaderMessage)
  | got (message : BootloaderMessage)

def runOp (misc : Option (Partition × Nat)) : Op → MtdProg (Option Event)
  | .set message => do
      let ok ← setBootloaderMessage misc message
      pure (if ok then some (.set message) else none)
  | .get => do
      let message ← getBootloaderMessage misc
      pure (message.map .got)

/-- A sequence of calls; nothing is returned when one of them fails. -/
def runOps (misc : Option (Partition × Nat)) :
    List Op → MtdProg (Option (List Event))
  | [] => pure (some [])
  | op :: ops => do
      match ← runOp misc op with
      | none => pure none
      | some event =>
          let events ← runOps misc ops
          pure (events.map (event :: ·))

/-- Each get returns the message of the latest preceding set. -/
def Register : (latest : Option BootloaderMessage) → List Event → Prop
  | _, [] => True
  | _, .set message :: events => Register (some message) events
  | latest, .got message :: events =>
      (∀ expected ∈ latest, message = expected) ∧ Register latest events

/-- The content of consecutive blocks, as it is on flash. -/
def rawBlocks (part : Partition) (dev : Device) :
    (count pos : Nat) → List Bytes
  | 0, _ => []
  | count + 1, pos =>
      (dev.block pos).content :: rawBlocks part dev count
        (pos + part.eraseSize)

/-- How many blocks the saved pages take. -/
def pageBlocks (part : Partition) (writeSize : Nat) : Nat :=
  (writeSize * miscPages + part.eraseSize - 1) / part.eraseSize

/-- A page of MISC, as it is on flash. -/
def page (part : Partition) (writeSize : Nat) (dev : Device) (i : Nat) :
    Bytes :=
  Bytes.window (rawBlocks part dev (pageBlocks part writeSize) 0).flatten
    (writeSize * i) writeSize

/-- No block is all zero. -/
def NoZeroBlock (datas : List Bytes) : Prop :=
  ∀ data ∈ datas, data.any (· != 0) = true

/-- The condition on the state before the calls and on the messages: the
message fits in its page, no block of the saved pages is all zero, and none
becomes all zero with one of the messages in place. -/
structure Retains (part : Partition) (writeSize : Nat) (dev : Device)
    (ops : List Op) : Prop where
  fits : BootloaderMessage.size ≤ writeSize
  before : NoZeroBlock (rawBlocks part dev (pageBlocks part writeSize) 0)
  after : ∀ message data, Op.set message ∈ ops →
    overlay ((rawBlocks part dev (pageBlocks part writeSize) 0).flatten.take
      (writeSize * miscPages)) (writeSize * miscCommandPage)
      message.toBytes = some data →
    NoZeroBlock (toBlocks part data)

section FaultFree

variable {part : Partition}

theorem rawBlocks_length (dev : Device) (count pos : Nat) :
    (rawBlocks part dev count pos).length = count := by
  induction count generalizing pos with
  | zero => rfl
  | succ count ih => rw [rawBlocks, List.length_cons, ih]

theorem rawBlocks_congr {dev dev' : Device} {count pos : Nat}
    (hsame : ∀ q, pos ≤ q → q < pos + count * part.eraseSize →
      (dev'.block q).content = (dev.block q).content) :
    rawBlocks part dev' count pos = rawBlocks part dev count pos := by
  have hsize := part.eraseSize_pos
  induction count generalizing pos with
  | zero => rfl
  | succ count ih =>
      rw [Nat.succ_mul] at hsame
      rw [rawBlocks, rawBlocks, hsame pos le_rfl (by omega), ih]
      intro q hle hlt
      exact hsame q (by omega) (by omega)

/-- Without faults the reader returns every block that is not all zero. -/
theorem ahead_rawBlocks {dev : Device} {count pos : Nat}
    (hroom : pos + count * part.eraseSize ≤ part.limit)
    (hshape : ∀ data ∈ rawBlocks part dev count pos,
      data.length = part.eraseSize)
    (hnonzero : NoZeroBlock (rawBlocks part dev count pos)) :
    (goodBlocks (Flash.faultFree part) dev.block count pos).map
      (List.map Prod.snd) = some (rawBlocks part dev count pos) := by
  induction count generalizing pos with
  | zero => rfl
  | succ count ih =>
      rw [Nat.succ_mul] at hroom
      rw [rawBlocks] at hshape hnonzero ⊢
      have hlength := hshape _ List.mem_cons_self
      have hsome := hnonzero _ List.mem_cons_self
      have htakes : (Flash.faultFree part).takes pos (dev.block pos) =
          some (dev.block pos).content := by
        simp only [Flash.takes, Flash.faultFree, hlength, if_true]
        exact if_pos ⟨trivial, hsome⟩
      have hrest := ih (by omega)
        (fun data hmem => hshape data (List.mem_cons_of_mem _ hmem))
        fun data hmem => hnonzero data (List.mem_cons_of_mem _ hmem)
      obtain ⟨found, hfound, hdatas⟩ := Option.map_eq_some_iff.mp hrest
      rw [goodBlocks_take _ (by omega) rfl htakes, hfound, Option.map_some,
        Option.map_some, List.map_cons, hdatas]

/-- Without faults the writer uses consecutive blocks. -/
theorem written_rawBlocks {before : Nat → Block} {dev : Device}
    {pos stop : Nat} {datas : List Bytes} {bad used : List Nat}
    (hdatas : ∀ data ∈ datas, data.length = part.eraseSize)
    (hwritten : Written (Flash.faultFree part) before dev.block pos datas bad
      used stop) :
    rawBlocks part dev datas.length pos = datas ∧
      stop = pos + datas.length * part.eraseSize := by
  induction hwritten with
  | done => exact ⟨rfl, by simp⟩
  | marked _ hmark => exact absurd hmark (by simp [Flash.faultFree])
  | @givenUp pos _ _ _ _ _ _ _ hfail =>
      have hok := put_faultFree pos (before pos)
        (hdatas _ List.mem_cons_self)
      rw [hok.1] at hfail
      cases hfail
  | @used pos _ _ _ _ _ _ _ _ hleft _ ih =>
      have hok := put_faultFree pos (before pos)
        (hdatas _ List.mem_cons_self)
      obtain ⟨hraw, hstop⟩ := ih fun data hmem =>
        hdatas data (List.mem_cons_of_mem _ hmem)
      rw [List.length_cons, rawBlocks, hleft, hok.2, hraw, hstop,
        Nat.succ_mul]
      exact ⟨rfl, by omega⟩

end FaultFree

/-- The saved pages with another message in its place. -/
def withText (original : Bytes) (writeSize : Nat) (text : Bytes) : Bytes :=
  original.take writeSize ++ text ++
    original.drop (writeSize + BootloaderMessage.size)

theorem withText_self (original : Bytes) (writeSize : Nat) :
    withText original writeSize
      (original.window writeSize BootloaderMessage.size) = original := by
  rw [withText, Bytes.window, ← List.drop_drop, List.append_assoc,
    List.take_append_drop, List.take_append_drop]

section WithText

variable {original text : Bytes} {writeSize : Nat}
  (horiginal : original.length = writeSize * miscPages)
  (hfits : BootloaderMessage.size ≤ writeSize)
  (htext : text.length = BootloaderMessage.size)
include horiginal hfits

theorem length_original_window :
    (original.window writeSize BootloaderMessage.size).length =
      BootloaderMessage.size := by
  rw [miscPages] at horiginal
  rw [Bytes.window_length, horiginal]
  omega

include htext

theorem withText_length :
    (withText original writeSize text).length = writeSize * miscPages := by
  rw [withText, List.length_append, List.length_append, List.length_take,
    List.length_drop, htext, horiginal, miscPages]
  omega

omit hfits htext in
theorem length_firstPage : (original.take writeSize).length = writeSize := by
  rw [List.length_take, horiginal, miscPages]
  omega

omit hfits htext in
theorem withText_take :
    (withText original writeSize text).take writeSize =
      original.take writeSize := by
  rw [withText, List.append_assoc,
    List.take_left' (length_firstPage horiginal)]

omit hfits in
theorem withText_drop :
    (withText original writeSize text).drop
        (writeSize + BootloaderMessage.size) =
      original.drop (writeSize + BootloaderMessage.size) := by
  have hboth : (original.take writeSize ++ text).length =
      writeSize + BootloaderMessage.size := by
    rw [List.length_append, length_firstPage horiginal, htext]
  rw [withText, List.drop_left' hboth]

omit hfits in
/-- The message is read back from its page. -/
theorem withText_window :
    Bytes.window (withText original writeSize text)
      (writeSize * miscCommandPage) BootloaderMessage.size = text := by
  rw [Bytes.window, withText, List.append_assoc, miscCommandPage, Nat.mul_one,
    List.drop_left' (length_firstPage horiginal), List.take_left' htext]

/-- Setting a message leaves no trace of the one before. -/
theorem overlay_withText {text' : Bytes}
    (htext' : text'.length = BootloaderMessage.size) :
    overlay (withText original writeSize text) (writeSize * miscCommandPage)
      text' = some (withText original writeSize text') := by
  have hlength := withText_length horiginal hfits htext
  rw [overlay, if_pos, miscCommandPage, Nat.mul_one, htext',
    withText_take horiginal, withText_drop horiginal htext]
  · rfl
  · rw [hlength, htext', miscCommandPage, miscPages]
    omega

/-- The other pages do not depend on the message. -/
theorem withText_page {i : Nat} (hi : i = 0 ∨ i = 2) :
    Bytes.window (withText original writeSize text) (writeSize * i)
      writeSize = original.window (writeSize * i) writeSize := by
  rcases hi with rfl | rfl
  · simp only [Bytes.window, Nat.mul_zero, List.drop_zero]
    exact withText_take horiginal
  · have hskip : writeSize * 2 = writeSize + BootloaderMessage.size +
        (writeSize - BootloaderMessage.size) := by
      omega
    rw [Bytes.window, Bytes.window, hskip, ← List.drop_drop,
      withText_drop horiginal htext, List.drop_drop]

end WithText

/-- What holds between two calls: the saved pages are the original ones but
for the message, and the reader sees every block of them. -/
structure Holding (part : Partition) (writeSize : Nat) (original : Bytes)
    (dev : Device) (text : Bytes) : Prop where
  shape : ∀ data ∈ rawBlocks part dev (pageBlocks part writeSize) 0,
    data.length = part.eraseSize
  nonzero : NoZeroBlock (rawBlocks part dev (pageBlocks part writeSize) 0)
  content : (rawBlocks part dev (pageBlocks part writeSize) 0).flatten.take
    (writeSize * miscPages) = withText original writeSize text

section Calls

variable {part : Partition} {writeSize : Nat} {original : Bytes}
  (hroom : pageBlocks part writeSize * part.eraseSize ≤ part.limit)
  (horiginal : original.length = writeSize * miscPages)
  (hfits : BootloaderMessage.size ≤ writeSize)

theorem le_pageBlocks_mul (part : Partition) (writeSize : Nat) :
    writeSize * miscPages ≤ pageBlocks part writeSize * part.eraseSize := by
  have hsize := part.eraseSize_pos
  have hdiv := Nat.div_add_mod (writeSize * miscPages + part.eraseSize - 1)
    part.eraseSize
  have hmod := Nat.mod_lt (writeSize * miscPages + part.eraseSize - 1) hsize
  rw [pageBlocks, Nat.mul_comm (_ / _)]
  omega

theorem flatten_rawBlocks_length {dev : Device}
    (hshape : ∀ data ∈ rawBlocks part dev (pageBlocks part writeSize) 0,
      data.length = part.eraseSize) :
    writeSize * miscPages ≤
      (rawBlocks part dev (pageBlocks part writeSize) 0).flatten.length := by
  rw [flatten_length_eq_mul hshape, rawBlocks_length]
  exact le_pageBlocks_mul part writeSize

/-- The pages are the first bytes of the blocks the reader settles on. -/
theorem run_readPages_of_ahead {dev : Device} {datas : List Bytes}
    (hdatas : ∀ data ∈ datas, data.length = part.eraseSize)
    (hahead : Ahead (Flash.faultFree part) { dev with filePos := 0 } datas)
    (henough : writeSize * miscPages ≤ datas.flatten.length) :
    ((Flash.faultFree part).run (readPages part writeSize) dev).1 =
        some (datas.flatten.take (writeSize * miscPages)) ∧
      ((Flash.faultFree part).run (readPages part writeSize) dev).2.block =
        dev.block := by
  have hholds : Holds (Flash.faultFree part)
      ⟨List.replicate part.eraseSize 0, part.eraseSize⟩
      { dev with filePos := 0 } datas.flatten :=
    ⟨List.length_replicate, le_rfl, datas, hdatas, hahead, by simp⟩
  have hsmall : writeSize * miscPages < 2 ^ 31 := by
    have hlength := Ahead.length_lt _ hahead
    rw [flatten_length_eq_mul hdatas] at henough
    omega
  have hlength : (datas.flatten.take (writeSize * miscPages)).length =
      writeSize * miscPages := List.length_take_of_le henough
  obtain ⟨ctx', dev', hread, -⟩ := run_mtdReadData _ hholds henough hsmall
  have hblock := run_mtdReadData_block (Flash.faultFree part)
    ⟨List.replicate part.eraseSize 0, part.eraseSize⟩
    (writeSize * miscPages) { dev with filePos := 0 }
  rw [hread] at hblock
  simp only [readPages, mtdReadPartition, Flash.run_bind,
    Flash.run_openDevice, if_true, Prog.pure_eq_ret, Flash.run_ret, hread,
    Flash.run_closeDevice, Option.filter_some, hlength, decide_true,
    true_and]
  exact hblock

include hroom in
theorem run_readPages {dev : Device} {text : Bytes}
    (hholding : Holding part writeSize original dev text) :
    ((Flash.faultFree part).run (readPages part writeSize) dev).1 =
        some (withText original writeSize text) ∧
      ((Flash.faultFree part).run (readPages part writeSize) dev).2.block =
        dev.block := by
  have hahead : Ahead (Flash.faultFree part) { dev with filePos := 0 }
      (rawBlocks part dev (pageBlocks part writeSize) 0) := by
    rw [Ahead, rawBlocks_length]
    exact ahead_rawBlocks (by omega) hholding.shape hholding.nonzero
  rw [← hholding.content]
  exact run_readPages_of_ahead hholding.shape hahead
    (flatten_rawBlocks_length hholding.shape)

include hroom horiginal in
theorem run_getBootloaderMessage {dev : Device}
    {message : BootloaderMessage}
    (hholding : Holding part writeSize original dev message.toBytes) :
    ((Flash.faultFree part).run
      (getBootloaderMessage (some (part, writeSize))) dev).1 =
        some message := by
  obtain ⟨hread, -⟩ := run_readPages hroom hholding
  simp only [getBootloaderMessage, Flash.run_bind, hread, Prog.pure_eq_ret,
    Flash.run_ret]
  rw [withText_window horiginal message.toBytes_length,
    BootloaderMessage.ofBytes_toBytes]

include hroom in
theorem run_getBootloaderMessage_block {dev : Device} {text : Bytes}
    (hholding : Holding part writeSize original dev text) :
    ((Flash.faultFree part).run
      (getBootloaderMessage (some (part, writeSize))) dev).2.block =
        dev.block := by
  obtain ⟨hread, hblock⟩ := run_readPages hroom hholding
  simp only [getBootloaderMessage, Flash.run_bind, hread, Prog.pure_eq_ret,
    Flash.run_ret]
  exact hblock

include hroom horiginal hfits in
/-- A successful set puts the pages with the new message on flash, and does
not touch the blocks behind them. -/
theorem run_setBootloaderMessage {dev : Device} {text : Bytes}
    (htext : text.length = BootloaderMessage.size)
    (hholding : Holding part writeSize original dev text)
    (message : BootloaderMessage)
    (hok : ((Flash.faultFree part).run
      (setBootloaderMessage (some (part, writeSize)) message) dev).1 =
        true) :
    rawBlocks part ((Flash.faultFree part).run
        (setBootloaderMessage (some (part, writeSize)) message) dev).2
        (pageBlocks part writeSize) 0 =
          toBlocks part (withText original writeSize message.toBytes) ∧
      ∀ q, pageBlocks part writeSize * part.eraseSize ≤ q →
        ((Flash.faultFree part).run
          (setBootloaderMessage (some (part, writeSize)) message)
            dev).2.block q = dev.block q := by
  obtain ⟨hread, hsame⟩ := run_readPages hroom hholding
  have hoverlay := overlay_withText horiginal hfits htext
    message.toBytes_length
  simp only [setBootloaderMessage, Flash.run_bind, hread, hoverlay,
    mtdWritePartition, Flash.run_openDevice, if_true, Prog.pure_eq_ret,
    Flash.run_ret] at hok ⊢
  generalize ((Flash.faultFree part).run (readPages part writeSize) dev).2 =
    dev' at hok hsame ⊢
  rw [Bool.and_eq_true] at hok
  obtain ⟨hwrite, hclose⟩ := hok
  obtain ⟨htook, hpending⟩ := run_mtdWriteData _ ⟨[], []⟩ _ _
    part.eraseSize_pos hwrite
  generalize (Flash.faultFree part).run (mtdWriteData part ⟨[], []⟩
    (withText original writeSize message.toBytes))
    { dev' with filePos := 0 } = wrote at *
  obtain ⟨datas, hlength, hsplit, hwrote⟩ := htook.wrote
  obtain ⟨ctx', hpad⟩ := run_mtdWriteClose_ok _ _ _ hpending hclose
  rw [List.nil_append] at hsplit
  have hblocks : datas ++ toBlocks part wrote.1.2.pending =
      toBlocks part (withText original writeSize message.toBytes) := by
    rw [hsplit, toBlocks_flatten_append hlength]
  have hall := hwrote.trans hpad
  rw [hblocks] at hall
  obtain ⟨bad, used, hwritten, -⟩ := hall.written
  have hcount : (toBlocks part
      (withText original writeSize message.toBytes)).length =
      pageBlocks part writeSize := by
    rw [toBlocks_count, withText_length horiginal hfits
      message.toBytes_length, pageBlocks]
  obtain ⟨hraw, hstop⟩ := written_rawBlocks
    (fun _ hmem => toBlocks_length hmem) hwritten
  rw [hcount] at hraw hstop
  refine ⟨hraw, ?_⟩
  intro q hq
  rw [hall.frame q (by right; rw [hstop]; simpa using hq), hsame]

include hroom horiginal hfits in
/-- A set on flash without faults succeeds. -/
theorem run_setBootloaderMessage_ok {dev : Device} {text : Bytes}
    (htext : text.length = BootloaderMessage.size)
    (hholding : Holding part writeSize original dev text)
    (message : BootloaderMessage) :
    ((Flash.faultFree part).run
      (setBootloaderMessage (some (part, writeSize)) message) dev).1 =
        true := by
  obtain ⟨hread, -⟩ := run_readPages hroom hholding
  have hoverlay := overlay_withText horiginal hfits htext
    message.toBytes_length
  have hlength := withText_length horiginal hfits message.toBytes_length
  have hpages := le_pageBlocks_mul part writeSize
  simp only [setBootloaderMessage, Flash.run_bind, hread, hoverlay,
    mtdWritePartition, Flash.run_openDevice, if_true, Prog.pure_eq_ret,
    Flash.run_ret]
  generalize ((Flash.faultFree part).run (readPages part writeSize) dev).2 =
    dev'
  obtain ⟨hwrite, htotal⟩ := @faultFree_mtdWriteData part ⟨[], []⟩
    (withText original writeSize message.toBytes)
    { dev' with filePos := 0 } part.eraseSize_pos
    (by rw [hlength]; simp; omega)
  obtain ⟨htook, hpending⟩ := run_mtdWriteData _ ⟨[], []⟩ _ _
    part.eraseSize_pos hwrite
  obtain ⟨datas, hdatas, hsplit, -⟩ := htook.wrote
  generalize (Flash.faultFree part).run (mtdWriteData part ⟨[], []⟩
    (withText original writeSize message.toBytes))
    { dev' with filePos := 0 } = wrote at *
  have hsum := congrArg List.length hsplit
  rw [List.nil_append, List.length_append, hlength,
    flatten_length_eq_mul hdatas] at hsum
  rw [Bool.and_eq_true]
  refine ⟨hwrite, faultFree_mtdWriteClose hpending ?_⟩
  intro hsome
  have hpos := List.length_pos_iff.mpr hsome
  have hless : datas.length < pageBlocks part writeSize := by
    by_contra hmany
    have hmul := Nat.mul_le_mul_right part.eraseSize (not_lt.mp hmany)
    omega
  have hnext := Nat.mul_le_mul_right part.eraseSize hless
  rw [hlength] at htotal
  rw [Nat.succ_mul] at hnext
  simp only [List.length_nil, Nat.add_zero, Nat.zero_add] at htotal
  omega

theorem Holding.of_block {dev dev' : Device} {text : Bytes}
    (hholding : Holding part writeSize original dev text)
    (hblock : dev'.block = dev.block) :
    Holding part writeSize original dev' text := by
  have hraw : rawBlocks part dev' (pageBlocks part writeSize) 0 =
      rawBlocks part dev (pageBlocks part writeSize) 0 :=
    rawBlocks_congr fun q _ _ => by rw [hblock]
  obtain ⟨hshape, hnonzero, hcontent⟩ := hholding
  rw [← hraw] at hshape hnonzero hcontent
  exact ⟨hshape, hnonzero, hcontent⟩

theorem Holding.of_toBlocks {dev : Device} {text : Bytes}
    (hlength : (withText original writeSize text).length =
      writeSize * miscPages)
    (hraw : rawBlocks part dev (pageBlocks part writeSize) 0 =
      toBlocks part (withText original writeSize text))
    (hnonzero : NoZeroBlock
      (toBlocks part (withText original writeSize text))) :
    Holding part writeSize original dev text := by
  refine ⟨?_, ?_, ?_⟩
  · rw [hraw]
    exact fun _ hmem => toBlocks_length hmem
  · rw [hraw]
    exact hnonzero
  · obtain ⟨count, hflatten⟩ :=
      toBlocks_flatten part (withText original writeSize text)
    rw [hraw, hflatten, List.take_left' hlength]

include horiginal hfits in
theorem Holding.page {dev : Device} {text : Bytes}
    (htext : text.length = BootloaderMessage.size)
    (hholding : Holding part writeSize original dev text) {i : Nat}
    (hi : i = 0 ∨ i = 2) :
    page part writeSize dev i = original.window (writeSize * i) writeSize := by
  rw [← withText_page horiginal hfits htext hi, ← hholding.content,
    Bytes.window_take, Bootloader.page]
  rcases hi with rfl | rfl
  · rw [miscPages]
    omega
  · rw [miscPages]
    omega

include hroom horiginal hfits in
/-- One call keeps the pages and obeys the register. -/
theorem run_runOp {dev : Device} {text : Bytes}
    {latest : Option BootloaderMessage} {op : Op} {event : Event}
    (htext : text.length = BootloaderMessage.size)
    (hholding : Holding part writeSize original dev text)
    (hlatest : ∀ message ∈ latest, text = message.toBytes)
    (hset : ∀ message, op = .set message → NoZeroBlock (toBlocks part
      (withText original writeSize message.toBytes)))
    (hrun : ((Flash.faultFree part).run
      (runOp (some (part, writeSize)) op) dev).1 = some event) :
    ∃ text' latest', text'.length = BootloaderMessage.size ∧
      Holding part writeSize original ((Flash.faultFree part).run
        (runOp (some (part, writeSize)) op) dev).2 text' ∧
      (∀ message ∈ latest', text' = message.toBytes) ∧
      ∀ events, Register latest' events →
        Register latest (event :: events) := by
  cases op with
  | set message =>
      simp only [runOp, Flash.run_bind, Prog.pure_eq_ret, Flash.run_ret]
        at hrun ⊢
      split at hrun
      · rename_i hok
        obtain ⟨hraw, -⟩ := run_setBootloaderMessage hroom horiginal hfits
          htext hholding message hok
        refine ⟨message.toBytes, some message, message.toBytes_length, ?_, ?_,
          ?_⟩
        · exact Holding.of_toBlocks
            (withText_length horiginal hfits message.toBytes_length) hraw
            (hset message rfl)
        · intro message' hmem
          rw [Option.mem_def, Option.some.injEq] at hmem
          rw [hmem]
        · intro events hevents
          rw [← Option.some.inj hrun]
          exact hevents
      · cases hrun
  | get =>
      simp only [runOp, Flash.run_bind, Prog.pure_eq_ret, Flash.run_ret]
        at hrun ⊢
      refine ⟨text, latest, htext, ?_, hlatest, ?_⟩
      · exact hholding.of_block
          (run_getBootloaderMessage_block hroom hholding)
      · intro events hevents
        obtain ⟨message, hmessage, rfl⟩ := Option.map_eq_some_iff.mp hrun
        refine ⟨?_, hevents⟩
        intro expected hexpected
        rw [hlatest expected hexpected] at hholding
        rw [run_getBootloaderMessage hroom horiginal hholding] at hmessage
        exact (Option.some.inj hmessage).symm

include hroom horiginal hfits in
/-- Whole runs keep the pages and obey the register. -/
theorem run_runOps {dev : Device} {text : Bytes}
    {latest : Option BootloaderMessage} {ops : List Op}
    {events : List Event}
    (htext : text.length = BootloaderMessage.size)
    (hholding : Holding part writeSize original dev text)
    (hlatest : ∀ message ∈ latest, text = message.toBytes)
    (hsets : ∀ message, Op.set message ∈ ops → NoZeroBlock (toBlocks part
      (withText original writeSize message.toBytes)))
    (hrun : ((Flash.faultFree part).run
      (runOps (some (part, writeSize)) ops) dev).1 = some events) :
    Register latest events ∧
      ∃ text', text'.length = BootloaderMessage.size ∧
        Holding part writeSize original ((Flash.faultFree part).run
          (runOps (some (part, writeSize)) ops) dev).2 text' := by
  induction ops generalizing dev text latest events with
  | nil =>
      rw [← Option.some.inj hrun]
      exact ⟨trivial, text, htext, hholding⟩
  | cons op ops ih =>
      rw [runOps] at hrun ⊢
      simp only [Flash.run_bind] at hrun ⊢
      cases hop : ((Flash.faultFree part).run
          (runOp (some (part, writeSize)) op) dev).1 with
      | none =>
          rw [hop] at hrun
          cases hrun
      | some event =>
          rw [hop] at hrun
          simp only [Flash.run_bind, Prog.pure_eq_ret, Flash.run_ret]
            at hrun ⊢
          obtain ⟨events', hevents, rfl⟩ := Option.map_eq_some_iff.mp hrun
          obtain ⟨text', latest', htext', hholding', hlatest', hregister⟩ :=
            run_runOp hroom horiginal hfits htext hholding hlatest
              (fun message hset => hsets message (by simp [hset])) hop
          obtain ⟨hrest, hend⟩ := ih htext' hholding' hlatest'
            (fun message hmem =>
              hsets message (List.mem_cons_of_mem op hmem)) hevents
          exact ⟨hregister events' hrest, hend⟩

end Calls

/-- A set that succeeds and a get that returns a message. -/
theorem run_set_get {part : Partition} (flash : Flash part)
    {misc : Option (Partition × Nat)} {dev : Device}
    {message found : BootloaderMessage}
    (hset : (flash.run (setBootloaderMessage misc message) dev).1 = true)
    (hget : (flash.run (getBootloaderMessage misc)
      (flash.run (setBootloaderMessage misc message) dev).2).1 =
        some found) :
    (flash.run (runOps misc [.set message, .get]) dev).1 =
      some [.set message, .got found] := by
  simp only [runOps, runOp, Flash.run_bind, Prog.pure_eq_ret, Flash.run_ret,
    hset, if_true, hget, Option.map_some]

/-- The state before the calls. -/
theorem Holding.start {part : Partition} {writeSize : Nat} {dev : Device}
    (hshape : ∀ pos, (dev.block pos).content.length = part.eraseSize)
    (hnonzero : NoZeroBlock
      (rawBlocks part dev (pageBlocks part writeSize) 0))
    {original : Bytes}
    (horig : (rawBlocks part dev (pageBlocks part writeSize) 0).flatten.take
      (writeSize * miscPages) = original) :
    original.length = writeSize * miscPages ∧
      Holding part writeSize original dev
        (original.window writeSize BootloaderMessage.size) := by
  have hblocks : ∀ data ∈ rawBlocks part dev (pageBlocks part writeSize) 0,
      data.length = part.eraseSize := by
    generalize pageBlocks part writeSize = count
    generalize 0 = pos
    induction count generalizing pos with
    | zero => simp [rawBlocks]
    | succ count ih =>
        intro data hmem
        rcases List.mem_cons.mp hmem with rfl | hrest
        · exact hshape pos
        · exact ih _ data hrest
  constructor
  · rw [← horig, List.length_take]
    exact Nat.min_eq_left (flatten_rawBlocks_length hblocks)
  · exact ⟨hblocks, hnonzero,
      horig.trans (withText_self original writeSize).symm⟩

/-- **The control block as a register.**  In every run of successful calls
under the condition, each get returns the message of the latest set, and the
other pages keep their bytes. -/
theorem register_of_retains (part : Partition) (writeSize : Nat)
    (dev : Device) (ops : List Op) {events : List Event}
    (hroom : pageBlocks part writeSize * part.eraseSize ≤ part.limit)
    (hshape : ∀ pos, (dev.block pos).content.length = part.eraseSize)
    (hretains : Retains part writeSize dev ops)
    (hrun : ((Flash.faultFree part).run
      (runOps (some (part, writeSize)) ops) dev).1 = some events) :
    Register none events ∧
      ∀ i, i = 0 ∨ i = 2 →
        page part writeSize ((Flash.faultFree part).run
          (runOps (some (part, writeSize)) ops) dev).2 i =
          page part writeSize dev i := by
  obtain ⟨hfits, hbefore, hafter⟩ := hretains
  generalize horig : (rawBlocks part dev (pageBlocks part
    writeSize) 0).flatten.take (writeSize * miscPages) = original at hafter
  obtain ⟨horiginal, hholding⟩ := Holding.start hshape hbefore horig
  have htext := length_original_window horiginal hfits
  have hlatest : ∀ message ∈ (none : Option BootloaderMessage),
      Bytes.window original writeSize BootloaderMessage.size =
        message.toBytes := by
    intro message hmem
    cases hmem
  have hsets : ∀ message, Op.set message ∈ ops → NoZeroBlock (toBlocks part
      (withText original writeSize message.toBytes)) := by
    intro message hmem
    apply hafter message _ hmem
    have hoverlay := overlay_withText horiginal hfits htext
      message.toBytes_length
    rwa [withText_self original writeSize] at hoverlay
  obtain ⟨hregister, text', htext', hend⟩ :=
    run_runOps hroom horiginal hfits htext hholding hlatest hsets hrun
  refine ⟨hregister, ?_⟩
  intro i hi
  rw [hend.page horiginal hfits htext' hi, hholding.page horiginal hfits htext
    hi]

/-- When the first block is all zero, a get answers from the second one. -/
theorem run_getBootloaderMessage_zero {part : Partition} {writeSize : Nat}
    {dev : Device} {behind : Bytes}
    (hzero : ∀ c ∈ (dev.block 0).content, c = 0)
    (hbehind : (dev.block part.eraseSize).content = behind)
    (hlength : behind.length = part.eraseSize)
    (hnonzero : behind.any (· != 0) = true)
    (hroom : part.eraseSize + part.eraseSize ≤ part.limit)
    (hpages : writeSize * miscPages ≤ part.eraseSize) :
    ((Flash.faultFree part).run
      (getBootloaderMessage (some (part, writeSize))) dev).1 =
        BootloaderMessage.ofBytes (Bytes.window
          (behind.take (writeSize * miscPages))
          (writeSize * miscCommandPage) BootloaderMessage.size) := by
  have hskip : (Flash.faultFree part).Skips 0 (dev.block 0) := by
    refine ⟨rfl, ?_⟩
    have hnone : ¬ (dev.block 0).content.any (· != 0) = true := by
      rw [List.any_eq_true]
      rintro ⟨c, hc, hne⟩
      simp [hzero c hc] at hne
    simp only [Flash.takes, Flash.faultFree]
    split
    · rfl
    · rename_i data hdata
      split at hdata
      · rw [← Option.some.inj hdata, if_neg fun hgood => hnone hgood.2]
      · cases hdata
  have htakes : (Flash.faultFree part).takes part.eraseSize
      (dev.block part.eraseSize) = some behind := by
    simp only [Flash.takes, Flash.faultFree, hbehind, hlength, if_true]
    exact if_pos ⟨trivial, hnonzero⟩
  have hahead : Ahead (Flash.faultFree part) { dev with filePos := 0 }
      [behind] := by
    have hsecond : goodBlocks (Flash.faultFree part) dev.block (0 + 1) 0 =
        goodBlocks (Flash.faultFree part) dev.block (0 + 1)
          (0 + part.eraseSize) :=
      goodBlocks_skip _ (by omega) hskip
    rw [Nat.zero_add part.eraseSize, goodBlocks_take _ hroom rfl htakes]
      at hsecond
    rw [Ahead, List.length_singleton, hsecond]
    rfl
  obtain ⟨hread, -⟩ := run_readPages_of_ahead
    (by simpa using hlength) hahead (by simpa [hlength] using hpages)
  simp only [getBootloaderMessage, Flash.run_bind, hread, Prog.pure_eq_ret,
    Flash.run_ret, List.flatten_singleton]

namespace RegisterWitness

/-- Two blocks of 64 pages. -/
def misc : Partition := ⟨262144, 131072, by decide⟩

/-- Page 1 starts with a byte of a message, everything else in the first
block is zero, and the second block is erased. -/
def bootedDevice : Device where
  block pos :=
    if pos = 0 then
      ⟨List.replicate 2048 0 ++ 98 :: List.replicate 129023 0, 0⟩
    else ⟨List.replicate 131072 255, 0⟩
  filePos := 0
  eccFailed := 0

theorem bootedDevice_shape (pos : Nat) :
    (bootedDevice.block pos).content.length = misc.eraseSize := by
  simp only [bootedDevice]
  split
  · rw [List.length_append, List.length_cons, List.length_replicate,
      List.length_replicate]
    rfl
  · exact List.length_replicate

theorem pageBlocks_misc : pageBlocks misc 2048 = 1 := by
  decide

theorem bootedDevice_raw :
    rawBlocks misc bootedDevice (pageBlocks misc 2048) 0 =
      [List.replicate 2048 0 ++ 98 :: List.replicate 129023 0] := by
  rw [pageBlocks_misc]
  rfl

theorem bootedDevice_nonzero :
    NoZeroBlock (rawBlocks misc bootedDevice (pageBlocks misc 2048) 0) := by
  rw [bootedDevice_raw]
  intro data hmem
  rw [List.mem_singleton.mp hmem, List.any_eq_true]
  exact ⟨98, List.mem_append_right _ List.mem_cons_self, by decide⟩

theorem misc_room :
    pageBlocks misc 2048 * misc.eraseSize ≤ misc.limit := by
  decide

/-- The pages of the device. -/
def bootedPages : Bytes :=
  (rawBlocks misc bootedDevice (pageBlocks misc 2048) 0).flatten.take
    (2048 * miscPages)

/-- A message that is not all zero. -/
def bootMessage : BootloaderMessage where
  command := 98 :: List.replicate 31 0
  status := List.replicate 32 0
  recovery := List.replicate 1024 0
  command_length := by decide
  status_length := by decide
  recovery_length := List.length_replicate

/-- What erased flash looks like as a message. -/
def erasedMessage : BootloaderMessage where
  command := List.replicate 32 255
  status := List.replicate 32 255
  recovery := List.replicate 1024 255
  command_length := List.length_replicate
  status_length := List.length_replicate
  recovery_length := List.length_replicate

theorem bootedDevice_holding :
    bootedPages.length = 2048 * miscPages ∧
      Holding misc 2048 bootedPages bootedDevice
        (bootedPages.window 2048 BootloaderMessage.size) :=
  Holding.start bootedDevice_shape bootedDevice_nonzero rfl

theorem bootedPages_withText_length (message : BootloaderMessage) :
    (withText bootedPages 2048 message.toBytes).length = 2048 * miscPages :=
  withText_length bootedDevice_holding.1
    (by decide : BootloaderMessage.size ≤ 2048) message.toBytes_length

theorem toBlocks_bootedPages (message : BootloaderMessage) :
    ∃ count, toBlocks misc (withText bootedPages 2048 message.toBytes) =
      [withText bootedPages 2048 message.toBytes ++
        List.replicate count 0] := by
  have hlength := bootedPages_withText_length message
  have hshort : (withText bootedPages 2048 message.toBytes).length <
      misc.eraseSize :=
    hlength.trans_lt (by decide)
  have hne : withText bootedPages 2048 message.toBytes ≠ [] := by
    apply List.ne_nil_of_length_pos
    exact hlength.symm ▸ (by decide : 0 < 2048 * miscPages)
  exact ⟨_, toBlocks_short hne hshort⟩

theorem bootMessage_register :
    ((Flash.faultFree misc).run (runOps (some (misc, 2048))
        [.set bootMessage, .get]) bootedDevice).1 =
          some [.set bootMessage, .got bootMessage] ∧
      Register none [.set bootMessage, .got bootMessage] := by
  obtain ⟨horiginal, hholding⟩ := bootedDevice_holding
  have hfits : BootloaderMessage.size ≤ 2048 := by decide
  have htext := length_original_window horiginal hfits
  have hnonzero : NoZeroBlock (toBlocks misc
      (withText bootedPages 2048 bootMessage.toBytes)) := by
    obtain ⟨count, hblocks⟩ := toBlocks_bootedPages bootMessage
    rw [hblocks]
    intro data hmem
    rw [List.mem_singleton.mp hmem, List.any_eq_true]
    refine ⟨98, ?_, by decide⟩
    apply List.mem_append_left
    apply List.mem_append_left
    apply List.mem_append_right
    exact List.mem_cons_self
  have hset := run_setBootloaderMessage_ok misc_room horiginal hfits htext
    hholding bootMessage
  obtain ⟨hraw, -⟩ := run_setBootloaderMessage misc_room horiginal hfits htext
    hholding bootMessage hset
  have hget := run_getBootloaderMessage misc_room horiginal
    (Holding.of_toBlocks (withText_length horiginal hfits
      bootMessage.toBytes_length) hraw hnonzero)
  have hrun : ((Flash.faultFree misc).run (runOps (some (misc, 2048))
      [.set bootMessage, .get]) bootedDevice).1 =
        some [.set bootMessage, .got bootMessage] :=
    run_set_get _ hset hget
  have hretains : Retains misc 2048 bootedDevice
      [.set bootMessage, .get] := by
    refine ⟨hfits, bootedDevice_nonzero, ?_⟩
    intro message data hmem hoverlay
    have hsame : message = bootMessage := by simpa using hmem
    have hexpected := overlay_withText horiginal hfits htext
      bootMessage.toBytes_length
    rw [withText_self] at hexpected
    rw [hsame] at hoverlay
    rw [← Option.some.inj (hexpected.symm.trans hoverlay)]
    exact hnonzero
  exact ⟨hrun, (register_of_retains misc 2048 bootedDevice _ misc_room
    bootedDevice_shape hretains hrun).1⟩

theorem clearedPages_zero (count : Nat) :
    ∀ c ∈ withText bootedPages 2048 BootloaderMessage.zero.toBytes ++
      List.replicate count 0, c = 0 := by
  have hpages : bootedPages = List.take (2048 * miscPages)
      (List.replicate 2048 0 ++ 98 :: List.replicate 129023 0) := by
    rw [bootedPages, bootedDevice_raw, List.flatten_singleton]
  intro c hc
  rw [withText, List.mem_append, List.mem_append, List.mem_append] at hc
  rcases hc with ((hfirst | hmessage) | hlast) | hpad
  · rw [hpages, List.take_take] at hfirst
    have hmem : c ∈ List.take 2048
        (List.replicate 2048 0 ++ 98 :: List.replicate 129023 0) := hfirst
    rw [List.take_left' List.length_replicate] at hmem
    exact List.eq_of_mem_replicate hmem
  · simp only [BootloaderMessage.toBytes, BootloaderMessage.zero,
      List.mem_append] at hmessage
    rcases hmessage with (hc | hc) | hc
    · exact List.eq_of_mem_replicate hc
    · exact List.eq_of_mem_replicate hc
    · exact List.eq_of_mem_replicate hc
  · rw [hpages, List.drop_take] at hlast
    have hmem := List.mem_of_mem_take hlast
    rw [← List.drop_drop, List.drop_left' List.length_replicate] at hmem
    have hdrop : c ∈ List.drop (1087 + 1) (98 :: List.replicate 129023 0) :=
      hmem
    rw [List.drop_succ_cons] at hdrop
    exact List.eq_of_mem_replicate (List.mem_of_mem_drop hdrop)
  · exact List.eq_of_mem_replicate hpad

theorem erasedMessage_toBytes :
    Bytes.window (List.take (2048 * miscPages) (List.replicate 131072 255))
      (2048 * miscCommandPage) BootloaderMessage.size =
        erasedMessage.toBytes := by
  rw [Bytes.window, List.take_replicate, List.drop_replicate,
    List.take_replicate, BootloaderMessage.toBytes, erasedMessage,
    List.replicate_append_replicate, List.replicate_append_replicate]
  rfl

/-- `finish_recovery` clears the message; the next get reads the erased block
behind it. -/
theorem clearedMessage_lost :
    ((Flash.faultFree misc).run (runOps (some (misc, 2048))
        [.set BootloaderMessage.zero, .get]) bootedDevice).1 =
          some [.set BootloaderMessage.zero, .got erasedMessage] ∧
      ¬ Register none
        [.set BootloaderMessage.zero, .got erasedMessage] := by
  obtain ⟨horiginal, hholding⟩ := bootedDevice_holding
  have hfits : BootloaderMessage.size ≤ 2048 := by decide
  have htext := length_original_window horiginal hfits
  have hset := run_setBootloaderMessage_ok misc_room horiginal hfits htext
    hholding BootloaderMessage.zero
  obtain ⟨hraw, hframe⟩ := run_setBootloaderMessage misc_room horiginal hfits
    htext hholding BootloaderMessage.zero hset
  have hzero : ∀ c ∈ (((Flash.faultFree misc).run (setBootloaderMessage
      (some (misc, 2048)) BootloaderMessage.zero) bootedDevice).2.block
        0).content, c = 0 := by
    obtain ⟨count, hblocks⟩ := toBlocks_bootedPages BootloaderMessage.zero
    rw [hblocks, pageBlocks_misc] at hraw
    rw [List.singleton_inj.mp hraw]
    exact clearedPages_zero count
  have hbehind : (((Flash.faultFree misc).run (setBootloaderMessage
      (some (misc, 2048)) BootloaderMessage.zero) bootedDevice).2.block
        misc.eraseSize).content = List.replicate 131072 255 := by
    rw [hframe misc.eraseSize (by decide)]
    rfl
  have hnonzero : (List.replicate 131072 (255 : UInt8)).any (· != 0) =
      true :=
    List.any_eq_true.mpr
      ⟨255, List.mem_replicate.mpr ⟨by decide, rfl⟩, by decide⟩
  have hget := run_getBootloaderMessage_zero hzero hbehind
    List.length_replicate hnonzero (by decide : _ ≤ misc.limit)
    (by decide : 2048 * miscPages ≤ _)
  rw [erasedMessage_toBytes, BootloaderMessage.ofBytes_toBytes] at hget
  refine ⟨run_set_get _ hset hget, ?_⟩
  rintro ⟨hsame, -⟩
  have hcommand := congrArg BootloaderMessage.command
    (hsame BootloaderMessage.zero rfl)
  exact absurd hcommand (by decide)

end RegisterWitness

end Bootloader

end MetaOS
