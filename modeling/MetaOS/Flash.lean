/-
Flash with faults.

`Flash` says of each block how it is marked and what erasing, programming and
reading it does, so a value of it is one pattern of faults.  A block answers a
read the same way until it is erased or programmed again.  The lemmas reduce
`read_block` and `write_block` to what they do to single blocks.
-/
import MetaOS.Mtd

namespace MetaOS

namespace Mtd

/-- The content of a block and how often it was erased or programmed. -/
structure Block where
  content : Bytes
  worn : Nat

/-- One pattern of faults.  The second part of an answer says whether an
erase or a write succeeded, or whether a read counted a failed correction. -/
structure Flash (part : Partition) where
  mark : Nat → Int
  erase : Nat → Block → Bytes × Bool
  program : Nat → Block → Bytes → Bytes × Bool
  read : Nat → Block → Option Bytes × Bool
  read_length : ∀ {pos block data},
    (read pos block).1 = some data → data.length = part.eraseSize

/-- Flash without faults.  Programming can only clear bits. -/
def Flash.faultFree (part : Partition) : Flash part where
  mark _ := 0
  erase _ _ := (List.replicate part.eraseSize 255, true)
  program _ block data := (List.zipWith (· &&& ·) block.content data, true)
  read _ block :=
    (if block.content.length = part.eraseSize then some block.content
      else none, false)
  read_length := by
    intro _ block data hread
    split at hread
    · rename_i hlength
      rwa [← Option.some.inj hread]
    · cases hread

structure Device where
  block : Nat → Block
  filePos : Nat
  eccFailed : Nat

/-- The answers that report an error of the file descriptor. -/
def Call.Fails : (c : Call) → Answer c → Prop
  | .openDevice, r => r = false
  | .lseekCur, r => r = none
  | .eccGetStats, r => r = none
  | .close, r => r = false
  | _, _ => False

namespace Flash

variable {part : Partition} (flash : Flash part)

/-- The block after an erase. -/
def erased (pos : Nat) (block : Block) : Block :=
  ⟨(flash.erase pos block).1, block.worn + 1⟩

/-- The block after a write. -/
def programmed (pos : Nat) (block : Block) (data : Bytes) : Block :=
  ⟨(flash.program pos block data).1, block.worn + 1⟩

/-- The device under a pattern of faults.  Seeks, queries and the file
descriptor itself do not fail. -/
def handler : (c : Call) → Device → Answer c × Device
  | .openDevice, dev => (true, { dev with filePos := 0 })
  | .lseekCur, dev => (some dev.filePos, dev)
  | .lseekSet pos, dev => (true, { dev with filePos := pos })
  | .read len, dev =>
      let answer := flash.read dev.filePos (dev.block dev.filePos)
      (answer.1, { dev with
        filePos := if answer.1.isSome then dev.filePos + len else dev.filePos
        eccFailed := dev.eccFailed + if answer.2 then 1 else 0 })
  | .write data, dev =>
      let block := dev.block dev.filePos
      ((flash.program dev.filePos block data).2, { dev with
        block := Function.update dev.block dev.filePos
          (flash.programmed dev.filePos block data)
        filePos := dev.filePos + data.length })
  | .getBadBlock pos, dev => (flash.mark pos, dev)
  | .erase start _, dev =>
      ((flash.erase start (dev.block start)).2, { dev with
        block := Function.update dev.block start
          (flash.erased start (dev.block start)) })
  | .eccGetStats, dev => (some dev.eccFailed, dev)
  | .close, dev => (true, dev)

/-- The device when the file descriptor may fail as well: an open, a position
query, a query of the statistics or a close can be answered with an error. -/
def answers : Prog.Semantics Call Answer Device := fun c dev r dev' =>
  (r, dev') = flash.handler c dev ∨ c.Fails r ∧ dev' = dev

/-- Run a program on a device. -/
def run {α : Type} (prog : MtdProg α) (dev : Device) : α × Device :=
  prog.eval flash.handler dev

section Run

variable {α β : Type} (dev : Device)

@[simp] theorem run_ret (value : α) :
    flash.run (Prog.ret value) dev = (value, dev) := rfl

@[simp] theorem run_bind (prog : MtdProg α) (f : α → MtdProg β) :
    flash.run (prog >>= f) dev =
      flash.run (f (flash.run prog dev).1) (flash.run prog dev).2 :=
  Prog.eval_bind _ _ _ _

@[simp] theorem run_openDevice :
    flash.run openDevice dev = (true, { dev with filePos := 0 }) := rfl

@[simp] theorem run_lseekCur :
    flash.run lseekCur dev = (some dev.filePos, dev) := rfl

@[simp] theorem run_lseekSet (pos : Nat) :
    flash.run (lseekSet pos) dev = (true, { dev with filePos := pos }) := rfl

@[simp] theorem run_memGetBadBlock (pos : Nat) :
    flash.run (memGetBadBlock pos) dev = (flash.mark pos, dev) := rfl

@[simp] theorem run_eccGetStats :
    flash.run eccGetStats dev = (some dev.eccFailed, dev) := rfl

@[simp] theorem run_closeDevice :
    flash.run closeDevice dev = (true, dev) := rfl

@[simp] theorem run_memErase (pos len : Nat) :
    flash.run (memErase pos len) dev =
      ((flash.erase pos (dev.block pos)).2, { dev with
        block := Function.update dev.block pos
          (flash.erased pos (dev.block pos)) }) := rfl

end Run

/-- One attempt to put data into a block: erase, program, compare. -/
def attempt (pos : Nat) (data : Bytes) (block : Block) : Bool × Block :=
  let clean := flash.erased pos block
  if (flash.erase pos block).2 then
    let full := flash.programmed pos clean data
    ((flash.read pos full).1 == some data, full)
  else (false, clean)

/-- Attempts until one succeeds. -/
def attempts (pos : Nat) (data : Bytes) : (retries : Nat) → Block →
    Bool × Block
  | 0, block => (false, block)
  | retries + 1, block =>
      let tried := flash.attempt pos data block
      if tried.1 then tried else attempts pos data retries tried.2

/-- What `write_block` does to a block that is not marked bad: two attempts,
and one more erase when it gives up. -/
def put (pos : Nat) (data : Bytes) (block : Block) : Bool × Block :=
  let tried := flash.attempts pos data 2 block
  if tried.1 then tried else (false, flash.erased pos tried.2)

/-- What `read_block` takes from one block, statistics apart: the bytes of a
block that is not marked and not all zero. -/
def takes (pos : Nat) (block : Block) : Option Bytes :=
  match (flash.read pos block).1 with
  | none => none
  | some data =>
      if flash.mark pos = 0 ∧ data.any (· != 0) then some data else none

theorem read_of_takes {pos : Nat} {block : Block} {data : Bytes}
    (htakes : flash.takes pos block = some data) :
    (flash.read pos block).1 = some data := by
  unfold takes at htakes
  cases hread : (flash.read pos block).1 with
  | none => simp [hread] at htakes
  | some data' =>
      rw [hread] at htakes
      simp only at htakes
      split at htakes
      · exact htakes
      · cases htakes

/-- The block the reader settles on.  A failed correction counted on the way
makes it reject everything that follows. -/
def nextGood (block : Nat → Block) :
    (blocks pos : Nat) → Option (Nat × Bytes)
  | 0, _ => none
  | blocks + 1, pos =>
      if (flash.read pos (block pos)).2 then none
      else
        match flash.takes pos (block pos) with
        | some data => some (pos, data)
        | none => nextGood block blocks (pos + part.eraseSize)

/-- The device after the read of one block. -/
def afterRead (pos : Nat) (dev : Device) : Device :=
  (flash.handler (.read part.eraseSize) { dev with filePos := pos }).2

@[simp] theorem afterRead_block (pos : Nat) (dev : Device) :
    (flash.afterRead pos dev).block = dev.block := rfl

theorem afterRead_eccFailed (pos : Nat) (dev : Device) :
    (flash.afterRead pos dev).eccFailed = dev.eccFailed +
      if (flash.read pos (dev.block pos)).2 then 1 else 0 := rfl

theorem afterRead_filePos {pos : Nat} {dev : Device} {data : Bytes}
    (htakes : flash.takes pos (dev.block pos) = some data) :
    (flash.afterRead pos dev).filePos = pos + part.eraseSize := by
  simp [afterRead, handler, flash.read_of_takes htakes]

/-- One pass of the loop of `read_block`. -/
theorem run_readBlockLoop_succ (before blocks pos : Nat) (dev : Device) :
    flash.run (readBlockLoop part before (blocks + 1) pos) dev =
      match flash.takes pos (dev.block pos) with
      | some data =>
          if (flash.afterRead pos dev).eccFailed = before then
            (some data, flash.afterRead pos dev)
          else flash.run (readBlockLoop part before blocks
            (pos + part.eraseSize)) (flash.afterRead pos dev)
      | none => flash.run (readBlockLoop part before blocks
          (pos + part.eraseSize)) (flash.afterRead pos dev) := by
  have hanswer : flash.run (readCall part.eraseSize)
      { dev with filePos := pos } =
      ((flash.read pos (dev.block pos)).1, flash.afterRead pos dev) := rfl
  rw [readBlockLoop]
  simp only [run_bind, run_lseekSet, if_true, hanswer]
  cases hread : (flash.read pos (dev.block pos)).1 with
  | none => simp [takes, hread]
  | some data =>
      simp only [takes, hread, run_bind, run_eccGetStats]
      by_cases hecc : (flash.afterRead pos dev).eccFailed = before
      · by_cases hmark : flash.mark pos = 0
        · by_cases hzero : data.any (· != 0) = true
          · simp [hecc, hmark, hzero]
          · simp [hecc, hmark, hzero]
        · simp [hecc, hmark]
      · by_cases hgood : flash.mark pos = 0 ∧ data.any (· != 0) = true
        · simp only [hecc, hgood, and_self, ne_eq, not_false_eq_true, if_true,
            if_false]
        · simp only [hecc, hgood, ne_eq, not_false_eq_true, if_true, if_false]

theorem run_readBlockLoop_block (before blocks pos : Nat) (dev : Device) :
    (flash.run (readBlockLoop part before blocks pos) dev).2.block =
      dev.block := by
  induction blocks generalizing pos dev with
  | zero => rfl
  | succ blocks ih =>
      rw [run_readBlockLoop_succ]
      cases flash.takes pos (dev.block pos) with
      | none => exact ih _ _
      | some data =>
          simp only
          split
          · rfl
          · exact ih _ _

/-- Once the statistics have moved, the call rejects every block. -/
theorem run_readBlockLoop_moved {before : Nat} (blocks pos : Nat)
    {dev : Device} (hmoved : before < dev.eccFailed) :
    (flash.run (readBlockLoop part before blocks pos) dev).1 = none := by
  induction blocks generalizing pos dev with
  | zero => rfl
  | succ blocks ih =>
      have hnext : before < (flash.afterRead pos dev).eccFailed := by
        rw [afterRead_eccFailed]
        omega
      rw [run_readBlockLoop_succ]
      cases flash.takes pos (dev.block pos) with
      | none => exact ih _ hnext
      | some data =>
          simp only
          rw [if_neg (by omega)]
          exact ih _ hnext

/-- The loop of `read_block` finds the next good block. -/
theorem run_readBlockLoop (blocks pos : Nat) (dev : Device) :
    match flash.nextGood dev.block blocks pos with
    | none =>
        (flash.run (readBlockLoop part dev.eccFailed blocks pos) dev).1 = none
    | some (found, data) =>
        (flash.run (readBlockLoop part dev.eccFailed blocks pos) dev).1 =
            some data ∧
          (flash.run (readBlockLoop part dev.eccFailed blocks pos)
            dev).2.filePos = found + part.eraseSize := by
  suffices hloop : ∀ before, before = dev.eccFailed →
      match flash.nextGood dev.block blocks pos with
      | none =>
          (flash.run (readBlockLoop part before blocks pos) dev).1 = none
      | some (found, data) =>
          (flash.run (readBlockLoop part before blocks pos) dev).1 =
              some data ∧
            (flash.run (readBlockLoop part before blocks pos) dev).2.filePos =
              found + part.eraseSize from hloop _ rfl
  intro before hbefore
  induction blocks generalizing pos dev with
  | zero => rfl
  | succ blocks ih =>
      have hstats := flash.afterRead_eccFailed pos dev
      rw [run_readBlockLoop_succ, nextGood]
      by_cases hecc : (flash.read pos (dev.block pos)).2 = true
      · rw [if_pos hecc] at hstats ⊢
        have hmoved : before < (flash.afterRead pos dev).eccFailed := by
          omega
        cases flash.takes pos (dev.block pos) with
        | none => exact flash.run_readBlockLoop_moved _ _ hmoved
        | some data =>
            simp only
            rw [if_neg (by omega)]
            exact flash.run_readBlockLoop_moved _ _ hmoved
      · rw [if_neg hecc] at hstats ⊢
        cases htakes : flash.takes pos (dev.block pos) with
        | none =>
            exact ih (pos + part.eraseSize) (flash.afterRead pos dev)
              (by omega)
        | some data =>
            simp only
            rw [if_pos (by omega)]
            exact ⟨rfl, flash.afterRead_filePos htakes⟩

/-- What `read_block` returns, and where it leaves the file position. -/
theorem run_readBlock (dev : Device) :
    match flash.nextGood dev.block (part.blocksFrom dev.filePos)
        dev.filePos with
    | none => (flash.run (readBlock part) dev).1 = none
    | some (found, data) =>
        (flash.run (readBlock part) dev).1 = some data ∧
          (flash.run (readBlock part) dev).2.filePos =
            found + part.eraseSize := by
  have hrun : flash.run (readBlock part) dev = flash.run
      (readBlockLoop part dev.eccFailed (part.blocksFrom dev.filePos)
        dev.filePos) dev := by
    simp [readBlock]
  rw [hrun]
  exact flash.run_readBlockLoop _ _ _

theorem run_readBlock_block (dev : Device) :
    (flash.run (readBlock part) dev).2.block = dev.block := by
  simp only [readBlock, run_bind, run_eccGetStats, run_lseekCur]
  exact flash.run_readBlockLoop_block _ _ _ _

@[simp] theorem run_writeCall (data : Bytes) (dev : Device) :
    flash.run (writeCall data) dev =
      ((flash.program dev.filePos (dev.block dev.filePos) data).2, { dev with
        block := Function.update dev.block dev.filePos
          (flash.programmed dev.filePos (dev.block dev.filePos) data)
        filePos := dev.filePos + data.length }) := rfl

/-- One pass of the retry loop of `write_block`. -/
theorem run_writeAttempts_succ (pos : Nat) (data : Bytes) (retries : Nat)
    (dev : Device) :
    ∃ dev' : Device,
      dev'.block = Function.update dev.block pos
        (flash.attempt pos data (dev.block pos)).2 ∧
      ((flash.attempt pos data (dev.block pos)).1 = true →
        dev'.filePos = pos + part.eraseSize) ∧
      (dev'.filePos = dev.filePos ∨ dev'.filePos = pos ∨
        dev'.filePos = pos + part.eraseSize) ∧
      flash.run (writeAttempts part pos data (retries + 1)) dev =
        if (flash.attempt pos data (dev.block pos)).1 then (true, dev')
        else flash.run (writeAttempts part pos data retries) dev' := by
  rw [writeAttempts]
  by_cases herase : (flash.erase pos (dev.block pos)).2 = true
  · obtain ⟨full, hfull⟩ : ∃ full, full =
        flash.programmed pos (flash.erased pos (dev.block pos)) data :=
      ⟨_, rfl⟩
    have hattempt : flash.attempt pos data (dev.block pos) =
        ((flash.read pos full).1 == some data, full) := by
      simp [attempt, herase, hfull]
    refine ⟨flash.afterRead pos
      { dev with block := Function.update dev.block pos full },
      ?_, ?_, ?_, ?_⟩
    · rw [hattempt, afterRead_block]
    · intro hok
      rw [hattempt, beq_iff_eq] at hok
      simp [afterRead, handler, hok]
    · cases hread : (flash.read pos full).1 with
      | none => simp [afterRead, handler, hread]
      | some verify => simp [afterRead, handler, hread]
    · have hanswer : flash.run (readCall part.eraseSize)
          ⟨Function.update dev.block pos full, pos, dev.eccFailed⟩ =
          ((flash.read pos full).1, flash.afterRead pos
            { dev with block := Function.update dev.block pos full }) := by
        simp [readCall, afterRead, Prog.perform, handler, run]
      simp only [run_bind, run_memErase, herase, if_true, run_lseekSet,
        run_writeCall, Function.update_self, Function.update_idem, ← hfull,
        hanswer, hattempt]
      cases hread : (flash.read pos full).1 with
      | none => simp
      | some verify =>
          by_cases hverify : verify = data
          · simp [hverify]
          · simp [hverify]
  · have hattempt : flash.attempt pos data (dev.block pos) =
        (false, flash.erased pos (dev.block pos)) := by
      simp [attempt, herase]
    refine ⟨{ dev with
      block := Function.update dev.block pos
        (flash.erased pos (dev.block pos)) }, ?_, ?_, Or.inl rfl, ?_⟩
    · rw [hattempt]
    · intro hok
      rw [hattempt] at hok
      cases hok
    · simp [hattempt, herase]

/-- The retry loop does to the device what the attempts do to the block. -/
theorem run_writeAttempts (pos : Nat) (data : Bytes) (retries : Nat)
    (dev : Device) :
    (flash.run (writeAttempts part pos data retries) dev).1 =
        (flash.attempts pos data retries (dev.block pos)).1 ∧
      (flash.run (writeAttempts part pos data retries) dev).2.block =
        Function.update dev.block pos
          (flash.attempts pos data retries (dev.block pos)).2 ∧
      ((flash.attempts pos data retries (dev.block pos)).1 = true →
        (flash.run (writeAttempts part pos data retries) dev).2.filePos =
          pos + part.eraseSize) := by
  induction retries generalizing dev with
  | zero => simp [writeAttempts, attempts]
  | succ retries ih =>
      obtain ⟨dev', hblock, hpos, -, hrun⟩ :=
        flash.run_writeAttempts_succ pos data retries dev
      rw [hrun, attempts]
      by_cases hok : (flash.attempt pos data (dev.block pos)).1 = true
      · simp [hok, hblock, hpos hok]
      · obtain ⟨hresult, hafter, hdone⟩ := ih dev'
        have hhere : dev'.block pos =
            (flash.attempt pos data (dev.block pos)).2 := by
          rw [hblock, Function.update_self]
        rw [hhere] at hresult hafter hdone
        rw [hblock, Function.update_idem] at hafter
        simp only [hok, Bool.false_eq_true, if_false]
        exact ⟨hresult, hafter, hdone⟩

/-- Where the retry loop leaves the file position. -/
theorem run_writeAttempts_filePos (pos : Nat) (data : Bytes) (retries : Nat)
    (dev : Device) :
    (flash.run (writeAttempts part pos data retries) dev).2.filePos =
        dev.filePos ∨
      (flash.run (writeAttempts part pos data retries) dev).2.filePos = pos ∨
      (flash.run (writeAttempts part pos data retries) dev).2.filePos =
        pos + part.eraseSize := by
  induction retries generalizing dev with
  | zero => exact Or.inl rfl
  | succ retries ih =>
      obtain ⟨dev', -, -, hpos, hrun⟩ :=
        flash.run_writeAttempts_succ pos data retries dev
      rw [hrun]
      split
      · exact hpos
      · rcases ih dev' with hsame | hmoved
        · rw [hsame]
          exact hpos
        · exact Or.inr hmoved

theorem read_attempt {pos : Nat} {data : Bytes} {block : Block}
    (hok : (flash.attempt pos data block).1 = true) :
    (flash.read pos (flash.attempt pos data block).2).1 = some data := by
  unfold attempt at hok ⊢
  by_cases herase : (flash.erase pos block).2 = true
  · simp only [herase, if_true, beq_iff_eq] at hok ⊢
    exact hok
  · simp [herase] at hok

/-- What a successful attempt leaves reads back as the data. -/
theorem read_attempts {pos : Nat} {data : Bytes} {retries : Nat}
    {block : Block} (hok : (flash.attempts pos data retries block).1 = true) :
    (flash.read pos (flash.attempts pos data retries block).2).1 =
      some data := by
  induction retries generalizing block with
  | zero => simp [attempts] at hok
  | succ retries ih =>
      rw [attempts] at hok ⊢
      by_cases hone : (flash.attempt pos data block).1 = true
      · simp only [hone, if_true] at hok ⊢
        exact flash.read_attempt hone
      · simp only [hone, Bool.false_eq_true, if_false] at hok ⊢
        exact ih hok

end Flash

end Mtd

end MetaOS
