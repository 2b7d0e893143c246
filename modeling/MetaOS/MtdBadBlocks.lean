/-
The blocks that `write_block` passes over.

Every call looks for a block from the file position on and records the blocks
it passes over; a call that finds none records everything up to the end of the
partition, and a later call on the same context may record some of that again.
`mtd_find_write_start` scans the records in their order.
-/
import MetaOS.MtdWriter
import Mathlib.Order.Bounds.Defs

namespace MetaOS

namespace Mtd

variable (part : Partition)

/-- The scan of `mtd_find_write_start`. -/
def findWriteStart : List Nat → Nat → Nat
  | [], pos => pos
  | offset :: offsets, pos =>
      if offset = pos then findWriteStart offsets (pos + part.eraseSize)
      else if offset > pos then pos
      else findWriteStart offsets pos

def mtdFindWriteStart (ctx : WriteContext) (pos : Nat) : Nat :=
  findWriteStart part ctx.badBlockOffsets pos

/-- Successive `write_block` calls on one context, whether they succeed or
not. -/
def writeBlocks : WriteContext → List Bytes →
    MtdProg (List Bool × WriteContext)
  | ctx, [] => pure ([], ctx)
  | ctx, data :: datas => do
      let (ok, ctx) ← writeBlock part ctx data
      let (oks, ctx) ← writeBlocks ctx datas
      pure (ok :: oks, ctx)

variable {part} (flash : Flash part)

/-- A block that `write_block` passes over: it is marked bad, or it fails
twice. -/
def PassedOver (block : Nat → Block) (data : Bytes) (pos : Nat) : Prop :=
  0 < flash.mark pos ∨ (flash.attempts pos data 2 (block pos)).1 = false

/-- One call of `write_block` between two states of its context and the
device: it passes over `count` blocks from the file position on. -/
structure BlockCall (data : Bytes) (ctx : WriteContext) (dev : Device)
    (count : Nat) (ok : Bool) (ctx' : WriteContext) (dev' : Device) :
    Prop where
  passed : ∀ i < count,
    PassedOver flash dev.block data (dev.filePos + i * part.eraseSize)
  recorded : ctx'.badBlockOffsets = ctx.badBlockOffsets ++
    List.range' dev.filePos count part.eraseSize
  inside : 0 < count →
    dev.filePos + count * part.eraseSize ≤ part.limit
  found : ok = true →
    dev.filePos + (count + 1) * part.eraseSize ≤ part.limit ∧
      ¬ PassedOver flash dev.block data
        (dev.filePos + count * part.eraseSize) ∧
      (flash.read (dev.filePos + count * part.eraseSize)
        (dev'.block (dev.filePos + count * part.eraseSize))).1 = some data ∧
      dev'.filePos = dev.filePos + (count + 1) * part.eraseSize
  failed : ok = false →
    part.limit < dev.filePos + (count + 1) * part.eraseSize ∧
      ∃ i, dev'.filePos = dev.filePos + i * part.eraseSize

variable {flash}

theorem PassedOver.congr {block block' : Nat → Block} {data : Bytes}
    {pos : Nat} (hsame : block' pos = block pos)
    (hpassed : PassedOver flash block data pos) :
    PassedOver flash block' data pos := by
  rw [PassedOver, hsame]
  exact hpassed

variable (flash) in
/-- The loop of `write_block` with `blocks` blocks left from `pos` on. -/
structure LoopCall (data : Bytes) (blocks pos : Nat) (ctx : WriteContext)
    (dev : Device) (count : Nat) (ok : Bool) (ctx' : WriteContext)
    (dev' : Device) : Prop where
  passed : ∀ i < count,
    PassedOver flash dev.block data (pos + i * part.eraseSize)
  recorded : ctx'.badBlockOffsets = ctx.badBlockOffsets ++
    List.range' pos count part.eraseSize
  found : ok = true → count < blocks ∧
    ¬ PassedOver flash dev.block data (pos + count * part.eraseSize) ∧
    (flash.read (pos + count * part.eraseSize)
      (dev'.block (pos + count * part.eraseSize))).1 = some data ∧
    dev'.filePos = pos + (count + 1) * part.eraseSize
  failed : ok = false → count = blocks ∧
    (dev'.filePos = dev.filePos ∨
      ∃ i, dev'.filePos = pos + i * part.eraseSize)

/-- The block at `pos` was passed over, and the loop went on behind it. -/
theorem LoopCall.past {data : Bytes} {blocks pos count : Nat}
    {ctx ctx' : WriteContext} {dev mid dev' : Device} {ok : Bool}
    (hrest : LoopCall flash data blocks (pos + part.eraseSize)
      (addBadBlockOffset ctx pos) mid count ok ctx' dev')
    (hpassed : PassedOver flash dev.block data pos)
    (hframe : ∀ q, q ≠ pos → mid.block q = dev.block q)
    (hpos : mid.filePos = dev.filePos ∨
      ∃ i, mid.filePos = pos + i * part.eraseSize) :
    LoopCall flash data (blocks + 1) pos ctx dev (count + 1) ok ctx' dev' := by
  have hsize := part.eraseSize_pos
  have hshift : ∀ i, pos + part.eraseSize + i * part.eraseSize =
      pos + (i + 1) * part.eraseSize := by
    intro i
    rw [Nat.succ_mul]
    omega
  have hbehind : ∀ i, mid.block (pos + (i + 1) * part.eraseSize) =
      dev.block (pos + (i + 1) * part.eraseSize) := by
    intro i
    apply hframe
    rw [Nat.succ_mul]
    omega
  obtain ⟨hmore, hrecorded, hfound, hfailed⟩ := hrest
  simp only [hshift] at hmore hfound hfailed
  constructor
  · intro i hi
    cases i with
    | zero =>
        rw [Nat.zero_mul]
        exact hpassed
    | succ i => exact (hmore i (by omega)).congr (hbehind i).symm
  · rw [hrecorded, addBadBlockOffset, List.append_assoc, List.range'_succ]
    rfl
  · intro hok
    obtain ⟨hless, hfree, hread, hstop⟩ := hfound hok
    refine ⟨Nat.succ_lt_succ hless, ?_, hread, hstop⟩
    intro hagain
    exact hfree (hagain.congr (hbehind count))
  · intro hfail
    obtain ⟨hall, hstop⟩ := hfailed hfail
    refine ⟨congrArg (· + 1) hall, ?_⟩
    rcases hstop with hsame | ⟨i, hmoved⟩
    · rw [hsame]
      exact hpos
    · exact Or.inr ⟨i + 1, hmoved⟩

/-- The loop ends at `pos`. -/
theorem LoopCall.here {data : Bytes} {blocks pos : Nat} {ctx : WriteContext}
    {dev dev' : Device} (hfree : ¬ PassedOver flash dev.block data pos)
    (hread : (flash.read pos (dev'.block pos)).1 = some data)
    (hstop : dev'.filePos = pos + part.eraseSize) :
    LoopCall flash data (blocks + 1) pos ctx dev 0 true ctx dev' := by
  constructor
  · intro i hi
    exact absurd hi (Nat.not_lt_zero i)
  · rw [List.range'_zero, List.append_nil]
  · intro _
    rw [Nat.zero_mul, Nat.add_zero, Nat.zero_add, Nat.one_mul]
    exact ⟨Nat.succ_pos blocks, hfree, hread, hstop⟩
  · intro hfail
    cases hfail

theorem run_writeBlockLoop_call {data : Bytes} {blocks pos : Nat}
    {ctx ctx' : WriteContext} {dev dev' : Device} {ok : Bool}
    (hrun : flash.run (writeBlockLoop part data blocks pos ctx) dev =
      ((ok, ctx'), dev')) :
    ∃ count, LoopCall flash data blocks pos ctx dev count ok ctx' dev' := by
  induction blocks generalizing pos ctx dev with
  | zero =>
      cases hrun
      refine ⟨0, ?_, ?_, ?_, fun _ => ⟨rfl, Or.inl rfl⟩⟩
      · intro i hi
        exact absurd hi (Nat.not_lt_zero i)
      · rw [List.range'_zero, List.append_nil]
      · intro hok
        cases hok
  | succ blocks ih =>
      rw [run_writeBlockLoop_succ] at hrun
      by_cases hmark : 0 < flash.mark pos
      · rw [if_pos hmark] at hrun
        obtain ⟨count, hrest⟩ := ih hrun
        exact ⟨count + 1, hrest.past (Or.inl hmark) (fun _ _ => rfl)
          (Or.inl rfl)⟩
      · rw [if_neg hmark] at hrun
        obtain ⟨hresult, hblock, hdone⟩ :=
          flash.run_writeAttempts pos data 2 dev
        simp only at hrun
        by_cases htried :
            (flash.run (writeAttempts part pos data 2) dev).1 = true
        · rw [if_pos htried] at hrun
          cases hrun
          rw [hresult] at htried
          refine ⟨0, LoopCall.here ?_ ?_ (hdone htried)⟩
          · simp [PassedOver, hmark, htried]
          · rw [hblock, Function.update_self]
            exact flash.read_attempts htried
        · rw [if_neg htried] at hrun
          obtain ⟨count, hrest⟩ := ih hrun
          rw [hresult] at htried
          refine ⟨count + 1, hrest.past ?_ ?_ ?_⟩
          · exact Or.inr (Bool.eq_false_iff.mpr htried)
          · intro q hq
            simp [hblock, hq]
          · rcases flash.run_writeAttempts_filePos pos data 2 dev with
              hsame | hhere | hnext
            · exact Or.inl hsame
            · exact Or.inr ⟨0, by simpa using hhere⟩
            · exact Or.inr ⟨1, by simpa using hnext⟩

/-- One call of `write_block`. -/
theorem run_writeBlock_call {data : Bytes} {ctx ctx' : WriteContext}
    {dev dev' : Device} {ok : Bool}
    (hrun : flash.run (writeBlock part ctx data) dev = ((ok, ctx'), dev')) :
    ∃ count, BlockCall flash data ctx dev count ok ctx' dev' := by
  have hloop : flash.run (writeBlock part ctx data) dev = flash.run
      (writeBlockLoop part data (part.blocksFrom dev.filePos) dev.filePos
        ctx) dev := by
    simp [writeBlock]
  rw [hloop] at hrun
  obtain ⟨count, hcall⟩ := run_writeBlockLoop_call hrun
  have hroom : ∀ n, 0 < n → n ≤ part.blocksFrom dev.filePos →
      dev.filePos + n * part.eraseSize ≤ part.limit := by
    intro n hpos hn
    have hall : dev.filePos + part.blocksFrom dev.filePos * part.eraseSize ≤
        part.limit := part.blocksFrom_mul_le (by omega)
    have hmul := Nat.mul_le_mul_right part.eraseSize hn
    omega
  refine ⟨count, hcall.passed, hcall.recorded, ?_, ?_, ?_⟩
  · intro hsome
    cases ok with
    | true => exact hroom count hsome (Nat.le_of_lt (hcall.found rfl).1)
    | false => exact hroom count hsome (le_of_eq (hcall.failed rfl).1)
  · intro hok
    obtain ⟨hless, hrest⟩ := hcall.found hok
    exact ⟨hroom (count + 1) (Nat.succ_pos count) hless, hrest⟩
  · intro hfail
    obtain ⟨hall, hstop⟩ := hcall.failed hfail
    constructor
    · have hlast := Nat.lt_div_mul_add part.eraseSize_pos
        (a := part.limit - dev.filePos)
      rw [hall, Partition.blocksFrom, Nat.succ_mul]
      omega
    · rcases hstop with hsame | hmoved
      · exact ⟨0, by rw [hsame, Nat.zero_mul, Nat.add_zero]⟩
      · exact hmoved

variable (part)

/-- The records of a context that may have seen a failure: `first` is what was
recorded up to the end of the first call that failed, `again` what later calls
recorded once more. -/
structure Records (failed : Bool) (offsets : List Nat) (filePos : Nat)
    (first again : List Nat) : Prop where
  split : offsets = first ++ again
  sorted : first.Pairwise (· < ·)
  aligned : ∀ pos ∈ first, part.eraseSize ∣ pos
  repeated : ∀ pos ∈ again, pos ∈ first
  position : part.eraseSize ∣ filePos
  below : failed = false → again = [] ∧ ∀ pos ∈ first, pos < filePos
  complete : failed = true → ∀ pos, part.eraseSize ∣ pos → filePos ≤ pos →
    pos + part.eraseSize ≤ part.limit → pos ∈ first

variable {part}

theorem BlockCall.aligned {data : Bytes} {ctx ctx' : WriteContext}
    {dev dev' : Device} {count : Nat} {ok : Bool}
    (hcall : BlockCall flash data ctx dev count ok ctx' dev')
    (hpos : part.eraseSize ∣ dev.filePos) :
    part.eraseSize ∣ dev'.filePos ∧ dev.filePos ≤ dev'.filePos ∧
      ∀ pos ∈ List.range' dev.filePos count part.eraseSize,
        part.eraseSize ∣ pos := by
  obtain ⟨stop, hstop⟩ : ∃ i,
      dev'.filePos = dev.filePos + i * part.eraseSize := by
    cases ok with
    | true => exact ⟨count + 1, (hcall.found rfl).2.2.2⟩
    | false => exact (hcall.failed rfl).2
  refine ⟨?_, by omega, ?_⟩
  · rw [hstop]
    exact Nat.dvd_add hpos (Nat.dvd_mul_left _ stop)
  · intro pos hmem
    obtain ⟨i, -, rfl⟩ := List.mem_range'.mp hmem
    exact Nat.dvd_add hpos (Nat.dvd_mul_right _ i)

/-- As long as no call has failed, the next one records blocks behind all
others. -/
theorem Records.call {ok : Bool} {first again : List Nat}
    {data : Bytes} {ctx ctx' : WriteContext} {dev dev' : Device} {count : Nat}
    (hrecords : Records part false ctx.badBlockOffsets dev.filePos first
      again)
    (hcall : BlockCall flash data ctx dev count ok ctx' dev') :
    Records part (!ok) ctx'.badBlockOffsets dev'.filePos
      (first ++ List.range' dev.filePos count part.eraseSize) [] := by
  have hsize := part.eraseSize_pos
  obtain ⟨hposition, -, haligned⟩ := hcall.aligned hrecords.position
  obtain ⟨hnone, hbelow⟩ := hrecords.below rfl
  constructor
  · rw [hcall.recorded, hrecords.split, hnone, List.append_nil,
      List.append_nil]
  · rw [List.pairwise_append]
    refine ⟨hrecords.sorted,
      List.pairwise_lt_range' part.eraseSize hsize, ?_⟩
    intro pos hpos later hlater
    obtain ⟨i, -, rfl⟩ := List.mem_range'.mp hlater
    have hbefore := hbelow pos hpos
    omega
  · intro pos hpos
    rcases List.mem_append.mp hpos with hold | hnew
    · exact hrecords.aligned pos hold
    · exact haligned pos hnew
  · exact fun _ hpos => absurd hpos List.not_mem_nil
  · exact hposition
  · intro hok
    obtain ⟨-, -, -, hstop⟩ := hcall.found (by simpa using hok)
    refine ⟨rfl, ?_⟩
    intro pos hpos
    rw [hstop]
    rcases List.mem_append.mp hpos with hold | hnew
    · have hbefore := hbelow pos hold
      omega
    · obtain ⟨i, hi, rfl⟩ := List.mem_range'.mp hnew
      rw [Nat.mul_comm part.eraseSize i]
      exact Nat.add_lt_add_left
        (Nat.mul_lt_mul_of_pos_right (Nat.lt_succ_of_lt hi) hsize) _
  · intro hfail pos hdvd hle hroom
    obtain ⟨hend, hmoved⟩ := hcall.failed (by simpa using hfail)
    obtain ⟨i, hi⟩ := Nat.dvd_sub hdvd hrecords.position
    have hpos : pos = dev.filePos + part.eraseSize * i := by omega
    apply List.mem_append_right
    refine List.mem_range'.mpr ⟨i, ?_, hpos⟩
    by_contra hlarge
    have hmul := Nat.mul_le_mul_left part.eraseSize
      (Nat.le_of_not_lt hlarge)
    rw [Nat.succ_mul, Nat.mul_comm count] at hend
    omega

/-- After a failure every block up to the end is recorded, and no call
records a new one. -/
theorem Records.callAgain {ok : Bool} {first again : List Nat}
    {data : Bytes} {ctx ctx' : WriteContext} {dev dev' : Device} {count : Nat}
    (hrecords : Records part true ctx.badBlockOffsets dev.filePos first
      again)
    (hcall : BlockCall flash data ctx dev count ok ctx' dev') :
    Records part true ctx'.badBlockOffsets dev'.filePos first
      (again ++ List.range' dev.filePos count part.eraseSize) := by
  obtain ⟨hposition, hle, haligned⟩ := hcall.aligned hrecords.position
  constructor
  · rw [hcall.recorded, hrecords.split, List.append_assoc]
  · exact hrecords.sorted
  · exact hrecords.aligned
  · intro pos hpos
    rcases List.mem_append.mp hpos with hold | hnew
    · exact hrecords.repeated pos hold
    · have hdvd := haligned pos hnew
      obtain ⟨i, hi, rfl⟩ := List.mem_range'.mp hnew
      have hinside := hcall.inside (by omega)
      have hmul := Nat.mul_le_mul_left part.eraseSize (Nat.succ_le_of_lt hi)
      rw [Nat.mul_succ] at hmul
      rw [Nat.mul_comm count] at hinside
      exact hrecords.complete rfl _ hdvd (by omega) (by omega)
  · exact hposition
  · intro hok
    cases hok
  · intro _ pos hdvd hbehind
    exact hrecords.complete rfl pos hdvd (hle.trans hbehind)

variable (flash) in
/-- The records after any sequence of calls. -/
theorem writeBlocks_records (datas : List Bytes) {failed : Bool}
    {ctx : WriteContext} {dev : Device} {first again : List Nat}
    (hrecords : Records part failed ctx.badBlockOffsets dev.filePos first
      again) :
    ∃ first' again', Records part
      (failed || (flash.run (writeBlocks part ctx datas) dev).1.1.any (!·))
      (flash.run (writeBlocks part ctx datas) dev).1.2.badBlockOffsets
      (flash.run (writeBlocks part ctx datas) dev).2.filePos first' again' := by
  induction datas generalizing failed ctx dev first again with
  | nil =>
      simp only [writeBlocks, Prog.pure_eq_ret, Flash.run_ret, List.any_nil,
        Bool.or_false]
      exact ⟨first, again, hrecords⟩
  | cons data datas ih =>
      obtain ⟨⟨⟨ok, ctx'⟩, dev'⟩, hrun⟩ :
          ∃ r, flash.run (writeBlock part ctx data) dev = r := ⟨_, rfl⟩
      obtain ⟨count, hcall⟩ := run_writeBlock_call hrun
      simp only [writeBlocks, Prog.pure_eq_ret, Flash.run_bind, hrun,
        Flash.run_ret, List.any_cons, ← Bool.or_assoc]
      cases failed with
      | false => exact ih (hrecords.call hcall)
      | true => exact ih (hrecords.callAgain hcall)

/-- Records that do not mention the result do not change it. -/
theorem findWriteStart_append {first again : List Nat} {pos : Nat}
    (hnew : findWriteStart part first pos ∉ again) :
    findWriteStart part (first ++ again) pos =
      findWriteStart part first pos := by
  induction first generalizing pos with
  | nil =>
      rw [List.nil_append]
      rw [findWriteStart] at hnew ⊢
      induction again with
      | nil => rfl
      | cons offset again ih =>
          obtain ⟨hne, hrest⟩ := List.ne_and_not_mem_of_not_mem_cons hnew
          rw [findWriteStart, if_neg hne.symm, ih hrest, ite_self]
  | cons offset first ih =>
      rw [List.cons_append]
      rw [findWriteStart] at hnew ⊢
      rw [findWriteStart]
      split
      · rename_i heq
        rw [if_pos heq] at hnew
        exact ih hnew
      · rename_i hne
        rw [if_neg hne] at hnew
        split
        · rfl
        · rename_i hle
          rw [if_neg hle] at hnew
          exact ih hnew

/-- In strictly increasing records the scan may stop early. -/
theorem findWriteStart_sorted {offsets : List Nat} {pos : Nat}
    (hsorted : offsets.Pairwise (· < ·)) (hpos : part.eraseSize ∣ pos) :
    IsLeast { q | part.eraseSize ∣ q ∧ pos ≤ q ∧ q ∉ offsets }
      (findWriteStart part offsets pos) := by
  have hsize := part.eraseSize_pos
  induction offsets generalizing pos with
  | nil => exact ⟨⟨hpos, le_rfl, List.not_mem_nil⟩, fun q hq => hq.2.1⟩
  | cons offset offsets ih =>
      obtain ⟨hhead, htail⟩ := List.pairwise_cons.mp hsorted
      rw [findWriteStart]
      split
      · rename_i heq
        obtain ⟨⟨hdvd, hle, hnot⟩, hleast⟩ :=
          ih htail (Nat.dvd_add hpos (dvd_refl part.eraseSize))
        refine ⟨⟨hdvd, by omega, ?_⟩, ?_⟩
        · exact List.not_mem_cons_of_ne_of_not_mem (by omega) hnot
        · intro q hq
          obtain ⟨hqdvd, hqle, hqnot⟩ := hq
          obtain ⟨hne, hrest⟩ := List.ne_and_not_mem_of_not_mem_cons hqnot
          have hstep := Nat.le_of_dvd (by omega) (Nat.dvd_sub hqdvd hpos)
          exact hleast ⟨hqdvd, by omega, hrest⟩
      · rename_i hne
        split
        · rename_i hlarge
          refine ⟨⟨hpos, le_rfl, ?_⟩, fun q hq => hq.2.1⟩
          intro hmem
          rcases List.mem_cons.mp hmem with heq | hrest
          · omega
          · have hbefore := hhead pos hrest
            omega
        · obtain ⟨⟨hdvd, hle, hnot⟩, hleast⟩ := ih htail hpos
          refine ⟨⟨hdvd, hle, ?_⟩, ?_⟩
          · exact List.not_mem_cons_of_ne_of_not_mem (by omega) hnot
          · intro q hq
            exact hleast ⟨hq.1, hq.2.1,
              (List.ne_and_not_mem_of_not_mem_cons hq.2.2).2⟩

/-- What each call of `write_block` does on a context that has seen any calls
before, successful or not; and what the records are good for. -/
theorem writeBlocks_call (flash : Flash part) (dev : Device)
    (datas : List Bytes) (data : Bytes) :
    let before := flash.run (writeBlocks part ⟨[], []⟩ datas)
      { dev with filePos := 0 }
    let after := flash.run (writeBlock part before.1.2 data) before.2
    (∃ count, BlockCall flash data before.1.2 before.2 count after.1.1
      after.1.2 after.2) ∧
    (∀ offset ∈ after.1.2.badBlockOffsets, part.eraseSize ∣ offset) ∧
    (before.1.1.all id = true →
      after.1.2.badBlockOffsets.Pairwise (· < ·)) ∧
    ∀ pos, part.eraseSize ∣ pos →
      IsLeast { q | part.eraseSize ∣ q ∧ pos ≤ q ∧
          q ∉ after.1.2.badBlockOffsets }
        (mtdFindWriteStart part after.1.2 pos) := by
  intro before after
  have hfresh : Records part false (⟨[], []⟩ : WriteContext).badBlockOffsets
      { dev with filePos := 0 }.filePos [] [] := by
    constructor <;> simp
  obtain ⟨first, again, hrecords⟩ : ∃ first again,
      Records part (false || before.1.1.any (!·))
        before.1.2.badBlockOffsets before.2.filePos first again :=
    writeBlocks_records flash datas hfresh
  obtain ⟨count, hcall⟩ : ∃ count, BlockCall flash data before.1.2 before.2
      count after.1.1 after.1.2 after.2 := run_writeBlock_call rfl
  have hall : before.1.1.any (!·) = false ↔ before.1.1.all id = true := by
    simp
  rw [Bool.false_or] at hrecords
  obtain ⟨failed, first', again', hafter, hsorted⟩ : ∃ failed first' again',
      Records part failed after.1.2.badBlockOffsets after.2.filePos first'
        again' ∧ (before.1.1.all id = true → again' = []) := by
    cases hfailed : before.1.1.any (!·) with
    | false =>
        rw [hfailed] at hrecords
        exact ⟨_, _, [], hrecords.call hcall, fun _ => rfl⟩
    | true =>
        rw [hfailed] at hrecords
        refine ⟨_, _, _, hrecords.callAgain hcall, fun hok => ?_⟩
        rw [hall.mpr hok] at hfailed
        cases hfailed
  have hsplit := hafter.split
  refine ⟨⟨count, hcall⟩, ?_, ?_, ?_⟩
  · intro offset hoffset
    rw [hsplit] at hoffset
    rcases List.mem_append.mp hoffset with hold | hnew
    · exact hafter.aligned offset hold
    · exact hafter.aligned offset (hafter.repeated offset hnew)
  · intro hok
    rw [hsplit, hsorted hok, List.append_nil]
    exact hafter.sorted
  · intro pos hpos
    have hleast := findWriteStart_sorted hafter.sorted hpos
    have hmem : ∀ q, q ∉ first' ++ again' ↔ q ∉ first' := by
      intro q
      rw [List.mem_append, not_or]
      exact ⟨And.left, fun hq => ⟨hq, fun h => hq (hafter.repeated q h)⟩⟩
    have hnew : findWriteStart part first' pos ∉ again' :=
      fun h => hleast.1.2.2 (hafter.repeated _ h)
    rw [mtdFindWriteStart, hsplit, findWriteStart_append hnew]
    simp only [hmem]
    exact hleast

namespace MtdBadBlocksWitness

/-- A partition of one block that is marked bad. -/
def badPart : Partition := ⟨2, 2, Nat.two_pos⟩

def badFlash : Flash badPart :=
  { Flash.faultFree badPart with mark := fun _ => 1 }

/-- Two calls that find no block record the same block twice. -/
theorem recorded_twice :
    ¬ (badFlash.run (writeBlocks badPart ⟨[], []⟩ [[1, 2], [3, 4]])
        ⟨fun _ => ⟨[], 0⟩, 0, 0⟩).1.2.badBlockOffsets.Pairwise (· < ·) := by
  decide

end MtdBadBlocksWitness

end Mtd

end MetaOS
