/-
The round trip through raw flash.

Writer and reader decide independently which blocks to skip.  `Agrees` looks
at the data and at the faults of the blocks only, and holds exactly when the
reader finds the blocks the writer used.
-/
import MetaOS.MtdReader
import MetaOS.MtdWriter

namespace MetaOS

namespace Mtd

variable {part : Partition} (flash : Flash part)

/-- The reader passes over the block and goes on looking. -/
def Flash.Skips (pos : Nat) (block : Block) : Prop :=
  (flash.read pos block).2 = false ∧ flash.takes pos block = none

/-- The reader can take a block that holds `data`: no correction fails on it,
it is not marked, and it is not all zero. -/
def Flash.Accepts (pos : Nat) (data : Bytes) (block : Block) : Prop :=
  (flash.read pos block).2 = false ∧ flash.mark pos = 0 ∧
    data.any (· != 0) = true

/-- The condition under which writer and reader settle on the same blocks,
for blocks of data still to be placed from `pos` on. -/
def Agrees (before : Nat → Block) : (blocks pos : Nat) → List Bytes → Prop
  | _, _, [] => True
  | 0, _, _ :: _ => True
  | blocks + 1, pos, data :: datas =>
      if 0 < flash.mark pos then
        flash.Skips pos (before pos) ∧
          Agrees before blocks (pos + part.eraseSize) (data :: datas)
      else if (flash.put pos data (before pos)).1 then
        flash.Accepts pos data (flash.put pos data (before pos)).2 ∧
          Agrees before blocks (pos + part.eraseSize) datas
      else
        flash.Skips pos (flash.put pos data (before pos)).2 ∧
          Agrees before blocks (pos + part.eraseSize) (data :: datas)

/-- The blocks below `stop` that the writer did not pass over. -/
def usedOffsets (part : Partition) (ctx : WriteContext) (stop : Nat) :
    List Nat :=
  ((List.range (stop / part.eraseSize)).map (· * part.eraseSize)).filter
    (· ∉ ctx.badBlockOffsets)

/-- The round trip after a write session: any reads that ask for as many
bytes as were written return them, and successive `read_block` calls return
exactly the blocks that `write_block` used. -/
def RoundTrip (ctx : WriteContext) (dev : Device) (data : Bytes) : Prop :=
  (∀ lens : List Nat, lens.sum = data.length →
    ∃ pieces, (flash.run (readSession part lens) dev).1 = some pieces ∧
      pieces.map List.length = lens ∧ pieces.flatten = data) ∧
  (flash.run (readOffsets part (usedOffsets part ctx dev.filePos).length)
      { dev with filePos := 0 }).1 =
    some (usedOffsets part ctx dev.filePos)

theorem Flash.read_put {pos : Nat} {data : Bytes} {block : Block}
    (hok : (flash.put pos data block).1 = true) :
    (flash.read pos (flash.put pos data block).2).1 = some data := by
  by_cases htried : (flash.attempts pos data 2 block).1 = true
  · rw [attempts_of_put htried]
    exact flash.read_attempts htried
  · rw [put_of_attempts_false (by simpa using htried)] at hok
    cases hok

/-- A block that the writer used is taken by the reader exactly when it
accepts it. -/
theorem Flash.takes_put {pos : Nat} {data : Bytes} {block : Block}
    (hok : (flash.put pos data block).1 = true) :
    flash.takes pos (flash.put pos data block).2 =
      if flash.mark pos = 0 ∧ data.any (· != 0) = true then some data
      else none := by
  simp only [Flash.takes, flash.read_put hok]

section Search

variable {block : Nat → Block} {count pos : Nat}

theorem goodBlocks_le {found : List (Nat × Bytes)}
    (hfound : goodBlocks flash block count pos = some found) :
    ∀ entry ∈ found, pos ≤ entry.1 := by
  induction count generalizing pos found with
  | zero =>
      cases hfound
      simp
  | succ count ih =>
      obtain ⟨offset, data, rest, hnext, hrest, rfl⟩ :=
        goodBlocks_succ flash hfound
      have hle := nextGood_le flash hnext
      intro entry hentry
      rcases List.mem_cons.mp hentry with rfl | hmem
      · exact hle
      · have hlater := ih hrest entry hmem
        omega

variable (hroom : pos + part.eraseSize ≤ part.limit)
include hroom

theorem goodBlocks_skip (hskip : flash.Skips pos (block pos)) :
    goodBlocks flash block (count + 1) pos =
      goodBlocks flash block (count + 1) (pos + part.eraseSize) := by
  rw [goodBlocks, goodBlocks, part.blocksFrom_succ hroom, Flash.nextGood]
  simp [hskip.1, hskip.2]

theorem goodBlocks_take {data : Bytes}
    (hecc : (flash.read pos (block pos)).2 = false)
    (htakes : flash.takes pos (block pos) = some data) :
    goodBlocks flash block (count + 1) pos =
      (goodBlocks flash block count (pos + part.eraseSize)).map
        ((pos, data) :: ·) := by
  rw [goodBlocks, part.blocksFrom_succ hroom, Flash.nextGood]
  simp [hecc, htakes]

theorem goodBlocks_stuck (hecc : (flash.read pos (block pos)).2 = true) :
    goodBlocks flash block (count + 1) pos = none := by
  rw [goodBlocks, part.blocksFrom_succ hroom, Flash.nextGood]
  simp [hecc]

end Search

section Agreement

variable {flash} {before after : Nat → Block} {pos stop : Nat}
  {datas : List Bytes} {bad used : List Nat}

theorem le_of_later {size : Nat} {later : List Nat}
    (hlater : ∀ q ∈ later, pos + size ≤ q) : ∀ q ∈ later, pos ≤ q :=
  fun q hq => (Nat.le_add_right pos size).trans (hlater q hq)

theorem le_of_cons_later {size : Nat} {later : List Nat}
    (hlater : ∀ q ∈ later, pos + size ≤ q) : ∀ q ∈ pos :: later, pos ≤ q :=
  List.forall_mem_cons.mpr ⟨le_rfl, le_of_later hlater⟩

theorem Written.used_ge
    (hwritten : Written flash before after pos datas bad used stop) :
    (∀ q ∈ bad, pos ≤ q) ∧ (∀ q ∈ used, pos ≤ q) ∧
      used.length = datas.length := by
  induction hwritten with
  | done => simp
  | marked _ _ _ _ ih =>
      obtain ⟨hbad, hused, hlength⟩ := ih
      exact ⟨le_of_cons_later hbad, le_of_later hused, hlength⟩
  | givenUp _ _ _ _ _ ih =>
      obtain ⟨hbad, hused, hlength⟩ := ih
      exact ⟨le_of_cons_later hbad, le_of_later hused, hlength⟩
  | used _ _ _ _ _ ih =>
      obtain ⟨hbad, hused, hlength⟩ := ih
      refine ⟨le_of_later hbad, le_of_cons_later hused, ?_⟩
      rw [List.length_cons, hlength]
      rfl

/-- Under the condition, the reader finds the writer's blocks. -/
theorem Written.goodBlocks_of_agrees
    (hwritten : Written flash before after pos datas bad used stop)
    (hagrees : Agrees flash before (part.blocksFrom pos) pos datas) :
    goodBlocks flash after datas.length pos = some (used.zip datas) := by
  induction hwritten with
  | done => rfl
  | marked hroom hmark hleft _ ih =>
      rw [part.blocksFrom_succ hroom, Agrees, if_pos hmark] at hagrees
      obtain ⟨hskip, hrest⟩ := hagrees
      rw [← hleft] at hskip
      rw [List.length_cons, goodBlocks_skip flash hroom hskip]
      exact ih hrest
  | givenUp hroom hmark hfail hleft _ ih =>
      rw [part.blocksFrom_succ hroom, Agrees, if_neg hmark,
        if_neg (by simp [hfail])] at hagrees
      obtain ⟨hskip, hrest⟩ := hagrees
      rw [← hleft] at hskip
      rw [List.length_cons, goodBlocks_skip flash hroom hskip]
      exact ih hrest
  | used hroom hmark hok hleft _ ih =>
      rw [part.blocksFrom_succ hroom, Agrees, if_neg hmark, if_pos hok]
        at hagrees
      obtain ⟨⟨hecc, hunmarked, hsome⟩, hrest⟩ := hagrees
      have htakes := flash.takes_put hok
      rw [if_pos ⟨hunmarked, hsome⟩] at htakes
      rw [← hleft] at htakes hecc
      rw [List.length_cons, goodBlocks_take flash hroom hecc htakes, ih hrest]
      rfl

/-- If the reader finds the writer's blocks, the condition holds. -/
theorem Written.agrees_of_goodBlocks
    (hwritten : Written flash before after pos datas bad used stop)
    (hfound : (goodBlocks flash after datas.length pos).map
      (List.map Prod.fst) = some used) :
    Agrees flash before (part.blocksFrom pos) pos datas := by
  have hsize := part.eraseSize_pos
  induction hwritten with
  | done =>
      rw [Agrees]
      trivial
  | @marked pos _ data datas _ _ hroom hmark hleft _ ih =>
      rw [part.blocksFrom_succ hroom, Agrees, if_pos hmark, ← hleft]
      rw [List.length_cons] at hfound
      have hskip : flash.Skips pos (after pos) := by
        constructor
        · by_contra hecc
          rw [goodBlocks_stuck flash hroom (by simpa using hecc)] at hfound
          cases hfound
        · have hne : ¬ flash.mark pos = 0 := by omega
          unfold Flash.takes
          cases (flash.read pos (after pos)).1 with
          | none => rfl
          | some data => simp [hne]
      rw [goodBlocks_skip flash hroom hskip] at hfound
      exact ⟨hskip, ih hfound⟩
  | @givenUp pos _ data datas _ used hroom hmark hfail hleft hnext ih =>
      rw [part.blocksFrom_succ hroom, Agrees, if_neg hmark,
        if_neg (by simp [hfail]), ← hleft]
      rw [List.length_cons] at hfound
      have hecc : (flash.read pos (after pos)).2 = false := by
        by_contra hecc
        rw [goodBlocks_stuck flash hroom (by simpa using hecc)] at hfound
        cases hfound
      have hskip : flash.Skips pos (after pos) := by
        refine ⟨hecc, ?_⟩
        cases htakes : flash.takes pos (after pos) with
        | none => rfl
        | some data =>
            exfalso
            rw [goodBlocks_take flash hroom hecc htakes, Option.map_map]
              at hfound
            obtain ⟨rest, -, hused⟩ := Option.map_eq_some_iff.mp hfound
            have hle := hnext.used_ge.2.1 pos (by rw [← hused]; simp)
            omega
      rw [goodBlocks_skip flash hroom hskip] at hfound
      exact ⟨hskip, ih hfound⟩
  | @used pos _ data datas _ used hroom hmark hok hleft hnext ih =>
      rw [part.blocksFrom_succ hroom, Agrees, if_neg hmark, if_pos hok,
        ← hleft]
      rw [List.length_cons] at hfound
      have hecc : (flash.read pos (after pos)).2 = false := by
        by_contra hecc
        rw [goodBlocks_stuck flash hroom (by simpa using hecc)] at hfound
        cases hfound
      have htakes := flash.takes_put hok
      rw [← hleft] at htakes
      by_cases haccept : flash.mark pos = 0 ∧ data.any (· != 0) = true
      · rw [if_pos haccept] at htakes
        rw [goodBlocks_take flash hroom hecc htakes, Option.map_map] at hfound
        obtain ⟨rest, hrest, hused⟩ := Option.map_eq_some_iff.mp hfound
        refine ⟨⟨hecc, haccept⟩, ih ?_⟩
        rw [hrest, Option.map_some]
        simpa using hused
      · exfalso
        rw [if_neg haccept] at htakes
        rw [goodBlocks_skip flash hroom ⟨hecc, htakes⟩] at hfound
        obtain ⟨found, hfound', hused⟩ := Option.map_eq_some_iff.mp hfound
        cases found with
        | nil => cases hused
        | cons entry found =>
            have hle := goodBlocks_le flash hfound' entry List.mem_cons_self
            have hhead : entry.1 = pos := by
              simpa using congrArg List.head? hused
            omega

/-- The blocks that were used, from the blocks that were passed over. -/
theorem Written.used_eq
    (hwritten : Written flash before after pos datas bad used stop) :
    ∃ count, stop = pos + count * part.eraseSize ∧
      used = ((List.range count).map (pos + · * part.eraseSize)).filter
        (· ∉ bad) := by
  have hsize := part.eraseSize_pos
  have hrange : ∀ pos count,
      (List.range (count + 1)).map (pos + · * part.eraseSize) = pos ::
        (List.range count).map (pos + part.eraseSize + · * part.eraseSize) := by
    intro pos count
    rw [List.range_succ_eq_map, List.map_cons, List.map_map]
    simp [Function.comp_def, Nat.succ_mul, Nat.add_assoc, Nat.add_comm]
  have hpassed : ∀ pos count (bad : List Nat),
      ((List.range (count + 1)).map (pos + · * part.eraseSize)).filter
          (· ∉ pos :: bad) =
        ((List.range count).map
          (pos + part.eraseSize + · * part.eraseSize)).filter (· ∉ bad) := by
    intro pos count bad
    rw [hrange, List.filter_cons_of_neg (by simp)]
    apply List.filter_congr
    intro q hq
    obtain ⟨i, -, rfl⟩ := List.mem_map.mp hq
    have hne : pos + part.eraseSize + i * part.eraseSize ≠ pos := by omega
    simp [hne]
  induction hwritten with
  | done => exact ⟨0, by simp, by simp⟩
  | marked _ _ _ _ ih =>
      obtain ⟨count, hstop, hused⟩ := ih
      refine ⟨count + 1, ?_, ?_⟩
      · rw [hstop, Nat.succ_mul]
        omega
      · rw [hpassed, hused]
  | givenUp _ _ _ _ _ ih =>
      obtain ⟨count, hstop, hused⟩ := ih
      refine ⟨count + 1, ?_, ?_⟩
      · rw [hstop, Nat.succ_mul]
        omega
      · rw [hpassed, hused]
  | @used pos _ _ _ bad _ _ _ _ _ hnext ih =>
      obtain ⟨count, hstop, hused⟩ := ih
      have hfresh : pos ∉ bad := by
        intro hmem
        have hle := hnext.used_ge.1 pos hmem
        omega
      refine ⟨count + 1, ?_, ?_⟩
      · rw [hstop, Nat.succ_mul]
        omega
      · rw [hrange, List.filter_cons_of_pos (by simpa using hfresh), hused]

end Agreement

/-- **When a write session can be read back.** -/
theorem roundTrip_iff (dev : Device) (writes : List Bytes)
    {ctx : WriteContext}
    (hok : (flash.run (writeSession part writes) dev).1 = some ctx) :
    RoundTrip flash ctx (flash.run (writeSession part writes) dev).2
        writes.flatten ↔
      Agrees flash dev.block (part.blocksFrom 0) 0
        (toBlocks part writes.flatten) := by
  have hsize := part.eraseSize_pos
  obtain ⟨used, hwritten⟩ := run_writeSession flash writes dev hok
  generalize (flash.run (writeSession part writes) dev).2 = dev' at *
  have hoffsets : usedOffsets part ctx dev'.filePos = used := by
    obtain ⟨count, hstop, hused⟩ := hwritten.used_eq
    rw [hused, usedOffsets, hstop, Nat.zero_add, Nat.mul_div_cancel _ hsize]
    simp
  have hcount := hwritten.used_ge.2.2
  unfold RoundTrip
  rw [hoffsets, run_readOffsets, hcount]
  constructor
  · rintro ⟨-, hfound⟩
    exact hwritten.agrees_of_goodBlocks hfound
  · intro hagrees
    have hfound := hwritten.goodBlocks_of_agrees hagrees
    constructor
    · intro lens hlens
      obtain ⟨count, hpadded⟩ := toBlocks_flatten part writes.flatten
      have hahead : Ahead flash { dev' with filePos := 0 }
          (toBlocks part writes.flatten) := by
        rw [Ahead, hfound, Option.map_some, List.map_snd_zip hcount.ge]
      have hholds : Holds flash ⟨List.replicate part.eraseSize 0,
          part.eraseSize⟩ { dev' with filePos := 0 }
          (toBlocks part writes.flatten).flatten := by
        refine ⟨List.length_replicate, le_rfl, toBlocks part writes.flatten,
          fun _ hmem => toBlocks_length hmem, hahead, ?_⟩
        simp
      have hfits : lens.sum ≤
          (toBlocks part writes.flatten).flatten.length := by
        rw [hpadded, List.length_append, hlens]
        omega
      have hsmall : lens.sum < 2 ^ 31 := by
        have hlength := Ahead.length_lt flash hahead
        rw [flatten_length_eq_mul fun _ hmem => toBlocks_length hmem] at hfits
        omega
      obtain ⟨pieces, hread, hlengths, hpieces⟩ :=
        run_readAll flash hholds hfits hsmall
      refine ⟨pieces, ?_, hlengths, ?_⟩
      · simp only [readSession, mtdReadPartition, Flash.run_bind,
          Flash.run_openDevice, if_true, Prog.pure_eq_ret, Flash.run_ret]
        exact hread
      · rw [hpieces, hpadded, hlens, List.take_left]
    · rw [hfound, Option.map_some, List.map_fst_zip hcount.le]

namespace RoundTripWitness

/-- Two blocks of two bytes. -/
def twoBlocks : Partition := ⟨4, 2, Nat.two_pos⟩

def erasedDevice : Device := ⟨fun _ => ⟨[255, 255], 0⟩, 0, 0⟩

theorem oneByte_roundTrip :
    ((Flash.faultFree twoBlocks).run (writeSession twoBlocks [[1]])
        erasedDevice).1 = some ⟨[], []⟩ ∧
      RoundTrip (Flash.faultFree twoBlocks) ⟨[], []⟩
        ((Flash.faultFree twoBlocks).run (writeSession twoBlocks [[1]])
          erasedDevice).2 [1] := by
  have hok : ((Flash.faultFree twoBlocks).run (writeSession twoBlocks [[1]])
      erasedDevice).1 = some ⟨[], []⟩ := by
    decide +kernel
  refine ⟨hok, ?_⟩
  apply (roundTrip_iff (Flash.faultFree twoBlocks) erasedDevice [[1]] hok).mpr
  refine ⟨⟨rfl, rfl, ?_⟩, trivial⟩
  decide +kernel

/-- A zero byte is written and verified; the reader passes over its block and
returns a byte of the erased block behind it. -/
theorem zeroByte_lost :
    ((Flash.faultFree twoBlocks).run (writeSession twoBlocks [[0]])
        erasedDevice).1 = some ⟨[], []⟩ ∧
      ¬ RoundTrip (Flash.faultFree twoBlocks) ⟨[], []⟩
        ((Flash.faultFree twoBlocks).run (writeSession twoBlocks [[0]])
          erasedDevice).2 [0] := by
  constructor
  · decide +kernel
  · rintro ⟨hread, -⟩
    obtain ⟨pieces, hpieces, -, hdata⟩ := hread [1] rfl
    have hother : ((Flash.faultFree twoBlocks).run (readSession twoBlocks [1])
        ((Flash.faultFree twoBlocks).run (writeSession twoBlocks [[0]])
          erasedDevice).2).1 = some [[255]] := by
      decide +kernel
    rw [hother, Option.some.injEq] at hpieces
    rw [← hpieces] at hdata
    exact absurd hdata (by decide)

end RoundTripWitness

end Mtd

end MetaOS
