/-
What `read_block` is looking for.

The next good block is the one the reader should return.  The count of failed
corrections is taken once a call and compared with after every block, so a
block that fails its correction takes all later blocks of the call with it.
-/
import MetaOS.MtdAborts

namespace MetaOS

namespace Mtd

variable {part : Partition} (flash : Flash part)

/-- The content of a good block: it can be read without a failed correction,
it is not marked and not all zero. -/
def Flash.good (block : Nat → Block) (pos : Nat) : Option Bytes :=
  if (flash.read pos (block pos)).2 then none
  else flash.takes pos (block pos)

/-- The first good block at or after the file position, with the blocks in
front of it counted. -/
structure NextGood (dev : Device) (skipped : Nat) (data : Bytes) : Prop where
  inside : dev.filePos + (skipped + 1) * part.eraseSize ≤ part.size
  good : flash.good dev.block (dev.filePos + skipped * part.eraseSize) =
    some data
  first : ∀ i < skipped,
    flash.good dev.block (dev.filePos + i * part.eraseSize) = none

/-- A query of the ECC statistics that fails. -/
def Call.StatsFail : (c : Call) → Answer c → Prop
  | .eccGetStats, r => r = none
  | _, _ => False

/-- Every run of `read_block` from `dev`, with any queries of the statistics
failing, returns the next good block and stops behind it, or it fails because
there is none or a query has failed. -/
def FindsNextGood (dev : Device) : Prop :=
  Prog.Safe (Prog.mayFail flash.handler Call.StatsFail) (fun _ => True)
    (fun result after => match result with
      | some data => ∃ skipped, NextGood flash dev skipped data ∧
          after.1.filePos = dev.filePos + (skipped + 1) * part.eraseSize
      | none => after.2 = true ∨
          ¬ ∃ skipped data, NextGood flash dev skipped data)
    (readBlock part) (dev, false)

variable {flash}

/-- A search in steps of `size` settles on its first place or passes over
it. -/
theorem exists_skipped_succ {size blocks pos found : Nat}
    (settles passes : Nat → Prop) :
    (∃ skipped < blocks + 1, found = pos + skipped * size ∧ settles found ∧
        ∀ i < skipped, passes (pos + i * size)) ↔
      found = pos ∧ settles pos ∨
        passes pos ∧ ∃ skipped < blocks,
          found = pos + size + skipped * size ∧ settles found ∧
            ∀ i < skipped, passes (pos + size + i * size) := by
  have hshift : ∀ i, pos + (i + 1) * size = pos + size + i * size := by
    intro i
    rw [Nat.succ_mul, Nat.add_assoc, Nat.add_comm size]
  have hstart : pos + 0 * size = pos := by
    rw [Nat.zero_mul, Nat.add_zero]
  constructor
  · rintro ⟨skipped, hlt, rfl, hsettles, hfirst⟩
    cases skipped with
    | zero =>
        rw [hstart] at hsettles ⊢
        exact Or.inl ⟨rfl, hsettles⟩
    | succ skipped =>
        have hhere := hfirst 0 (Nat.succ_pos skipped)
        rw [hstart] at hhere
        refine Or.inr ⟨hhere, skipped, Nat.lt_of_succ_lt_succ hlt,
          hshift skipped, hsettles, fun i hi => ?_⟩
        rw [← hshift]
        exact hfirst (i + 1) (Nat.succ_lt_succ hi)
  · rintro (⟨rfl, hsettles⟩ |
      ⟨hhere, skipped, hlt, hfound, hsettles, hfirst⟩)
    · exact ⟨0, Nat.succ_pos blocks, hstart.symm, hsettles,
        fun i hi => absurd hi (Nat.not_lt_zero i)⟩
    · refine ⟨skipped + 1, Nat.succ_lt_succ hlt,
        hfound.trans (hshift skipped).symm, hsettles, fun i hi => ?_⟩
      cases i with
      | zero =>
          rw [hstart]
          exact hhere
      | succ i =>
          rw [hshift]
          exact hfirst i (Nat.lt_of_succ_lt_succ hi)

/-- What the reader settles on. -/
theorem nextGood_eq_some {block : Nat → Block} {blocks pos found : Nat}
    {data : Bytes} :
    flash.nextGood block blocks pos = some (found, data) ↔
      ∃ skipped < blocks, found = pos + skipped * part.eraseSize ∧
        flash.good block found = some data ∧
        ∀ i < skipped,
          flash.good block (pos + i * part.eraseSize) = none ∧
          (flash.read (pos + i * part.eraseSize)
            (block (pos + i * part.eraseSize))).2 = false := by
  induction blocks generalizing pos with
  | zero =>
      rw [Flash.nextGood]
      constructor
      · intro hnone
        cases hnone
      · rintro ⟨skipped, hlt, -⟩
        exact absurd hlt (Nat.not_lt_zero skipped)
  | succ blocks ih =>
      refine Iff.trans ?_ (exists_skipped_succ
        (fun here => flash.good block here = some data)
        (fun here => flash.good block here = none ∧
          (flash.read here (block here)).2 = false)).symm
      rw [Flash.nextGood]
      by_cases hecc : (flash.read pos (block pos)).2 = true
      · -- the failed correction ends the search
        have hnone : flash.good block pos = none := by
          rw [Flash.good, if_pos hecc]
        simp [hecc, hnone]
      · have hhere : flash.good block pos = flash.takes pos (block pos) :=
          if_neg hecc
        rw [if_neg hecc, ← hhere]
        cases flash.good block pos with
        | some data' => simp [@eq_comm _ pos found]
        | none => simp [ih, Bool.eq_false_iff.mpr hecc]

/-- There is at most one next good block. -/
theorem NextGood.unique {dev : Device} {skipped skipped' : Nat}
    {data data' : Bytes} (hfirst : NextGood flash dev skipped data)
    (hsecond : NextGood flash dev skipped' data') :
    skipped = skipped' ∧ data = data' := by
  have hge : ¬ skipped < skipped' := by
    intro hlt
    have hnone := hsecond.first skipped hlt
    rw [hfirst.good] at hnone
    cases hnone
  have hle : ¬ skipped' < skipped := by
    intro hlt
    have hnone := hfirst.first skipped' hlt
    rw [hsecond.good] at hnone
    cases hnone
  obtain rfl : skipped = skipped' := by omega
  exact ⟨rfl, Option.some.inj (hfirst.good.symm.trans hsecond.good)⟩

/-- What the reader settles on is the next good block; it is missed in a
large partition and behind a failed correction only. -/
theorem nextGood_iff {dev : Device} {skipped : Nat} {data : Bytes}
    (hgood : NextGood flash dev skipped data) :
    flash.nextGood dev.block (part.blocksFrom dev.filePos) dev.filePos =
        some (dev.filePos + skipped * part.eraseSize, data) ↔
      part.size < 2 ^ 31 ∧
      ∀ i < skipped, (flash.read (dev.filePos + i * part.eraseSize)
        (dev.block (dev.filePos + i * part.eraseSize))).2 = false := by
  have hsize := part.eraseSize_pos
  rw [nextGood_eq_some]
  constructor
  · rintro ⟨skipped', hlt, hsame, -, hfirst⟩
    obtain rfl : skipped = skipped' :=
      Nat.eq_of_mul_eq_mul_right hsize (Nat.add_left_cancel hsame)
    refine ⟨?_, fun i hi => (hfirst i hi).2⟩
    by_contra hlarge
    rw [Partition.blocksFrom, Partition.limit, if_neg hlarge, Nat.zero_sub,
      Nat.zero_div] at hlt
    exact Nat.not_lt_zero skipped hlt
  · rintro ⟨hsmall, hclean⟩
    refine ⟨skipped, ?_, rfl, hgood.good,
      fun i hi => ⟨hgood.first i hi, hclean i hi⟩⟩
    have hinside := hgood.inside
    rw [Partition.blocksFrom, Partition.limit, if_pos hsmall]
    apply Nat.lt_of_succ_le
    rw [Nat.le_div_iff_mul_le hsize]
    exact Nat.le_sub_of_add_le' hinside

theorem nextGood_of_some {dev : Device} {found : Nat} {data : Bytes}
    (hnext : flash.nextGood dev.block (part.blocksFrom dev.filePos)
      dev.filePos = some (found, data)) :
    ∃ skipped, found = dev.filePos + skipped * part.eraseSize ∧
      NextGood flash dev skipped data := by
  obtain ⟨skipped, hlt, hfound, hgood, hfirst⟩ := nextGood_eq_some.mp hnext
  have hall : dev.filePos + part.blocksFrom dev.filePos * part.eraseSize ≤
      part.limit := part.blocksFrom_mul_le (by omega)
  have hmul := Nat.mul_le_mul_right part.eraseSize (Nat.succ_le_of_lt hlt)
  refine ⟨skipped, hfound, ?_, hfound ▸ hgood, fun i hi => (hfirst i hi).1⟩
  exact ((Nat.add_le_add_left hmul _).trans hall).trans part.limit_le

/-- `read_block` finds the next good block, whatever queries fail, exactly
when there is none, or the partition is smaller than 2 GiB and no block in
front of the good one fails its correction. -/
theorem findsNextGood_iff (flash : Flash part) (dev : Device) :
    FindsNextGood flash dev ↔
      ∀ skipped data, NextGood flash dev skipped data →
        part.size < 2 ^ 31 ∧
        ∀ i < skipped, (flash.read (dev.filePos + i * part.eraseSize)
          (dev.block (dev.filePos + i * part.eraseSize))).2 = false := by
  have hrun := flash.run_readBlock dev
  constructor
  · intro hfinds skipped data hgood
    rw [← nextGood_iff hgood]
    -- the run in which no query fails
    have hpost := hfinds.of_mayFail
    cases hnext : flash.nextGood dev.block (part.blocksFrom dev.filePos)
        dev.filePos with
    | none =>
        rw [hnext] at hrun
        rw [Flash.run] at hrun
        rw [hrun] at hpost
        rcases hpost with hflag | hnone
        · cases hflag
        · exact absurd ⟨skipped, data, hgood⟩ hnone
    | some next =>
        obtain ⟨skipped', hfound, hgood'⟩ := nextGood_of_some hnext
        obtain ⟨rfl, hdata⟩ := hgood.unique hgood'
        rw [hdata, ← hfound]
  · intro hclean
    have haborts : (readBlock part).Aborts Call.StatsFail (· = none) := by
      refine (aborts_readBlock part).mono fun c r hfail => ?_
      cases c <;> first | exact hfail | exact hfail.elim
    refine (Prog.Safe.mayFail haborts).mono (fun _ _ => trivial) ?_
    rintro result after - (⟨hflag, rfl⟩ | ⟨rfl, rfl⟩)
    · exact Or.inl hflag
    · rw [← Flash.run]
      cases hnext : flash.nextGood dev.block (part.blocksFrom dev.filePos)
          dev.filePos with
      | none =>
          rw [hnext] at hrun
          rw [hrun]
          refine Or.inr ?_
          rintro ⟨skipped, data, hgood⟩
          rw [(nextGood_iff hgood).mpr (hclean skipped data hgood)] at hnext
          cases hnext
      | some next =>
          obtain ⟨skipped, hfound, hgood⟩ := nextGood_of_some hnext
          rw [hnext] at hrun
          rw [hrun.1]
          refine ⟨skipped, hgood, ?_⟩
          rw [hrun.2, hfound, Nat.succ_mul, Nat.add_assoc]

namespace MtdReadBlockWitness

def twoBlocks : Partition := ⟨4, 2, Nat.two_pos⟩

/-- Flash without faults but for one failed correction in the first block. -/
def eccFlash : Flash twoBlocks :=
  { Flash.faultFree twoBlocks with
    read := fun pos block =>
      (((Flash.faultFree twoBlocks).read pos block).1, pos == 0)
    read_length := by
      intro pos block data hread
      have hplain : ((Flash.faultFree twoBlocks).read pos block).1 =
          some data := hread
      exact (Flash.faultFree twoBlocks).read_length hplain }

def twoPages : Device := ⟨fun pos => ⟨[pos.toUInt8, 1], 0⟩, 0, 0⟩

/-- The second block is good, and the call fails. -/
theorem good_block_missed :
    (eccFlash.run (readBlock twoBlocks) twoPages).1 = none ∧
      eccFlash.good twoPages.block 0 = none ∧
      eccFlash.good twoPages.block 2 = some [2, 1] ∧
      ¬ FindsNextGood eccFlash twoPages := by
  have hmissed : (eccFlash.run (readBlock twoBlocks) twoPages).1 = none := by
    decide
  have hgood : NextGood eccFlash twoPages 1 [2, 1] :=
    ⟨by decide, by decide, by decide⟩
  refine ⟨hmissed, by decide, by decide, ?_⟩
  intro hfinds
  have hpost := hfinds.of_mayFail
  rw [← Flash.run, hmissed] at hpost
  rcases hpost with hflag | hnone
  · cases hflag
  · exact hnone ⟨1, [2, 1], hgood⟩

end MtdReadBlockWitness

end Mtd

end MetaOS
