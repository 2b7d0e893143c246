/-
bsdiff and bspatch on a part of the old data: what a patch gives depends only
on the bytes of the part, so a patch that was made for them turns the part
into the new data wherever it lies.
-/
import MetaOS.BsdiffRoundTrip

namespace MetaOS

namespace Bspatch

open Bytes

section Congr

variable {lib : Decoder} {patch : Memory} {fuel : Nat} {old old' : Block}
  {oldStart oldStart' oldSize : Int}

/-- Two parts of `oldSize` bytes hold the same. -/
def SamePart (old old' : Block) (oldStart oldStart' oldSize : Int) : Prop :=
  ∀ j : Int, 0 ≤ j → j < oldSize →
    old.at (oldStart + j) = old'.at (oldStart' + j)

theorem added_congr (hsame : SamePart old old' oldStart oldStart' oldSize)
    (oldpos newpos : Int) (count : Nat) (new : Bytes) :
    added old oldStart oldSize oldpos newpos count new =
      added old' oldStart' oldSize oldpos newpos count new := by
  rw [added, added]
  congr 1
  funext p b
  dsimp only
  split
  · rename_i hcond
    have hoverlap := hcond.2.2
    rw [overlaps, Bool.and_eq_true, decide_eq_true_eq,
      decide_eq_true_eq] at hoverlap
    rw [hsame _ hoverlap.1 hoverlap.2]
  · rfl

theorem patchStep_congr (hsame : SamePart old old' oldStart oldStart' oldSize)
    (newSize : Int) (w : Work lib) :
    (patchStep lib patch fuel old oldStart oldSize newSize w).result =
      (patchStep lib patch fuel old' oldStart' oldSize newSize w).result := by
  rw [patchStep, patchStep]
  refine TracedRun.result_bind_congr fun ⟨ok, buf, cstream⟩ => ?_
  dsimp only
  split
  · split
    · rfl
    · refine TracedRun.result_bind_congr fun ⟨ok, diff, dstream⟩ => ?_
      dsimp only
      split
      · rw [addOldData, addOldData, TracedRun.result_bind,
          TracedRun.result_bind, added_congr hsame]
      · rfl
  · rfl

theorem patchLoop_congr (hsame : SamePart old old' oldStart oldStart' oldSize)
    (newSize : Int) (passes : Nat) (w : Work lib) :
    (patchLoop lib patch fuel old oldStart oldSize newSize passes w).result =
      (patchLoop lib patch fuel old' oldStart' oldSize newSize passes
        w).result := by
  induction passes generalizing w with
  | zero =>
      rw [patchLoop.eq_def, patchLoop.eq_def]
  | succ passes ih =>
      rw [patchLoop.eq_def, patchLoop.eq_def]
      dsimp only
      split
      · rw [TracedRun.result_bind, TracedRun.result_bind,
          patchStep_congr hsame]
        simp only [ih]
      · rfl

theorem applyBSDiffPatchMem_congr
    (hsame : SamePart old old' oldStart oldStart' oldSize) (malloc : Malloc)
    (patchOffset : Int) :
    (applyBSDiffPatchMem lib patch fuel malloc old oldStart oldSize
        patchOffset).result =
      (applyBSDiffPatchMem lib patch fuel malloc old' oldStart' oldSize
        patchOffset).result := by
  rw [applyBSDiffPatchMem, applyBSDiffPatchMem, TracedRun.touch_bind_result,
    TracedRun.touch_bind_result]
  split
  · rw [TracedRun.touch_bind_result, TracedRun.touch_bind_result]
    dsimp only
    split
    · rfl
    · split
      · rfl
      · exact patchLoop_congr hsame _ _ _
  · rfl

theorem samePart_window {block : Block} {start len : Nat}
    (hin : start + len ≤ block.data.length) (around : Int → UInt8) :
    SamePart block ⟨block.data.window start len, around⟩ start 0 len := by
  intro j hlow hhigh
  obtain ⟨i, rfl⟩ := Int.eq_ofNat_of_zero_le hlow
  have hi : i < len := by omega
  rw [Block.at, Block.at, if_pos (by omega), if_pos (by omega),
    show ((start : Int) + i).toNat = start + i by omega,
    show ((0 : Int) + i).toNat = i by omega, Bytes.window,
    List.getElem?_take, if_pos hi, List.getElem?_drop,
    List.getElem?_eq_getElem (by omega)]
  rfl

end Congr

end Bspatch

namespace Bsdiff

open Bytes Bspatch

theorem drop_of_standsAt {file part : Bytes} {off : Nat}
    (hstands : file.StandsAt off part) :
    file.drop off = part ++ file.drop (off + part.length) := by
  have hpart : (file.drop off).take part.length = part := hstands.2
  calc file.drop off = (file.drop off).take part.length ++
        (file.drop off).drop part.length :=
        (List.take_append_drop _ _).symm
    _ = part ++ file.drop (off + part.length) := by
        rw [hpart, List.drop_drop]

/-- `bsdiff` ends for every index of the old data, and its patch, standing
anywhere, turns that part of a file into the new data. -/
theorem bspatch_part {lib : Decoder} {laws : lib.Laws}
    {compress : Bytes → Bytes}
    (hlossless : ∀ data trailing : Bytes,
      laws.data lib.init (compress data ++ trailing) = data)
    {index : List Nat} {part new : Bytes} (hindex : Indexes index part)
    (hpart : part.length < 2 ^ 31) (hnew : new.length < 2 ^ 31) :
    ∃ file, bsdiff index part new compress = some file ∧
      ∀ (malloc : Malloc) (patch : Memory) (offset : Nat) (old : Block)
        (oldStart : Nat), (malloc new.length).isSome →
        patch.data.StandsAt offset file →
        oldStart + part.length ≤ old.data.length →
        old.data.window oldStart part.length = part →
        ∃ bound, ∀ fuel, bound ≤ fuel →
          (applyBSDiffPatchMem lib patch fuel malloc old oldStart part.length
            offset).result = some (.ok new) := by
  have hstart : State.Inv part new ⟨0, 0, 0, 0, 0, 0, []⟩ := by
    refine ⟨le_rfl, Nat.zero_le _, Nat.zero_le _, le_rfl, fun hpos => hpos.le,
      id, Nat.zero_le _, .nil 0 0⟩
  obtain ⟨pieces, oldend, hpieces, hleads⟩ := diffLoop_spec hindex hstart
    (Nat.succ_pos (new.length + 1)) (fun _ => by dsimp only; omega)
  refine ⟨patchFile compress new.length pieces, ?_, ?_⟩
  · rw [bsdiff, hpieces]
    rfl
  intro malloc patch offset old oldStart hmemory hstands hin hwindow
  have hpatch : Stands patch offset new.length
      (compress (pieces.flatMap Piece.triple))
      (compress (pieces.flatMap Piece.diff))
      (compress (pieces.flatMap Piece.extra))
      (patch.data.drop (offset + (patchFile compress new.length
        pieces).length)) := by
    refine ⟨?_, hnew⟩
    rw [drop_of_standsAt hstands]
    simp only [patchFile, List.append_assoc]
  have hheader := hpatch.blocks.1
  have hgood : Accepted patch malloc offset := by
    refine ⟨hpatch.magic, ?_, ?_, ?_, ?_⟩
    all_goals rw [hheader]
    · exact Int.natCast_nonneg _
    · exact Int.natCast_nonneg _
    · exact Int.natCast_nonneg _
    · exact hmemory
  refine ⟨pieces.length + 2 ^ 33, fun fuel hfuel => ?_⟩
  have hsame := samePart_window hin fun _ => 0
  rw [hwindow] at hsame
  rw [applyBSDiffPatchMem_congr hsame]
  obtain ⟨target, htarget, hresult⟩ := result_of_accepted lib fuel
    ⟨part, fun _ => 0⟩ 0 part.length hgood
  have htarget' : target.length = new.length := by
    rw [htarget, hheader]
    exact Int.toNat_natCast _
  have hreads := hpatch.reads hlossless htarget'
  have hfueled : Work.Fueled fuel ((readHeader patch offset).start lib
      patch offset target) := by
    have havail : ∀ size, uint32 size + 2 ^ 32 ≤ fuel := by
      intro size
      have hlt := uint32_lt size
      omega
    exact ⟨havail _, havail _, havail _⟩
  have hsize : (readHeader patch offset).newSize = new.length := by
    rw [hheader]
  rw [hresult, hsize]
  have hsource : Leads (⟨⟨part, fun _ => 0⟩, hpart⟩ : Memory).data new 0 0
    pieces oldend new.length := hleads
  exact patchLoop_reads hsource hreads hnew hfueled (by omega)

end Bsdiff

end MetaOS
