/-
When the application of a bsdiff patch comes to an end.  Every pass of the
loop takes 24 bytes from the control stream, so the loop ends; a request for
bytes does not if the input of its stream ends before the stream does.
-/
import MetaOS.Bspatch

namespace MetaOS

namespace Bspatch

variable {lib : Decoder} (laws : lib.Laws) {patch : Memory} {old : Block}
  {fuel : Nat} {oldStart oldSize newSize : Int}

/-- Some pass asks an open stream for more than it holds. -/
inductive Starves (newSize : Int) :
    (newpos : Int) → (c d e : Decoded) → Prop
  | now {newpos : Int} {c d e : Decoded} (hmore : newpos < newSize)
      (hhangs : Hangs newSize newpos c d e) : Starves newSize newpos c d e
  | later {newpos : Int} {c d e : Decoded} (hmore : newpos < newSize)
      (hgoes : Goes newSize newpos c d e)
      (hnext : Starves newSize (int32 (int32 (newpos + c.ctrl 0) + c.ctrl 1))
        (c.skip 24) (d.skip (uint32 (c.ctrl 0)))
        (e.skip (uint32 (c.ctrl 1)))) :
      Starves newSize newpos c d e

def Work.Starves (laws : lib.Laws) (patch : Memory) (newSize : Int)
    (w : Work lib) : Prop :=
  Bspatch.Starves newSize w.newpos (w.cstream.decoded laws patch)
    (w.dstream.decoded laws patch) (w.estream.decoded laws patch)

theorem Starves.more {newpos : Int} {c d e : Decoded}
    (hstarves : Starves newSize newpos c d e) : newpos < newSize := by
  cases hstarves with
  | now hmore _ => exact hmore
  | later hmore _ _ => exact hmore

theorem patchLoop_starves {w : Work lib}
    (hstarves : w.Starves laws patch newSize) (passes : Nat) :
    (patchLoop lib patch fuel old oldStart oldSize newSize passes w).result =
      none := by
  have hmore : w.newpos < newSize := Starves.more hstarves
  induction passes generalizing w with
  | zero =>
      rw [patchLoop, if_pos hmore]
      rfl
  | succ passes ih =>
      rw [patchLoop, if_pos hmore]
      have hend := patchStep_end laws patch fuel old oldStart oldSize newSize w
      cases hresult : (patchStep lib patch fuel old oldStart oldSize newSize
          w).result with
      | none => exact TracedRun.result_bind_of_none hresult
      | some result =>
          rw [hresult] at hend
          cases hend with
          | fails message hgoes hhangs =>
              rcases hstarves with ⟨-, hnow⟩ | ⟨-, hpass, -⟩
              · exact absurd hnow hhangs
              · exact absurd hpass hgoes
          | passes w' hgoes hpassed =>
              rw [TracedRun.result_bind_of_ok hresult]
              rcases hstarves with ⟨-, hnow⟩ | ⟨-, -, hnext⟩
              · exact absurd hnow hgoes.not_hangs
              · rw [← hpassed.newpos, ← hpassed.cstream, ← hpassed.dstream,
                  ← hpassed.estream] at hnext
                exact ih hnext hnext.more

theorem patchLoop_ends {w : Work lib}
    (hstarves : ¬ w.Starves laws patch newSize)
    (hfuel : w.Fueled fuel) {passes : Nat}
    (hpasses : (w.cstream.decoded laws patch).data.length < passes) :
    (patchLoop lib patch fuel old oldStart oldSize newSize passes w).result ≠
      none := by
  induction passes generalizing w with
  | zero => omega
  | succ passes ih =>
      rw [patchLoop]
      split
      · next hmore =>
          have hhangs : ¬ Hangs newSize w.newpos (w.cstream.decoded laws patch)
              (w.dstream.decoded laws patch) (w.estream.decoded laws patch) :=
            fun hnow => hstarves (.now hmore hnow)
          refine TracedRun.bind_ends (patchStep_ends laws hfuel hhangs) ?_
          intro w' hresult
          have hend := patchStep_end laws patch fuel old oldStart oldSize
            newSize w
          rw [hresult] at hend
          cases hend with
          | passes _ hgoes hpassed =>
              obtain ⟨hcavail, hdavail, heavail⟩ := hpassed.avail
              obtain ⟨hcfuel, hdfuel, hefuel⟩ := hfuel
              refine ih (fun hnext => hstarves (.later hmore hgoes ?_))
                ⟨by omega, by omega, by omega⟩ ?_
              · rw [Work.Starves, hpassed.newpos, hpassed.cstream,
                  hpassed.dstream, hpassed.estream] at hnext
                exact hnext
              · have hlong := hgoes.control
                rw [hpassed.cstream, Decoded.skip, List.length_drop]
                omega
      · simp

/-- The streams of a patch run dry. -/
def RunsDry (laws : lib.Laws) (patch : Memory) (patchOffset : Int) : Prop :=
  ((readHeader patch patchOffset).start lib patch patchOffset []).Starves laws
    patch (readHeader patch patchOffset).newSize

/-- `ApplyBSDiffPatchMem` comes to an end exactly if it turns the patch away
before it reads the streams, or never asks a stream whose input ends before
the stream does for more than that stream holds. -/
theorem terminates_iff (lib : Decoder) (laws : lib.Laws) (patch : Memory)
    (old : Block) (malloc : Malloc) (oldStart oldSize patchOffset : Int) :
    (∃ bound, ∀ fuel, bound ≤ fuel → (applyBSDiffPatchMem lib patch fuel malloc
      old oldStart oldSize patchOffset).result ≠ none) ↔
    ¬ (Accepted patch malloc patchOffset ∧ RunsDry laws patch patchOffset) := by
  constructor
  · rintro ⟨bound, hends⟩ ⟨hgood, hdry⟩
    obtain ⟨new, -, hresult⟩ :=
      result_of_accepted lib bound old oldStart oldSize hgood
    refine hends bound le_rfl ?_
    have hstarves : ((readHeader patch patchOffset).start lib patch patchOffset
        new).Starves laws patch (readHeader patch patchOffset).newSize := hdry
    rw [hresult]
    exact patchLoop_starves laws hstarves bound
  · intro hgood
    by_cases haccepted : Accepted patch malloc patchOffset
    · have hdry : ¬ RunsDry laws patch patchOffset :=
        fun hdry => hgood ⟨haccepted, hdry⟩
      let w := (readHeader patch patchOffset).start lib patch patchOffset []
      refine ⟨w.cstream.availIn + w.dstream.availIn + w.estream.availIn +
        (w.cstream.decoded laws patch).data.length + 2 ^ 32 + 1,
        fun fuel hfuel => ?_⟩
      obtain ⟨new, -, hresult⟩ := result_of_accepted lib fuel old oldStart
        oldSize haccepted
      have hstarves : ¬ ((readHeader patch patchOffset).start lib patch
          patchOffset new).Starves laws patch
            (readHeader patch patchOffset).newSize := hdry
      rw [hresult]
      refine patchLoop_ends laws hstarves ?_ ?_
      · exact ⟨show w.cstream.availIn + 2 ^ 32 ≤ fuel by omega,
          show w.dstream.availIn + 2 ^ 32 ≤ fuel by omega,
          show w.estream.availIn + 2 ^ 32 ≤ fuel by omega⟩
      · exact show (w.cstream.decoded laws patch).data.length < fuel by omega
    · refine ⟨0, fun fuel _ => ?_⟩
      obtain ⟨message, hresult⟩ := result_of_not_accepted lib fuel old oldStart
        oldSize haccepted
      rw [hresult]
      simp

namespace BspatchTerminationWitness

/-- No input at all is incomplete, and a stream starts with `B`. -/
def format : Decoder.Format where
  front input := if input = [] then .incomplete else .fault
  nil_incomplete := rfl
  stream_length := by
    intro input data length hfront
    split at hfront <;> cases hfront

def bzip2 : Decoder := Decoder.ofFormat format

def bzip2Laws : bzip2.Laws := format.laws

/-- A header with a control block of `ctrlLen` bytes, no diff block and a new
file of one byte. -/
def header (ctrlLen : UInt8) : Bytes :=
  Bytes.ofString "BSDIFF40" ++ [ctrlLen, 0, 0, 0, 0, 0, 0, 0] ++
    [0, 0, 0, 0, 0, 0, 0, 0] ++ [1, 0, 0, 0, 0, 0, 0, 0]

def anyMalloc : Malloc := fun size =>
  some ⟨List.replicate size 0, zeros_length size⟩

def empty : Block := ⟨[], fun _ => 0⟩

/-- A control block that is no bzip2 stream. -/
def garbled : Memory := ⟨⟨header 1 ++ [0], fun _ => 0⟩, by decide⟩

theorem garbled_not_dry : ¬ RunsDry bzip2Laws garbled 0 := by
  have hclosed : (((readHeader garbled 0).start bzip2 garbled 0
      []).cstream.decoded bzip2Laws garbled).closed = true := by
    decide +kernel
  have hshort : (((readHeader garbled 0).start bzip2 garbled 0
      []).cstream.decoded bzip2Laws garbled).data.length < 24 := by
    decide +kernel
  intro hdry
  rcases hdry with ⟨-, hnow⟩ | ⟨-, hgoes, -⟩
  · rcases hnow with ⟨-, hopen⟩ | ⟨hlong, -⟩ | ⟨hlong, -⟩
    · rw [hclosed] at hopen
      cases hopen
    · omega
    · omega
  · have hlong := hgoes.control
    omega

/-- The garbled patch is turned away. -/
theorem garbled_terminates :
    ∃ bound, ∀ fuel, bound ≤ fuel → (applyBSDiffPatchMem bzip2 garbled fuel
      anyMalloc empty 0 0 0).result ≠ none :=
  (terminates_iff bzip2 bzip2Laws garbled empty anyMalloc 0 0 0).mpr
    fun hboth => garbled_not_dry hboth.2

/-- A patch without a control block. -/
def cut : Memory := ⟨⟨header 0, fun _ => 0⟩, by decide⟩

/-- The loop of `FillBuffer` goes round for ever. -/
theorem cut_never_ends : ¬ ∃ fuel, (applyBSDiffPatchMem bzip2 cut fuel
    anyMalloc empty 0 0 0).result ≠ none := by
  rintro ⟨fuel, hends⟩
  have hgood : Accepted cut anyMalloc 0 :=
    ⟨by decide +kernel, by decide +kernel, by decide +kernel,
      by decide +kernel, rfl⟩
  obtain ⟨new, -, hresult⟩ := result_of_accepted bzip2 fuel empty 0 0 hgood
  have hdry : RunsDry bzip2Laws cut 0 :=
    .now (by decide +kernel) (.control (by decide +kernel) (by decide +kernel))
  have hstarves : ((readHeader cut 0).start bzip2 cut 0 new).Starves
      bzip2Laws cut (readHeader cut 0).newSize := hdry
  refine hends ?_
  rw [hresult]
  exact patchLoop_starves bzip2Laws hstarves fuel

end BspatchTerminationWitness

end Bspatch

end MetaOS
