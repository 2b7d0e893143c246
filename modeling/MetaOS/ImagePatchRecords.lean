/-
What the records of an image patch add to the output, with a sink that takes
all of it.  The loops take fuel; a statement about them is one about all large
amounts of it.
-/
import Mathlib.Order.Filter.AtTopBot.Basic
import MetaOS.BspatchExtent
import MetaOS.ImagePatchFailures
import MetaOS.ImagePatchHeader

namespace MetaOS

/-- Three steps that go well, and what comes after them. -/
theorem TracedRun.result_of_steps {A α β γ δ : Type} {first : TracedRun A α}
    (second : α → TracedRun A β) {third : TracedRun A γ}
    (last : β → γ → TracedRun A δ) {a : α} {b : β} {c : γ}
    (hfirst : first.result = some (.ok a))
    (hsecond : (second a).result = some (.ok b))
    (hthird : third.result = some (.ok c)) :
    (first >>= fun a => second a >>= fun b => third >>= fun c =>
      last b c).result = (last b c).result := by
  rw [result_bind_of_ok hfirst, result_bind_of_ok hsecond,
    result_bind_of_ok hthird]

namespace ImagePatch

open Bytes Bspatch Filter

/-- Nothing that is offered is refused. -/
def Sink.TakesAll (sink : Sink) : Prop :=
  ∀ state data, (sink.write state data).1 = data.length

section Output

variable {zlib : Zlib} {sink : Sink} {out out' : Out sink}

theorem Out.Grew.append {last : Out sink} {first second : Bytes}
    (hfirst : out.Grew out' first) (hsecond : out'.Grew last second) :
    out.Grew last (first ++ second) where
  offered := by rw [hsecond.offered, hfirst.offered, List.append_assoc]
  accepted := by rw [hsecond.accepted, hfirst.accepted, List.append_assoc]
  hashed := by rw [hsecond.hashed, hfirst.hashed, List.append_assoc]

theorem Out.Grew.nil (out : Out sink) : out.Grew out [] := by
  constructor <;> rw [List.append_nil]

theorem Sink.TakesAll.write (htakes : sink.TakesAll) (out : Out sink)
    (data : Bytes) : (out.write data).1 = data.length :=
  htakes out.token data

theorem deflateOutput_mono {size fuel more : Nat} {strm : Option zlib.State}
    {output : Bytes} (hmore : fuel ≤ more)
    (houtput : deflateOutput zlib size fuel strm = some output) :
    deflateOutput zlib size more strm = some output := by
  induction fuel generalizing more strm output with
  | zero => cases houtput
  | succ fuel ih =>
      obtain ⟨more, rfl⟩ : ∃ count, more = count + 1 := ⟨more - 1, by omega⟩
      rw [deflateOutput] at houtput ⊢
      split at houtput
      · next hended => rw [if_pos hended, houtput]
      · next hended =>
          obtain ⟨rest, hrest, rfl⟩ := Option.map_eq_some_iff.mp houtput
          rw [if_neg hended, ih (Nat.le_of_succ_le_succ hmore) hrest]
          rfl

/-- What `deflate` gives until the stream ends is what the loop writes. -/
theorem deflateLoop_of_output (htakes : sink.TakesAll) {size fuel : Nat}
    {strm : Option zlib.State} {output : Bytes}
    (houtput : deflateOutput zlib size fuel strm = some output)
    (out : Out sink) :
    ∃ out', (deflateLoop zlib size fuel strm out).result = some (.ok out') ∧
      out.Grew out' output := by
  induction fuel generalizing strm output out with
  | zero => cases houtput
  | succ fuel ih =>
      rw [deflateOutput] at houtput
      rw [deflateLoop, TracedRun.touch_bind_result]
      dsimp only at houtput ⊢
      have hcount := htakes.write out (zlib.deflate strm size).output
      have hgrew : out.Grew
          ((out.write (zlib.deflate strm size).output).2.update
            (zlib.deflate strm size).output)
          (zlib.deflate strm size).output :=
        Out.write_update (by rw [hcount, Int.toNat_natCast])
      rw [if_neg (not_not.mpr hcount)]
      split at houtput
      · next hended =>
          cases houtput
          rw [if_pos hended]
          exact ⟨_, rfl, hgrew⟩
      · next hended =>
          obtain ⟨rest, hrest, rfl⟩ := Option.map_eq_some_iff.mp houtput
          obtain ⟨out', hloop, hrest⟩ := ih hrest
            ((out.write (zlib.deflate strm size).output).2.update
              (zlib.deflate strm size).output)
          rw [if_neg hended]
          exact ⟨out', hloop, hgrew.append hrest⟩

theorem writeRaw_of_standsAt (htakes : sink.TakesAll) {patch : Memory}
    {start : Nat} {data : Bytes} (hstands : patch.data.StandsAt start data)
    (out : Out sink) :
    ∃ out', (writeRaw patch start data.length out).result = some (.ok out') ∧
      out.Grew out' data := by
  have hread : patch.read start data.length = data := by
    rw [read_eq_window hstands.1]
    exact hstands.2
  rw [writeRaw, TracedRun.touch_bind_result, if_neg (by omega),
    Int.toNat_natCast, hread]
  have hcount := htakes.write (out.update data) data
  dsimp only
  rw [if_neg (not_not.mpr hcount)]
  obtain ⟨hoffered, haccepted, hhashed⟩ := @Out.write_taken _
    (out.update data) data (by rw [hcount, Int.toNat_natCast])
  exact ⟨_, rfl, hoffered, haccepted, hhashed⟩

variable {lib : Decoder} {patch : Memory} {fuel : Nat} {malloc : Malloc}
  {old : Memory}

theorem applyBSDiffPatch_of_extent (htakes : sink.TakesAll) {extent : Extent}
    {new : Bytes} (hnew : (applyExtent lib patch fuel malloc old
      extent).result = some (.ok new)) (out : Out sink) :
    ∃ out', (applyBSDiffPatch lib patch fuel malloc old extent
        out).result = some (.ok (0, out')) ∧ out.Grew out' new := by
  have hattempt : (applyExtent lib patch fuel malloc old
      extent).attempt.result = some (.ok (some new)) := by
    rw [TracedRun.attempt, hnew]
    rfl
  have hcount := htakes.write out new
  rw [applyBSDiffPatch, TracedRun.result_bind_of_ok hattempt]
  dsimp only
  rw [if_neg (by omega)]
  exact ⟨_, rfl, Out.write_update (by rw [hcount, Int.toNat_natCast])⟩

end Output

section Records

variable (lib : Decoder) (zlib : Zlib) (patch : Memory) (malloc : Malloc)
  (old : Memory) (sink : Sink)

/-- Whatever has been written before, applying the record adds this output. -/
def Gives (record : Record) (output : Bytes) : Prop :=
  ∀ᶠ fuel in atTop, ∀ out : Out sink, ∃ out',
    (applyRecord lib zlib patch fuel malloc old record out).result =
        some (.ok out') ∧ out.Grew out' output

variable {lib zlib patch malloc old sink}

theorem applyRecords_gives {records : List Record} {outputs : List Bytes}
    (hgives : List.Forall₂ (Gives lib zlib patch malloc old sink) records
      outputs) :
    ∀ᶠ fuel in atTop, ∀ out : Out sink, ∃ out',
      (applyRecords lib zlib patch fuel malloc old records out).result =
          some (.ok out') ∧ out.Grew out' outputs.flatten := by
  induction hgives with
  | nil => exact Eventually.of_forall fun _ out => ⟨out, rfl, .nil out⟩
  | cons hfirst _ ih =>
      filter_upwards [hfirst, ih] with fuel hfirst ih out
      obtain ⟨middle, hrecord, hgrew⟩ := hfirst out
      obtain ⟨out', hrest, hgrew'⟩ := ih middle
      rw [applyRecords, List.foldlM_cons,
        TracedRun.result_bind_of_ok hrecord]
      exact ⟨out', hrest, hgrew.append hgrew'⟩

theorem gives_raw (htakes : sink.TakesAll) {start : Nat} {data : Bytes}
    (hstands : patch.data.StandsAt start data) :
    Gives lib zlib patch malloc old sink (.raw start data.length) data :=
  Eventually.of_forall fun _ out => writeRaw_of_standsAt htakes hstands out

theorem gives_normal (htakes : sink.TakesAll) {extent : Extent} {new : Bytes}
    (hnew : ∀ᶠ fuel in atTop, (applyExtent lib patch fuel malloc old
      extent).result = some (.ok new)) :
    Gives lib zlib patch malloc old sink (.normal extent) new := by
  filter_upwards [hnew] with fuel hnew out
  obtain ⟨out', happly, hgrew⟩ := applyBSDiffPatch_of_extent htakes hnew out
  refine ⟨out', ?_, hgrew⟩
  rw [applyRecord, TracedRun.result_bind_of_ok happly]
  rfl

/-- `temp_size` when memory is not short. -/
theorem tempSize_result (hmalloc : ∀ size, (malloc size).isSome)
    {expandedLen : Nat} (hlen : expandedLen < 2 ^ 31) :
    ∃ size, 32768 ≤ size ∧
      (tempSize malloc expandedLen).result = some (.ok size) := by
  rw [tempSize, int32_natCast hlen]
  split
  · obtain ⟨block, hblock⟩ := Option.isSome_iff_exists.mp (hmalloc 32768)
    rw [hblock]
    exact ⟨32768, le_rfl, rfl⟩
  · exact ⟨expandedLen, by omega, rfl⟩

theorem inflateSource_result (hmalloc : ∀ size, (malloc size).isSome)
    {srcStart srcLen : Nat} {data : Bytes}
    (hinflate : (zlib.inflate (old.read srcStart srcLen) data.length).init =
        Z_OK ∧
      (zlib.inflate (old.read srcStart srcLen) data.length).ret =
        Z_STREAM_END ∧
      (zlib.inflate (old.read srcStart srcLen) data.length).output = data) :
    (inflateSource zlib malloc old srcStart srcLen data.length).result =
      some (.ok data) := by
  obtain ⟨block, hblock⟩ := Option.isSome_iff_exists.mp (hmalloc data.length)
  obtain ⟨hinit, hret, houtput⟩ := hinflate
  rw [inflateSource, hblock]
  dsimp only
  rw [if_neg (not_not.mpr hinit), TracedRun.touch_bind_result,
    TracedRun.touch_bind_result, if_neg (not_not.mpr hret), houtput,
    if_neg (by omega)]
  rfl

theorem applyRecord_deflate {fuel size targetLen : Nat} {extent : Extent}
    {level method windowBits memLevel strategy : Int}
    {expandedLen : Nat} {expanded target : Bytes}
    (hinflate : (inflateSource zlib malloc old extent.srcStart extent.srcLen
      expandedLen).result = some (.ok expanded))
    (htarget : (applyExpanded lib patch fuel malloc expanded
      extent.patchOffset).result = some (.ok target))
    (hsize : (tempSize malloc expandedLen).result = some (.ok size))
    (out : Out sink) :
    (applyRecord lib zlib patch fuel malloc old (.deflate extent expandedLen
        targetLen level method windowBits memLevel strategy) out).result =
      (deflateLoop zlib size fuel
        (zlib.deflateInit2 level method windowBits memLevel strategy target)
        out).result := by
  exact TracedRun.result_of_steps
    (fun expanded =>
      applyExpanded lib patch fuel malloc expanded extent.patchOffset)
    (fun target size => deflateLoop zlib size fuel
      (zlib.deflateInit2 level method windowBits memLevel strategy target)
      out)
    hinflate htarget hsize

/-- A deflate record, where each of its steps is as it should be. -/
theorem gives_deflate (htakes : sink.TakesAll)
    (hmalloc : ∀ size, (malloc size).isSome) {extent : Extent}
    {targetLen : Nat} {level method windowBits memLevel strategy : Int}
    {expanded target output : Bytes} (hlen : expanded.length < 2 ^ 31)
    (hinflate : (inflateSource zlib malloc old extent.srcStart extent.srcLen
      expanded.length).result = some (.ok expanded))
    (htarget : ∀ᶠ fuel in atTop, (applyExpanded lib patch fuel malloc expanded
      extent.patchOffset).result = some (.ok target))
    (houtput : ∀ room, 32768 ≤ room → ∃ fuel, deflateOutput zlib room fuel
      (zlib.deflateInit2 level method windowBits memLevel strategy target) =
        some output) :
    Gives lib zlib patch malloc old sink (.deflate extent expanded.length
      targetLen level method windowBits memLevel strategy) output := by
  obtain ⟨size, hsize, htemp⟩ := tempSize_result hmalloc hlen
  obtain ⟨enough, henough⟩ := houtput size hsize
  filter_upwards [htarget, eventually_ge_atTop enough] with fuel htarget
    hfuel out
  obtain ⟨out', hloop, hgrew⟩ := deflateLoop_of_output htakes
    (deflateOutput_mono hfuel henough) out
  refine ⟨out', ?_, hgrew⟩
  rw [applyRecord_deflate hinflate htarget htemp]
  exact hloop

theorem applyExpanded_result {fuel : Nat} {expanded target : Bytes}
    {patchOffset : Nat} (htarget : (applyBSDiffPatchMem lib patch fuel malloc
      ⟨expanded, fun _ => 0⟩ 0 (int32 expanded.length)
        (int32 patchOffset)).result = some (.ok target)) :
    (applyExpanded lib patch fuel malloc expanded patchOffset).result =
      some (.ok target) := by
  rw [applyExpanded, TracedRun.relabel_result]
  exact htarget

end Records

end ImagePatch

end MetaOS
