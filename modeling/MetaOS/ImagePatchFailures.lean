/-
What it means that `ApplyImagePatch` returns 0.  The chunks of a patch are
decoded without a sink first; a run that returns 0 is compared with that.  A
normal chunk that fails is passed over, so the comparison holds unless there
is one.
-/
import MetaOS.ImagePatch

namespace MetaOS

namespace ImagePatch

open Bytes Bspatch

/-- What `deflate` gives until the stream ends. -/
def deflateOutput (zlib : Zlib) (tempSize : Nat) :
    (fuel : Nat) → (strm : Option zlib.State) → Option Bytes
  | 0, _ => none
  | fuel + 1, strm =>
      let deflated := zlib.deflate strm tempSize
      if deflated.ended then some deflated.output
      else (deflateOutput zlib tempSize fuel deflated.next).map
        (deflated.output ++ ·)

section Decoding

variable (lib : Decoder) (zlib : Zlib) (patch : Memory) (fuel : Nat)
  (malloc : Malloc) (old : Memory)

/-- The chunk at `pos` is decoded; the next one is at `next`. -/
inductive ChunkDecodes (pos : Int) : (next : Int) → (output : Bytes) → Prop
  | normal {new : Bytes} (hrecord : int32 (pos + 4) ≤ patch.data.length)
      (hheader : int32 (int32 (pos + 4) + 24) ≤ patch.data.length)
      (htype : read4 patch pos = CHUNK_NORMAL)
      (hnew : (applyExtent lib patch fuel malloc old
        (readExtent patch (int32 (pos + 4)))).result = some (.ok new)) :
      ChunkDecodes pos (int32 (int32 (pos + 4) + 24)) new
  | raw {dataLen : Nat} (hrecord : int32 (pos + 4) ≤ patch.data.length)
      (hheader : int32 (int32 (pos + 4) + 4) ≤ patch.data.length)
      (htype : read4 patch pos = CHUNK_RAW)
      (hlen : read4 patch (int32 (pos + 4)) = dataLen)
      (hdata : int32 (int32 (int32 (pos + 4) + 4) + dataLen) ≤
        patch.data.length) :
      ChunkDecodes pos (int32 (int32 (int32 (pos + 4) + 4) + dataLen))
        (patch.read (int32 (int32 (pos + 4) + 4)) dataLen)
  | deflate {size : Nat} {strm : Option zlib.State} {output : Bytes}
      (hrecord : int32 (pos + 4) ≤ patch.data.length)
      (hheader : int32 (int32 (pos + 4) + 60) ≤ patch.data.length)
      (htype : read4 patch pos = CHUNK_DEFLATE)
      (hsetup : (deflateSetup lib zlib patch fuel malloc old
        (int32 (pos + 4))).result = some (.ok (size, strm)))
      (houtput : deflateOutput zlib size fuel strm = some output) :
      ChunkDecodes pos (int32 (int32 (pos + 4) + 60)) output

/-- `count` chunks from `pos` on are decoded. -/
inductive ChunksDecode : (count : Nat) → (pos : Int) → List Bytes → Prop
  | nil (pos : Int) : ChunksDecode 0 pos []
  | cons {count : Nat} {pos next : Int} {output : Bytes}
      {outputs : List Bytes}
      (hchunk : ChunkDecodes lib zlib patch fuel malloc old pos next output)
      (hrest : ChunksDecode count next outputs) :
      ChunksDecode (count + 1) pos (output :: outputs)

end Decoding

/-- Output that went to the sink, which took all of it, and to the hash. -/
structure Out.Grew {sink : Sink} (out out' : Out sink) (output : Bytes) :
    Prop where
  offered : out'.offered = out.offered ++ output
  accepted : out'.accepted = out.accepted ++ output
  hashed : out'.hashed = out.hashed ++ output

section Runs

variable {lib : Decoder} {zlib : Zlib} {patch : Memory} {fuel : Nat}
  {malloc : Malloc} {old : Memory} {sink : Sink} {out out' : Out sink}

theorem Out.write_offered_length (out : Out sink) (data : Bytes) :
    (out.write data).2.offered.length = out.offered.length + data.length :=
  List.length_append

theorem Out.write_accepted_length (out : Out sink) (data : Bytes) :
    (out.write data).2.accepted.length =
      out.accepted.length + min (out.write data).1.toNat data.length := by
  simp [Out.write]

/-- An offer that is taken. -/
theorem Out.write_taken {data : Bytes}
    (htaken : (out.write data).1.toNat = data.length) :
    (out.write data).2.offered = out.offered ++ data ∧
      (out.write data).2.accepted = out.accepted ++ data ∧
      (out.write data).2.hashed = out.hashed := by
  refine ⟨rfl, ?_, rfl⟩
  have htoken : (sink.write out.token data).1.toNat = data.length := htaken
  simp only [Out.write, htoken, List.take_length]

theorem Out.write_update {data : Bytes}
    (htaken : (out.write data).1.toNat = data.length) :
    out.Grew ((out.write data).2.update data) data := by
  obtain ⟨hoffered, haccepted, hhashed⟩ := Out.write_taken htaken
  exact ⟨hoffered, haccepted, by rw [Out.update, hhashed]⟩

theorem deflateLoop_ok {size fuel : Nat} {strm : Option zlib.State}
    (hok : (deflateLoop zlib size fuel strm out).result = some (.ok out')) :
    ∃ output, deflateOutput zlib size fuel strm = some output ∧
      out.Grew out' output := by
  induction fuel generalizing strm out with
  | zero => cases hok
  | succ fuel ih =>
      rw [deflateLoop, TracedRun.touch_bind_result] at hok
      rw [deflateOutput]
      dsimp only at hok ⊢
      split at hok
      · cases hok
      next hcount =>
      push Not at hcount
      have htaken : (out.write (zlib.deflate strm size).output).1.toNat =
          (zlib.deflate strm size).output.length := by omega
      have hgrew := Out.write_update htaken
      split at hok
      · next hended =>
          rw [if_pos hended]
          cases hok
          exact ⟨_, rfl, hgrew⟩
      · next hended =>
          rw [if_neg hended]
          obtain ⟨output, houtput, hrest⟩ := ih hok
          refine ⟨_, by rw [houtput]; rfl, ?_, ?_, ?_⟩
          · rw [hrest.offered, hgrew.offered, List.append_assoc]
          · rw [hrest.accepted, hgrew.accepted, List.append_assoc]
          · rw [hrest.hashed, hgrew.hashed, List.append_assoc]

theorem deflateChunk_ok {pos next : Int}
    (hok : (deflateChunk lib zlib patch fuel malloc old pos out).result =
      some (.ok (next, out'))) :
    int32 (pos + 60) ≤ patch.data.length ∧ next = int32 (pos + 60) ∧
      ∃ size strm output, (deflateSetup lib zlib patch fuel malloc old
          pos).result = some (.ok (size, strm)) ∧
        deflateOutput zlib size fuel strm = some output ∧
        out.Grew out' output := by
  rw [deflateChunk] at hok
  dsimp only at hok
  split at hok
  · cases hok
  next hheader =>
  rw [TracedRun.touch_bind_result] at hok
  obtain ⟨⟨size, strm⟩, hsetup, hok⟩ := TracedRun.ok_of_bind hok
  obtain ⟨out'', hloop, hok⟩ := TracedRun.ok_of_bind hok
  obtain ⟨output, houtput, hgrew⟩ := deflateLoop_ok hloop
  cases hok
  exact ⟨not_lt.mp hheader, rfl, size, strm, output, hsetup, houtput, hgrew⟩

theorem writeRaw_ok {pos dataLen : Int}
    (hok : (writeRaw patch pos dataLen out).result = some (.ok out')) :
    0 ≤ dataLen ∧ out.Grew out' (patch.read pos dataLen.toNat) := by
  rw [writeRaw, TracedRun.touch_bind_result] at hok
  split at hok
  · cases hok
  next hlen =>
  dsimp only at hok
  split at hok
  · cases hok
  next hcount =>
  push Not at hcount
  have htaken : ((out.update (patch.read pos dataLen.toNat)).write
      (patch.read pos dataLen.toNat)).1.toNat =
        (patch.read pos dataLen.toNat).length := by
    rw [hcount, read_length]
  obtain ⟨hoffered, haccepted, hhashed⟩ := Out.write_taken htaken
  cases hok
  exact ⟨not_lt.mp hlen, hoffered, haccepted, hhashed⟩

theorem rawChunk_ok {pos next : Int}
    (hok : (rawChunk patch pos out).result = some (.ok (next, out'))) :
    ∃ dataLen : Nat, int32 (pos + 4) ≤ patch.data.length ∧
      read4 patch pos = dataLen ∧
      int32 (int32 (pos + 4) + dataLen) ≤ patch.data.length ∧
      next = int32 (int32 (pos + 4) + dataLen) ∧
      out.Grew out' (patch.read (int32 (pos + 4)) dataLen) := by
  rw [rawChunk] at hok
  dsimp only at hok
  split at hok
  · cases hok
  next hheader =>
  rw [TracedRun.touch_bind_result] at hok
  split at hok
  · cases hok
  next hdata =>
  obtain ⟨out'', hwrite, hok⟩ := TracedRun.ok_of_bind hok
  obtain ⟨hlen, hgrew⟩ := writeRaw_ok hwrite
  obtain ⟨dataLen, hdataLen⟩ := Int.eq_ofNat_of_zero_le hlen
  rw [hdataLen] at hdata hok hgrew
  cases hok
  exact ⟨dataLen, not_lt.mp hheader, hdataLen, not_lt.mp hdata, rfl, hgrew⟩

theorem normalChunk_ok {pos next : Int}
    (hok : (normalChunk lib patch fuel malloc old pos out).result =
      some (.ok (next, out'))) :
    int32 (pos + 24) ≤ patch.data.length ∧ next = int32 (pos + 24) ∧
      ∃ ret, (applyBSDiffPatch lib patch fuel malloc old (readExtent patch pos)
        out).result = some (.ok (ret, out')) := by
  rw [normalChunk] at hok
  dsimp only at hok
  split at hok
  · cases hok
  next hheader =>
  rw [TracedRun.touch_bind_result] at hok
  obtain ⟨⟨ret, out''⟩, happly, hok⟩ := TracedRun.ok_of_bind hok
  cases hok
  exact ⟨not_lt.mp hheader, rfl, ret, happly⟩

/-- What `ApplyBSDiffPatch` does to the output: all of the new data is taken,
or a part of it, or there is none. -/
theorem applyBSDiffPatch_ok {extent : Extent} {ret : Int}
    (hok : (applyBSDiffPatch lib patch fuel malloc old extent out).result =
      some (.ok (ret, out'))) :
    (∃ new, (applyExtent lib patch fuel malloc old extent).result =
        some (.ok new) ∧
      ((out.write new).1.toNat = new.length ∧ out.Grew out' new ∨
        (out.write new).1.toNat < new.length ∧ out' = (out.write new).2)) ∨
    (∃ message, (applyExtent lib patch fuel malloc old extent).result =
        some (.error message) ∧ out' = out) := by
  rw [applyBSDiffPatch] at hok
  obtain ⟨attempted, hattempt, hok⟩ := TracedRun.ok_of_bind hok
  rcases hresult : (applyExtent lib patch fuel malloc old extent).result with
    - | message | new
  · rw [TracedRun.attempt, hresult] at hattempt
    cases hattempt
  · rw [TracedRun.attempt, hresult] at hattempt
    cases hattempt
    cases hok
    exact Or.inr ⟨message, rfl, rfl⟩
  · rw [TracedRun.attempt, hresult] at hattempt
    cases hattempt
    refine Or.inl ⟨new, rfl, ?_⟩
    have hle : (out.write new).1 ≤ new.length := sink.write_le out.token new
    dsimp only [Except.toOption] at hok
    split at hok
    · next hshort =>
        cases hok
        by_cases htaken : (out.write new).1.toNat = new.length
        · -- The sink reports an error for no data at all.
          obtain rfl : new = [] := List.length_eq_zero_iff.mp (by omega)
          obtain ⟨hoffered, haccepted, hhashed⟩ := Out.write_taken htaken
          exact Or.inl ⟨htaken, hoffered, haccepted, by
            rw [hhashed, List.append_nil]⟩
        · exact Or.inr ⟨by omega, rfl⟩
    · next hall =>
        cases hok
        have htaken : (out.write new).1.toNat = new.length := by omega
        exact Or.inl ⟨htaken, Out.write_update htaken⟩

/-- The chunk at `pos`, if it is a normal one, applies and the sink takes all
that it gives. -/
def NormalTaken (lib : Decoder) (patch : Memory) (fuel : Nat) (malloc : Malloc)
    (old : Memory) (pos : Int) (out : Out sink) : Prop :=
  read4 patch pos = CHUNK_NORMAL →
    ∃ new, (applyExtent lib patch fuel malloc old
        (readExtent patch (int32 (pos + 4)))).result = some (.ok new) ∧
      (out.write new).1.toNat = new.length

/-- A normal chunk that does not apply leaves the output alone, and one that
is not taken in full leaves a gap. -/
inductive PassedOver (lib : Decoder) (patch : Memory) (fuel : Nat)
    (malloc : Malloc) (old : Memory) (pos : Int) (out : Out sink) :
    Out sink → Prop
  | failed (htype : read4 patch pos = CHUNK_NORMAL) (message : String)
      (herror : (applyExtent lib patch fuel malloc old
        (readExtent patch (int32 (pos + 4)))).result =
          some (.error message)) :
      PassedOver lib patch fuel malloc old pos out out
  | short (htype : read4 patch pos = CHUNK_NORMAL) {new : Bytes}
      (hnew : (applyExtent lib patch fuel malloc old
        (readExtent patch (int32 (pos + 4)))).result = some (.ok new))
      (hshort : (out.write new).1.toNat < new.length) :
      PassedOver lib patch fuel malloc old pos out (out.write new).2

theorem PassedOver.not_taken {pos : Int}
    (hpassed : PassedOver lib patch fuel malloc old pos out out') :
    ¬ NormalTaken lib patch fuel malloc old pos out := by
  intro htaken
  rcases hpassed with ⟨htype, message, herror⟩ | ⟨htype, hnew, hshort⟩
  · obtain ⟨new, hnew, -⟩ := htaken htype
    rw [herror] at hnew
    cases hnew
  · obtain ⟨new', hnew', hall⟩ := htaken htype
    rw [hnew] at hnew'
    cases hnew'
    omega

/-- What a chunk does that goes through. -/
theorem applyChunk_ok {pos next : Int}
    (hok : (applyChunk lib zlib patch fuel malloc old pos out).result =
      some (.ok (next, out'))) :
    (∃ output, ChunkDecodes lib zlib patch fuel malloc old pos next output ∧
      out.Grew out' output ∧ NormalTaken lib patch fuel malloc old pos out) ∨
    (next = int32 (int32 (pos + 4) + 24) ∧
      PassedOver lib patch fuel malloc old pos out out') := by
  rw [applyChunk] at hok
  split at hok
  · cases hok
  next hrecord =>
  rw [TracedRun.touch_bind_result, applyType] at hok
  have hrecord' := not_lt.mp hrecord
  split at hok
  · next htype =>
      obtain ⟨hheader, rfl, ret, happly⟩ := normalChunk_ok hok
      rcases applyBSDiffPatch_ok happly with ⟨new, hnew, htaken | hshort⟩ |
        ⟨message, herror, rfl⟩
      · exact Or.inl ⟨new, .normal hrecord' hheader htype hnew, htaken.2,
          fun _ => ⟨new, hnew, htaken.1⟩⟩
      · obtain ⟨hshort, rfl⟩ := hshort
        exact Or.inr ⟨rfl, .short htype hnew hshort⟩
      · exact Or.inr ⟨rfl, .failed htype message herror⟩
  next hnormal =>
  split at hok
  · next htype =>
      obtain ⟨dataLen, hheader, hlen, hdata, rfl, hgrew⟩ := rawChunk_ok hok
      exact Or.inl ⟨_, .raw hrecord' hheader htype hlen hdata, hgrew,
        fun htype' => absurd htype' hnormal⟩
  next hraw =>
  split at hok
  · next htype =>
      obtain ⟨hheader, rfl, size, strm, output, hsetup, houtput, hgrew⟩ :=
        deflateChunk_ok hok
      exact Or.inl ⟨output, .deflate hrecord' hheader htype hsetup houtput,
        hgrew, fun htype' => absurd htype' hnormal⟩
  · cases hok

/-- No gap between what was offered and what was taken is closed again. -/
theorem applyChunk_gap {pos next : Int}
    (hok : (applyChunk lib zlib patch fuel malloc old pos out).result =
      some (.ok (next, out'))) :
    out'.accepted.length + out.offered.length ≤
      out.accepted.length + out'.offered.length := by
  rcases applyChunk_ok hok with ⟨output, -, hgrew, -⟩ | ⟨-, hpassed⟩
  · rw [hgrew.offered, hgrew.accepted, List.length_append, List.length_append]
    omega
  · cases hpassed with
    | failed htype message herror => omega
    | short htype hnew hshort =>
        rw [Out.write_offered_length, Out.write_accepted_length]
        omega

theorem applyChunks_gap {count : Nat} {pos : Int}
    (hok : (applyChunks lib zlib patch fuel malloc old count pos out).result =
      some (.ok out')) :
    out'.accepted.length + out.offered.length ≤
      out.accepted.length + out'.offered.length := by
  induction count generalizing pos out with
  | zero =>
      cases hok
      omega
  | succ count ih =>
      rw [applyChunks] at hok
      obtain ⟨⟨next, out''⟩, hchunk, hrest⟩ := TracedRun.ok_of_bind hok
      have hfirst := applyChunk_gap hchunk
      have hlater := ih hrest
      omega

/-- Every normal chunk that is reached applies, and the sink takes it. -/
def NormalsTaken (lib : Decoder) (zlib : Zlib) (patch : Memory) (fuel : Nat)
    (malloc : Malloc) (old : Memory) :
    (count : Nat) → (pos : Int) → Out sink → Prop
  | 0, _, _ => True
  | count + 1, pos, out =>
      NormalTaken lib patch fuel malloc old pos out ∧
        ∀ next out', (applyChunk lib zlib patch fuel malloc old pos
            out).result = some (.ok (next, out')) →
          NormalsTaken lib zlib patch fuel malloc old count next out'

/-- Some chunk that is reached makes the call fail or does not come to an
end. -/
def Stops (lib : Decoder) (zlib : Zlib) (patch : Memory) (fuel : Nat)
    (malloc : Malloc) (old : Memory) :
    (count : Nat) → (pos : Int) → Out sink → Prop
  | 0, _, _ => False
  | count + 1, pos, out =>
      ∀ next out', (applyChunk lib zlib patch fuel malloc old pos
          out).result = some (.ok (next, out')) →
        Stops lib zlib patch fuel malloc old count next out'

theorem stops_iff {count : Nat} {pos : Int} :
    Stops lib zlib patch fuel malloc old count pos out ↔
      ∀ out', (applyChunks lib zlib patch fuel malloc old count pos
        out).result ≠ some (.ok out') := by
  induction count generalizing pos out with
  | zero =>
      simp only [Stops, applyChunks, false_iff, not_forall, not_not]
      exact ⟨out, rfl⟩
  | succ count ih =>
      rw [Stops]
      constructor
      · intro hstops out' hok
        rw [applyChunks] at hok
        obtain ⟨⟨next, out''⟩, hchunk, hrest⟩ := TracedRun.ok_of_bind hok
        exact ih.mp (hstops next out'' hchunk) out' hrest
      · intro hnever next out'' hchunk
        refine ih.mpr fun out' hrest => hnever out' ?_
        rw [applyChunks, TracedRun.result_bind_of_ok hchunk]
        exact hrest

/-- A run without failures that are passed over gives what the chunks say. -/
theorem applyChunks_decode {count : Nat} {pos : Int}
    (htaken : NormalsTaken lib zlib patch fuel malloc old count pos out)
    (hok : (applyChunks lib zlib patch fuel malloc old count pos out).result =
      some (.ok out')) :
    ∃ outputs, ChunksDecode lib zlib patch fuel malloc old count pos outputs ∧
      out.Grew out' outputs.flatten := by
  induction count generalizing pos out with
  | zero =>
      cases hok
      exact ⟨[], .nil pos, by simp, by simp, by simp⟩
  | succ count ih =>
      rw [applyChunks] at hok
      obtain ⟨⟨next, out''⟩, hchunk, hrest⟩ := TracedRun.ok_of_bind hok
      obtain ⟨hnormal, hlater⟩ := htaken
      obtain ⟨outputs, hdecode, hgrew⟩ := ih (hlater next out'' hchunk) hrest
      rcases applyChunk_ok hchunk with ⟨output, hfirst, hgrew', -⟩ |
        ⟨-, hpassed⟩
      · refine ⟨output :: outputs, .cons hfirst hdecode, ?_, ?_, ?_⟩
        · rw [hgrew.offered, hgrew'.offered, List.flatten_cons,
            List.append_assoc]
        · rw [hgrew.accepted, hgrew'.accepted, List.flatten_cons,
            List.append_assoc]
        · rw [hgrew.hashed, hgrew'.hashed, List.flatten_cons,
            List.append_assoc]
      · exact absurd hnormal hpassed.not_taken

/-- A chunk can be decoded in one way only. -/
theorem ChunkDecodes.next_unique {pos next next' : Int} {output output' : Bytes}
    (hchunk : ChunkDecodes lib zlib patch fuel malloc old pos next output)
    (hchunk' : ChunkDecodes lib zlib patch fuel malloc old pos next' output') :
    next = next' := by
  have hdistinct : CHUNK_NORMAL ≠ CHUNK_RAW ∧ CHUNK_NORMAL ≠ CHUNK_DEFLATE ∧
      CHUNK_RAW ≠ CHUNK_DEFLATE := by decide
  obtain ⟨hnr, hnd, hrd⟩ := hdistinct
  cases hchunk with
  | normal _ _ htype _ =>
      cases hchunk' with
      | normal => rfl
      | raw _ _ htype' _ _ => exact absurd (htype.symm.trans htype') hnr
      | deflate _ _ htype' _ _ => exact absurd (htype.symm.trans htype') hnd
  | raw _ _ htype hlen _ =>
      cases hchunk' with
      | normal _ _ htype' _ => exact absurd (htype'.symm.trans htype) hnr
      | raw _ _ _ hlen' _ => rw [← hlen, ← hlen']
      | deflate _ _ htype' _ _ => exact absurd (htype.symm.trans htype') hrd
  | deflate _ _ htype _ _ =>
      cases hchunk' with
      | normal _ _ htype' _ => exact absurd (htype'.symm.trans htype) hnd
      | raw _ _ htype' _ _ => exact absurd (htype'.symm.trans htype) hrd
      | deflate => rfl

/-- A normal chunk that is decoded and does not apply is not passed over
without a gap. -/
theorem PassedOver.gap {pos next : Int} {output : Bytes}
    (hpassed : PassedOver lib patch fuel malloc old pos out out')
    (hchunk : ChunkDecodes lib zlib patch fuel malloc old pos next output) :
    out'.accepted.length + out.offered.length <
      out.accepted.length + out'.offered.length := by
  cases hpassed with
  | failed htype message herror =>
      have hdistinct : CHUNK_NORMAL ≠ CHUNK_RAW ∧
          CHUNK_NORMAL ≠ CHUNK_DEFLATE := by decide
      cases hchunk with
      | normal _ _ _ hnew =>
          rw [herror] at hnew
          cases hnew
      | raw _ _ htype' _ _ =>
          exact absurd (htype.symm.trans htype') hdistinct.1
      | deflate _ _ htype' _ _ =>
          exact absurd (htype.symm.trans htype') hdistinct.2
  | short htype hnew hshort =>
      rw [Out.write_offered_length, Out.write_accepted_length]
      omega

/-- If all chunks are decoded and no gap is left, no failure was passed
over. -/
theorem normalsTaken_of_decode {count : Nat} {pos : Int} {outputs : List Bytes}
    (hok : (applyChunks lib zlib patch fuel malloc old count pos out).result =
      some (.ok out'))
    (hdecode : ChunksDecode lib zlib patch fuel malloc old count pos outputs)
    (hgap : out.accepted.length + out'.offered.length ≤
      out'.accepted.length + out.offered.length) :
    NormalsTaken lib zlib patch fuel malloc old count pos out := by
  induction count generalizing pos out outputs with
  | zero => trivial
  | succ count ih =>
      rw [applyChunks] at hok
      obtain ⟨⟨next, out''⟩, hchunk, hrest⟩ := TracedRun.ok_of_bind hok
      have hlater := applyChunks_gap hrest
      cases hdecode with
      | cons hfirst hothers =>
          rcases applyChunk_ok hchunk with ⟨output, hchunk', hgrew, hnormal⟩ |
            ⟨-, hpassed⟩
          · refine ⟨hnormal, fun next' out₁ hchunk₁ => ?_⟩
            rw [hchunk] at hchunk₁
            cases hchunk₁
            rw [hfirst.next_unique hchunk'] at hothers
            refine ih hrest hothers ?_
            rw [hgrew.offered, hgrew.accepted, List.length_append,
              List.length_append]
            omega
          · have hlost := hpassed.gap hfirst
            omega

end Runs

/-- The patch has no header of an image patch. -/
def Refused (patch : Memory) : Prop :=
  patch.data.length < 12 ∨ patch.read 0 8 ≠ ofString "IMGDIFF2"

/-- What a return of 0 should mean: every chunk was decoded, the sink took all
it was offered, and that is the output of the chunks and what was hashed. -/
structure Reported (lib : Decoder) (zlib : Zlib) (patch : Memory) (fuel : Nat)
    (malloc : Malloc) (old : Memory) {sink : Sink} (out : Out sink) :
    Prop where
  decoded : ∃ outputs, ChunksDecode lib zlib patch fuel malloc old
      (read4 patch 8).toNat 12 outputs ∧
    out.accepted = outputs.flatten ∧ out.hashed = outputs.flatten
  taken : out.offered = out.accepted

theorem result_of_refused (lib : Decoder) (zlib : Zlib) {patch : Memory}
    (fuel : Nat) (malloc : Malloc) (old : Memory) {sink : Sink}
    (token : sink.State) (hrefused : Refused patch) :
    ∃ message, (applyImagePatch lib zlib patch fuel malloc old token).result =
      some (.error message) := by
  rw [applyImagePatch]
  split
  · exact ⟨_, rfl⟩
  next hlong =>
  rw [TracedRun.touch_bind_result]
  split
  · next hmagic =>
      rcases hrefused with hshort | hother
      · exact absurd (by exact_mod_cast hshort) hlong
      · exact absurd hmagic hother
  · exact ⟨_, rfl⟩

theorem result_of_not_refused {lib : Decoder} {zlib : Zlib} {patch : Memory}
    {fuel : Nat} {malloc : Malloc} {old : Memory} {sink : Sink}
    {token : sink.State} (hgood : ¬ Refused patch) :
    (applyImagePatch lib zlib patch fuel malloc old token).result =
      (applyChunks lib zlib patch fuel malloc old (read4 patch 8).toNat 12
        (Out.start token)).result := by
  rw [Refused] at hgood
  push Not at hgood
  obtain ⟨hlong, hmagic⟩ := hgood
  rw [applyImagePatch, if_neg (by omega), TracedRun.touch_bind_result,
    if_pos hmagic, TracedRun.touch_bind_result]

/-- A return of 0 means what it should exactly if the call does not return 0,
or every normal chunk that is reached applies and the sink takes all of it. -/
theorem reported_iff (lib : Decoder) (zlib : Zlib) (patch : Memory)
    (malloc : Malloc) (old : Memory) (sink : Sink) (token : sink.State) :
    (∀ fuel out, (applyImagePatch lib zlib patch fuel malloc old
        token).result = some (.ok out) →
      Reported lib zlib patch fuel malloc old out) ↔
    ∀ fuel, Refused patch ∨
      Stops lib zlib patch fuel malloc old (read4 patch 8).toNat 12
        (Out.start token) ∨
      NormalsTaken lib zlib patch fuel malloc old (read4 patch 8).toNat 12
        (Out.start token) := by
  constructor
  · intro hreported fuel
    by_cases hrefused : Refused patch
    · exact Or.inl hrefused
    by_cases hstops : Stops lib zlib patch fuel malloc old
        (read4 patch 8).toNat 12 (Out.start token)
    · exact Or.inr (Or.inl hstops)
    rw [stops_iff] at hstops
    push Not at hstops
    obtain ⟨out, hok⟩ := hstops
    obtain ⟨⟨outputs, hdecode, -, -⟩, htaken⟩ := hreported fuel out
      (by rw [result_of_not_refused hrefused, hok])
    refine Or.inr (Or.inr (normalsTaken_of_decode hok hdecode ?_))
    rw [htaken]
    simp [Out.start]
  · intro hgood fuel out hok
    have hheader : ¬ Refused patch := by
      intro hrefused
      obtain ⟨message, herror⟩ := result_of_refused lib zlib fuel malloc old
        token hrefused
      rw [herror] at hok
      cases hok
    rw [result_of_not_refused hheader] at hok
    rcases hgood fuel with hrefused | hstops | htaken
    · exact absurd hrefused hheader
    · exact absurd hok (stops_iff.mp hstops out)
    · obtain ⟨outputs, hdecode, hgrew⟩ := applyChunks_decode htaken hok
      refine ⟨⟨outputs, hdecode, ?_, ?_⟩, ?_⟩
      · rw [hgrew.accepted]
        rfl
      · rw [hgrew.hashed]
        rfl
      · rw [hgrew.offered, hgrew.accepted]
        rfl

namespace ImagePatchWitness

theorem nil_incomplete :
    (if ([] : Bytes) = [] then Decoder.Front.incomplete else .fault) =
      .incomplete := rfl

theorem no_stream {input data : Bytes} {length : Nat}
    (hfront : (if input = [] then Decoder.Front.incomplete else .fault) =
      .stream data length) : 0 < length ∧ length ≤ input.length := by
  split at hfront
  · cases hfront
  · cases hfront

/-- Libraries that are not called. -/
def bzip2 : Decoder :=
  Decoder.ofFormat ⟨fun input => if input = [] then .incomplete else .fault,
    nil_incomplete, no_stream⟩

def zlib : Zlib where
  inflate _ _ := ⟨Z_OK, -3, 0, []⟩
  taken_le _ _ := Nat.zero_le _
  output_le _ _ := Nat.zero_le _
  State := Unit
  deflateInit2 _ _ _ _ _ _ := none
  deflateFinish _ _ := ⟨true, [], ()⟩
  deflate_le _ _ := Nat.zero_le _

/-- A sink that takes everything. -/
def takesAll : Sink where
  State := Unit
  write _ data := (data.length, ())
  write_le _ _ := le_rfl

def anyMalloc : Malloc := fun size =>
  some ⟨List.replicate size 0, zeros_length size⟩

def empty : Memory := ⟨⟨[], fun _ => 0⟩, by decide⟩

/-- One normal chunk whose bsdiff patch should begin at offset 0, where the
header of the image patch is. -/
def garbled : Memory :=
  ⟨⟨ofString "IMGDIFF2" ++ [1, 0, 0, 0] ++ [0, 0, 0, 0] ++
    List.replicate 24 0, fun _ => 0⟩, by decide⟩

def run (fuel : Nat) : TracedRun Access (Out takesAll) :=
  applyImagePatch bzip2 zlib garbled fuel anyMalloc empty ()

/-- Nothing is decoded, nothing is written, and 0 is returned. -/
theorem garbled_returns_zero :
    ¬ ∀ fuel out, (run fuel).result = some (.ok out) →
      Reported bzip2 zlib garbled fuel anyMalloc empty out := by
  intro hreported
  have hok : (run 0).result = some (.ok (Out.start ())) := rfl
  obtain ⟨⟨outputs, hdecode, -, -⟩, -⟩ := hreported 0 _ hok
  have hcount : (read4 garbled 8).toNat = 1 := by decide
  have htype : read4 garbled 12 = CHUNK_NORMAL := by decide
  have hfails : (applyExtent bzip2 garbled 0 anyMalloc empty
      (readExtent garbled (int32 (12 + 4)))).result =
        some (.error "corrupt bsdiff patch file header (magic number)") := rfl
  rw [hcount] at hdecode
  cases hdecode with
  | cons hchunk _ =>
      cases hchunk with
      | normal _ _ _ hnew =>
          rw [hfails] at hnew
          cases hnew
      | raw _ _ htype' _ _ =>
          rw [htype] at htype'
          exact absurd htype' (by decide)
      | deflate _ _ htype' _ _ =>
          rw [htype] at htype'
          exact absurd htype' (by decide)

end ImagePatchWitness

end ImagePatch

end MetaOS
