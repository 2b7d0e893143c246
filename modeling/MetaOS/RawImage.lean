/-
Raw images on flash: `write_raw_image` of updater/install.c, and
`WriteToMTDPartition` of applypatch.c.

Both write through one context.  Its last, partial block is written when
`mtd_erase_blocks` or `mtd_write_close` pads it, and the two functions make
different use of what these return.
-/
import MetaOS.MtdVerified
import MetaOS.UpdaterFunctions

namespace MetaOS

namespace RawImage

open Mtd Updater Edify

/-- The partition with its context, and how some steps went: whether all of
the file was read, and what `mtd_erase_blocks` and `mtd_write_close` have
returned. -/
structure World where
  device : Recorded
  ctx : WriteContext
  complete : Bool
  erased : Bool
  closed : Bool

def World.start (dev : Device) : World :=
  ⟨.start dev, ⟨[], []⟩, false, false, false⟩

variable {part : Partition}

/-- The calls of `write_raw_image` on a partition, with a file that holds
`file`.  A read that fails ends the pieces early. -/
def answers (flash : Flash part) (file : Bytes) :
    Prog.Semantics Act Act.Answer World
  | .outside (.mtdWritePartition _), w, r, after =>
      ∃ opened device, Prog.Reaches flash.recorded
          (mtdWritePartition, w.device) (.ret opened, device) ∧
        r = opened.isSome ∧
        after = { w with device := device, ctx := opened.getD w.ctx }
  | .outside (.fopenRead _), w, r, after =>
      r = none ∧ after = w ∨
      ∃ pieces : List Bytes, (∀ piece ∈ pieces, piece ≠ []) ∧
        pieces.flatten <+: file ∧ r = some pieces ∧
        after = { w with complete := decide (pieces.flatten = file) }
  | .outside (.mtdWriteData data), w, r, after =>
      ∃ ctx device, Prog.Reaches flash.recorded
          (mtdWriteData part w.ctx data, w.device) (.ret (r, ctx), device) ∧
        after = { w with device := device, ctx := ctx }
  | .outside (.mtdEraseBlocks blocks), w, r, after =>
      ∃ stop ctx device, Prog.Reaches flash.recorded
          (mtdEraseBlocks part w.ctx blocks, w.device)
          (.ret (stop, ctx), device) ∧
        r = stop.isSome ∧
        after = { w with device := device, ctx := ctx, erased := r }
  | .outside .mtdWriteClose, w, r, after =>
      ∃ device, Prog.Reaches flash.recorded
          (mtdWriteClose part w.ctx, w.device) (.ret r, device) ∧
        after = { w with device := device, closed := r }
  | _, w, _, after => after = w

/-- The calls of `WriteToMTDPartition`, whose device is on record. -/
def systemCalls (flash : Flash part) :
    Prog.Semantics FileSystem.Syscall FileSystem.Answer Recorded
  | .mtdFind _, s, r, after => (r = none ∨ r = some part) ∧ after = s
  | .mtd _ c, s, r, after => flash.recorded c s r after
  | _, s, _, after => after = s

section WriteRawImage

variable {flash : Flash part} {file : Bytes}

/-- The pieces are taken over one behind the other. -/
theorem writePieces_safe {pieces : List Bytes} {taken : Bytes} {w : World}
    (h : TakenOver flash taken w.ctx w.device) :
    Prog.Safe (answers flash file) (fun _ => True)
      (fun ok after => after.complete = w.complete ∧ (ok = true →
        TakenOver flash (taken ++ pieces.flatten) after.ctx after.device))
      (writePieces pieces) w := by
  induction pieces generalizing taken w with
  | nil =>
      refine ⟨trivial, rfl, fun _ => ?_⟩
      rwa [List.flatten_nil, List.append_nil]
  | cons piece pieces ih =>
      refine ⟨trivial, ?_⟩
      rintro r after ⟨ctx, device, hreaches, rfl⟩
      have htaken := (mtdWriteData_safe h).post_of_reaches hreaches
      cases r with
      | false => exact ⟨trivial, rfl, fun hok => by cases hok⟩
      | true =>
          apply (ih (htaken rfl)).mono (fun _ h => h)
          rintro ok last - ⟨hcomplete, hall⟩
          refine ⟨hcomplete, fun hok => ?_⟩
          rw [List.flatten_cons, ← List.append_assoc]
          exact hall hok

/-- If the name of the partition is returned, all of the file that was read is
verified, unless there was a partial block and both calls that write it have
failed. -/
theorem writeRawImage_safe (flash : Flash part) (file : Bytes) (dev : Device)
    (name filename partition : Bytes) :
    Prog.Safe (answers flash file) (fun _ => True)
      (fun r after => r = stringValue (some partition) →
        after.complete = true →
        part.eraseSize ∣ file.length ∨ after.erased = true ∨
          after.closed = true →
        Verified flash file after.device)
      (writeRawImage name filename partition) (.start dev) := by
  unfold writeRawImage
  split
  next => exact ⟨trivial, fun _ _ _ => ⟨trivial, fun hname => by cases hname⟩⟩
  next hpartition =>
    have hfailed : ∀ w : World, Prog.Safe (answers flash file)
        (fun _ => True)
        (fun r after => r = stringValue (some partition) →
          after.complete = true →
          part.eraseSize ∣ file.length ∨ after.erased = true ∨
            after.closed = true →
          Verified flash file after.device)
        (pure (text "")) w := by
      intro w
      refine ⟨trivial, fun hname => ?_⟩
      cases hname
      exact absurd rfl hpartition
    split
    next =>
      exact ⟨trivial, fun _ _ _ => ⟨trivial, fun hname => by cases hname⟩⟩
    next =>
      refine ⟨trivial, ?_⟩
      rintro - w rfl
      refine ⟨trivial, ?_⟩
      rintro found w rfl
      cases found with
      | false => exact hfailed _
      | true =>
          refine ⟨trivial, ?_⟩
          rintro ready w ⟨opened, device, hopen, rfl, rfl⟩
          have hopened :=
            (mtdWritePartition_safe dev).post_of_reaches hopen
          cases opened with
          | none => exact hfailed _
          | some ctx =>
              have hctx := hopened ctx rfl
              refine ⟨trivial, ?_⟩
              rintro answer after (⟨rfl, rfl⟩ | ⟨pieces, -, -, rfl, rfl⟩)
              · exact hfailed _
              · apply Prog.Safe.bind (writePieces_safe hctx)
                rintro success w - ⟨hcomplete, htaken⟩
                refine ⟨trivial, ?_⟩
                rintro - w rfl
                refine ⟨trivial, ?_⟩
                rintro erased after ⟨stop, ctx, device, herase, rfl, rfl⟩
                refine ⟨trivial, ?_⟩
                rintro closed after ⟨device, hclose, rfl⟩
                refine ⟨trivial, ?_⟩
                rintro - after rfl
                cases success with
                | false => exact hfailed _
                | true =>
                    refine ⟨trivial, ?_⟩
                    intro _ hall hwritten
                    have hall := of_decide_eq_true (hcomplete.symm.trans hall)
                    have htaken := htaken rfl
                    rw [List.nil_append, hall] at htaken
                    obtain hflushed | ⟨rfl, hwaiting⟩ :=
                      (htaken.mtdEraseBlocks (-1)).post_of_reaches herase
                    · exact hflushed.mtdWriteClose.post_of_reaches hclose
                    · obtain hfull | herased | hclosed := hwritten
                      · have hflushed := hwaiting.flushed hfull
                        exact hflushed.mtdWriteClose.post_of_reaches hclose
                      · cases herased
                      · exact hwaiting.mtdWriteClose.post_of_reaches hclose
                          hclosed

end WriteRawImage

section WriteToMTDPartition

open ApplyPatch

variable {flash : Flash part}

/-- The use of the context reports every failure. -/
theorem writePartition_safe (data : Bytes) (dev : Device) :
    Prog.Safe flash.recorded (fun _ => True)
      (fun ok s' => ok = true → Verified flash data s')
      (writePartition part data) (.start dev) := by
  unfold writePartition
  apply Prog.Safe.bind (mtdWritePartition_safe dev)
  intro opened s _ hopened
  cases opened with
  | none => exact ⟨trivial, fun hok => by cases hok⟩
  | some ctx =>
      apply Prog.Safe.bind (mtdWriteData_safe (hopened ctx rfl))
      rintro ⟨ok, ctx⟩ s - htaken
      have hreturned : ∀ (ctx : WriteContext) (s : Recorded),
          Prog.Safe flash.recorded (fun _ => True)
            (fun ok s' => ok = true → Verified flash data s')
            (mtdWriteClose part ctx >>= fun _ => pure false) s := by
        intro ctx s
        apply Prog.Safe.bind (Prog.Safe.of_yields (Prog.yields_true _))
        intro closed s' _ _
        exact ⟨trivial, fun hok => by cases hok⟩
      cases ok with
      | false => exact hreturned ctx s
      | true =>
          have htaken := htaken rfl
          apply Prog.Safe.bind (htaken.mtdEraseBlocks (-1))
          rintro ⟨erased, ctx⟩ s - hpost
          cases erased with
          | none => exact hreturned ctx s
          | some stop =>
              obtain hflushed | ⟨hnone, -⟩ := hpost
              · apply hflushed.mtdWriteClose.mono (fun _ h => h)
                exact fun _ _ _ hverified _ => hverified
              · cases hnone

theorem writeToMTDPartition_safe (flash : Flash part) (data : Bytes)
    (targetMtd : FileSystem.Path) (dev : Device) :
    Prog.Safe (systemCalls flash) (fun _ => True)
      (fun ok s' => ok = true → Verified flash data s')
      (writeToMTDPartition data targetMtd) (.start dev) := by
  unfold writeToMTDPartition
  split
  next =>
    refine ⟨trivial, ?_⟩
    rintro found s ⟨rfl | rfl, rfl⟩
    · exact ⟨trivial, fun hok => by cases hok⟩
    · have hcall : ∀ (c : Mtd.Call) (s : Recorded), True → True →
          Prog.Safe (systemCalls flash) (fun _ => True)
            (fun r s' => flash.recorded c s r s' ∧ True)
            (Prog.perform (FileSystem.Syscall.mtd (partitionOf targetMtd) c))
            s :=
        fun _ _ _ _ =>
          ⟨trivial, fun _ _ hanswer => ⟨trivial, hanswer, trivial⟩⟩
      apply (Prog.Safe.hoist id (fun _ => True) hcall (fun _ _ h => h) trivial
        (writePartition_safe data dev)).mono (fun _ h => h)
      exact fun _ _ _ hpost => hpost.1
  next => exact ⟨trivial, fun hok => by cases hok⟩

end WriteToMTDPartition

/-- Neither function reports success without the image on flash, except that
`write_raw_image` takes a read that fails for the end of the file, and only
prints that the padded last block could not be written. -/
theorem image_writers_verify (flash : Flash part) (dev : Device)
    (file : Bytes) :
    (∀ name filename partition,
      Prog.Safe (answers flash file) (fun _ => True)
        (fun r after => r = stringValue (some partition) →
          after.complete = true →
          part.eraseSize ∣ file.length ∨ after.erased = true ∨
            after.closed = true →
          Verified flash file after.device)
        (writeRawImage name filename partition) (.start dev)) ∧
    ∀ targetMtd,
      Prog.Safe (systemCalls flash) (fun _ => True)
        (fun ok s' => ok = true → Verified flash file s')
        (ApplyPatch.writeToMTDPartition file targetMtd) (.start dev) := by
  constructor
  · intro name filename partition
    exact writeRawImage_safe flash file dev name filename partition
  · intro targetMtd
    exact writeToMTDPartition_safe flash file targetMtd dev

namespace RawImageWitness

/-- A single block of two bytes. -/
def single : Partition := ⟨2, 2, Nat.two_pos⟩

/-- No erase succeeds. -/
def worn : Flash single :=
  { Flash.faultFree single with
    erase := fun _ block => (block.content, false) }

def blank : Device := ⟨fun _ => ⟨[255, 255], 0⟩, 0, 0⟩

/-- The device on record, with a file descriptor that does not fail. -/
def respond (c : Mtd.Call) (s : Recorded) : Mtd.Answer c × Recorded :=
  ((worn.handler c s.dev).1,
    s.record c (worn.handler c s.dev).1 (worn.handler c s.dev).2)

theorem reaches {α : Type} (prog : MtdProg α) (s : Recorded) :
    Prog.Reaches worn.recorded (prog, s)
      (.ret (prog.eval respond s).1, (prog.eval respond s).2) :=
  Prog.reaches_eval respond (fun _ _ => ⟨_, .inl rfl, rfl⟩) prog s

/-- The only byte of the image waits for its block to be padded, and both
calls that write it fail. -/
theorem worn_not_reported :
    ¬ ∀ (part : Partition) (flash : Flash part) (dev : Device)
      (file name filename partition : Bytes),
        Prog.Safe (answers flash file) (fun _ => True)
          (fun r after => r = stringValue (some partition) →
            Verified flash file after.device)
          (writeRawImage name filename partition) (.start dev) := by
  intro hall
  have hsafe := hall single worn blank [7] [119] [102] [98]
  have hfound := (hsafe.2 () _ rfl).2 true _ rfl
  have hopened := hfound.2 true _ ⟨_, _, reaches _ _, rfl, rfl⟩
  have hread := hopened.2 (some [[7]]) _
    (.inr ⟨[[7]], by decide, List.prefix_rfl, rfl, rfl⟩)
  have hwrote := hread.2 true _ ⟨_, _, reaches _ _, rfl⟩
  have hclosed := hwrote.2 () _ rfl
  have herased := hclosed.2 false _ ⟨_, _, _, reaches _ _, rfl, rfl⟩
  have hdone := herased.2 false _ ⟨_, reaches _ _, rfl⟩
  obtain ⟨bound, hstands⟩ := (hdone.2 () _ rfl).2 rfl
  have hblocks := hstands.blocks_eq
  revert hblocks
  decide

end RawImageWitness

end RawImage

end MetaOS
