/-
What the block writer has verified.

The device is put on record: a block counts as verified when what was last
done to it was a write, and a read of it then gave the data that was written.
The device may have any faults, and the file descriptor may fail as well.
-/
import MetaOS.MtdWriteChunks

namespace MetaOS

namespace Mtd

/-- A device with its last write and the blocks that were verified, each with
its position. -/
structure Recorded where
  dev : Device
  last : Option (Nat × Bytes)
  verified : List (Nat × Bytes)

namespace Recorded

def start (dev : Device) : Recorded := ⟨dev, none, []⟩

/-- A call that was answered, on the record. -/
def record (s : Recorded) : (c : Call) → Answer c → Device → Recorded
  | .write data, _, dev => ⟨dev, some (s.dev.filePos, data), s.verified⟩
  | .erase _ _, _, dev => ⟨dev, none, s.verified⟩
  | .read _, some data, dev =>
      if s.last = some (s.dev.filePos, data) then
        ⟨dev, s.last, s.verified ++ [(s.dev.filePos, data)]⟩
      else { s with dev := dev }
  | _, _, dev => { s with dev := dev }

end Recorded

variable {part : Partition}

/-- The device on record. -/
def Flash.recorded (flash : Flash part) :
    Prog.Semantics Call Answer Recorded := fun c s r s' =>
  ∃ dev, flash.answers c s.dev r dev ∧ s' = s.record c r dev

/-- `blocks` were verified one behind the other, up to `bound`, and they still
read as they were written; the file position is not before `bound`. -/
structure Stands (flash : Flash part) (blocks : List Bytes) (bound : Nat)
    (s : Recorded) : Prop where
  blocks_eq : s.verified.map Prod.snd = blocks
  ordered : s.verified.Pairwise fun p q => p.1 + part.eraseSize ≤ q.1
  kept : ∀ p ∈ s.verified, p.1 + part.eraseSize ≤ part.size ∧
    (flash.read p.1 (s.dev.block p.1)).1 = some p.2
  below : ∀ p ∈ s.verified, p.1 + part.eraseSize ≤ bound
  ahead : bound ≤ s.dev.filePos

/-- The data, the last block zero padded, was written and verified. -/
def Verified (flash : Flash part) (data : Bytes) (s : Recorded) : Prop :=
  ∃ bound, Stands flash (toBlocks part data) bound s

section Steps

variable {flash : Flash part} {blocks : List Bytes} {bound : Nat}
  {s : Recorded} {α : Type} {post : α → Recorded → Prop}

theorem Stands.start (dev : Device) : Stands flash [] 0 (.start dev) :=
  ⟨rfl, .nil, by simp [Recorded.start], by simp [Recorded.start],
    Nat.zero_le _⟩

/-- What is done from the bound on leaves the verified blocks alone. -/
theorem Stands.congr (h : Stands flash blocks bound s) {s' : Recorded}
    (hverified : s'.verified = s.verified)
    (hblock : ∀ q, q < bound → s'.dev.block q = s.dev.block q)
    (hahead : bound ≤ s'.dev.filePos) : Stands flash blocks bound s' := by
  have hsize := part.eraseSize_pos
  refine ⟨?_, ?_, ?_, ?_, hahead⟩
  · rw [hverified]
    exact h.blocks_eq
  · rw [hverified]
    exact h.ordered
  · intro p hp
    rw [hverified] at hp
    have hbelow := h.below p hp
    rw [hblock p.1 (by omega)]
    exact h.kept p hp
  · rw [hverified]
    exact h.below

/-- An erase from the bound on. -/
theorem Stands.erase (h : Stands flash blocks bound s) {pos len : Nat}
    (hpos : bound ≤ pos) (r : Bool) :
    Stands flash blocks bound (s.record (.erase pos len) r
      (flash.handler (.erase pos len) s.dev).2) := by
  refine h.congr rfl ?_ h.ahead
  intro q hq
  exact Function.update_of_ne (by omega) _ _

/-- One more block behind the bound. -/
theorem Stands.verify (h : Stands flash blocks bound s) {pos : Nat}
    {data : Bytes} {s' : Recorded} (hpos : bound ≤ pos)
    (hroom : pos + part.eraseSize ≤ part.size)
    (hverified : s'.verified = s.verified ++ [(pos, data)])
    (hblock : ∀ q, q < bound → s'.dev.block q = s.dev.block q)
    (hread : (flash.read pos (s'.dev.block pos)).1 = some data)
    (hahead : pos + part.eraseSize ≤ s'.dev.filePos) :
    Stands flash (blocks ++ [data]) (pos + part.eraseSize) s' := by
  have hsize := part.eraseSize_pos
  constructor
  · rw [hverified, List.map_append, h.blocks_eq]
    rfl
  · rw [hverified]
    apply List.pairwise_append.mpr
    refine ⟨h.ordered, List.pairwise_singleton _ _, ?_⟩
    intro p hp q hq
    obtain rfl := List.mem_singleton.mp hq
    exact (h.below p hp).trans hpos
  · intro p hp
    rw [hverified] at hp
    obtain hold | hnew := List.mem_append.mp hp
    · have hbelow := h.below p hold
      rw [hblock p.1 (by omega)]
      exact h.kept p hold
    · obtain rfl := List.mem_singleton.mp hnew
      exact ⟨hroom, hread⟩
  · intro p hp
    rw [hverified] at hp
    obtain hold | hnew := List.mem_append.mp hp
    · exact (h.below p hold).trans (by omega)
    · obtain rfl := List.mem_singleton.mp hnew
      exact le_rfl
  · exact hahead

/-- A call that does not fail has the answer of the device. -/
theorem safe_recorded_of {c : Call} {next : Answer c → MtdProg α}
    (hno : ∀ r, ¬c.Fails r)
    (hnext : Prog.Safe flash.recorded (fun _ => True) post
      (next (flash.handler c s.dev).1)
      (s.record c (flash.handler c s.dev).1 (flash.handler c s.dev).2)) :
    Prog.Safe flash.recorded (fun _ => True) post (.call c next) s := by
  refine ⟨trivial, ?_⟩
  rintro r after ⟨dev, hsame | ⟨hfail, -⟩, rfl⟩
  · rw [← hsame] at hnext
    exact hnext
  · exact absurd hfail (hno r)

/-- One block more if `ok`, and no block less. -/
def Attempted (flash : Flash part) (blocks : List Bytes) (bound : Nat)
    (data : Bytes) (ok : Bool) (s : Recorded) : Prop :=
  if ok then Stands flash (blocks ++ [data]) s.dev.filePos s
  else Stands flash blocks bound s

/-- The data was written to `pos`, where the file position is again. -/
structure Filled (bound pos : Nat) (data : Bytes) (s full : Recorded) :
    Prop where
  last : full.last = some (pos, data)
  verified : full.verified = s.verified
  filePos : full.dev.filePos = pos
  block : ∀ q, q < bound → full.dev.block q = s.dev.block q

/-- The block is read again, and its data is compared. -/
theorem reread_safe {pos : Nat} {data : Bytes} {full : Recorded}
    (h : Stands flash blocks bound s) (hpos : bound ≤ pos)
    (hroom : pos + part.eraseSize ≤ part.size)
    (hfull : Filled bound pos data s full) {again : MtdProg Bool}
    (hagain : ∀ s', Stands flash blocks bound s' →
      Prog.Safe flash.recorded (fun _ => True)
        (Attempted flash blocks bound data) again s') :
    Prog.Safe flash.recorded (fun _ => True)
      (Attempted flash blocks bound data)
      (readCall part.eraseSize >>= fun read =>
        match read with
        | none => again
        | some verify => if verify = data then pure true else again)
      full := by
  apply safe_recorded_of fun _ => id
  -- A block that differs or cannot be read changes nothing below the bound.
  have hretry : ∀ s' : Recorded, s'.verified = full.verified →
      s'.dev.block = full.dev.block → pos ≤ s'.dev.filePos →
      Prog.Safe flash.recorded (fun _ => True)
        (Attempted flash blocks bound data) again s' := by
    intro s' hverified hblock hahead
    apply hagain
    apply h.congr
    · exact hverified.trans hfull.verified
    · intro q hq
      exact (congrFun hblock q).trans (hfull.block q hq)
    · exact hpos.trans hahead
  have hanswer : (flash.handler (.read part.eraseSize) full.dev).1 =
      (flash.read pos (full.dev.block pos)).1 := by
    rw [Flash.handler, hfull.filePos]
  have hblock : (flash.handler (.read part.eraseSize) full.dev).2.block =
      full.dev.block := rfl
  have hfilePos : (flash.handler (.read part.eraseSize) full.dev).2.filePos =
      if (flash.read pos (full.dev.block pos)).1.isSome
        then pos + part.eraseSize else pos := by
    rw [Flash.handler, hfull.filePos]
  generalize (flash.handler (.read part.eraseSize) full.dev).2 = dev
    at hblock hfilePos ⊢
  rw [hanswer]
  cases hread : (flash.read pos (full.dev.block pos)).1 with
  | none =>
      rw [hread] at hfilePos
      exact hretry _ rfl hblock hfilePos.ge
  | some verify =>
      rw [hread] at hfilePos
      have hahead : dev.filePos = pos + part.eraseSize := hfilePos
      by_cases hsame : verify = data
      · subst hsame
        have hrecord : full.record (.read part.eraseSize) (some verify) dev =
            ⟨dev, full.last, full.verified ++ [(pos, verify)]⟩ := by
          rw [Recorded.record, hfull.filePos, if_pos hfull.last]
        have hdone : Stands flash (blocks ++ [verify])
            (pos + part.eraseSize)
            ⟨dev, full.last, full.verified ++ [(pos, verify)]⟩ := by
          apply h.verify hpos hroom
          · rw [hfull.verified]
          · intro q hq
            exact (congrFun hblock q).trans (hfull.block q hq)
          · dsimp only
            rw [hblock, hread]
          · exact hahead.ge
        rw [hrecord, Prog.bind]
        dsimp only
        rw [if_pos rfl]
        refine ⟨trivial, ?_⟩
        rw [← hahead] at hdone
        exact hdone
      · have hrecord : full.record (.read part.eraseSize) (some verify) dev =
            { full with dev := dev } := by
          rw [Recorded.record, hfull.filePos, hfull.last, if_neg]
          intro heq
          exact hsame (Prod.mk.inj (Option.some_inj.mp heq)).2.symm
        rw [hrecord, Prog.bind]
        dsimp only
        rw [if_neg hsame]
        apply hretry { full with dev := dev } rfl hblock
        dsimp only
        omega

/-- One retry after the other. -/
theorem writeAttempts_safe {pos : Nat} {data : Bytes}
    (h : Stands flash blocks bound s) (hpos : bound ≤ pos)
    (hroom : pos + part.eraseSize ≤ part.size) (retries : Nat) :
    Prog.Safe flash.recorded (fun _ => True)
      (Attempted flash blocks bound data)
      (writeAttempts part pos data retries) s := by
  induction retries generalizing s with
  | zero => exact ⟨trivial, h⟩
  | succ retries ih =>
      rw [writeAttempts]
      apply safe_recorded_of fun _ => id
      cases herase : (flash.handler (.erase pos part.eraseSize) s.dev).1 with
      | false => exact ih (h.erase hpos _)
      | true =>
          -- Seek, write, and seek back.
          apply safe_recorded_of fun _ => id
          apply safe_recorded_of fun _ => id
          apply safe_recorded_of fun _ => id
          let erased := Function.update s.dev.block pos
            (flash.erased pos (s.dev.block pos))
          let full := Function.update erased pos
            (flash.programmed pos (erased pos) data)
          have hfilled : Filled bound pos data s
              ⟨⟨full, pos, s.dev.eccFailed⟩, some (pos, data),
                s.verified⟩ := by
            refine ⟨rfl, rfl, rfl, ?_⟩
            intro q hq
            have hne : q ≠ pos := by omega
            exact (Function.update_of_ne hne _ _).trans
              (Function.update_of_ne hne _ _)
          exact reread_safe h hpos hroom hfilled fun s' hs' => ih hs'

/-- `write_block` goes from block to block until one verifies. -/
theorem writeBlockLoop_safe {data pending : Bytes} {count pos : Nat}
    {ctx : WriteContext} (h : Stands flash blocks bound s)
    (hpending : ctx.pending = pending) (hpos : bound ≤ pos)
    (hroom : count ≠ 0 → pos + count * part.eraseSize ≤ part.limit) :
    Prog.Safe flash.recorded (fun _ => True)
      (fun r s' => Attempted flash blocks bound data r.1 s' ∧
        r.2.pending = pending)
      (writeBlockLoop part data count pos ctx) s := by
  induction count generalizing pos ctx s with
  | zero => exact ⟨trivial, h, hpending⟩
  | succ count ih =>
      have hall := hroom (Nat.succ_ne_zero count)
      rw [Nat.succ_mul] at hall
      have hlimit := part.limit_le
      have hthere : count ≠ 0 →
          pos + part.eraseSize + count * part.eraseSize ≤ part.limit := by
        intro _
        omega
      rw [writeBlockLoop]
      apply safe_recorded_of fun _ => id
      rw [Prog.bind]
      have hmarked : Stands flash blocks bound
          (s.record (.getBadBlock pos) (flash.mark pos) s.dev) :=
        h.congr rfl (fun _ _ => rfl) h.ahead
      split
      next => exact ih hmarked hpending (by omega) hthere
      next =>
        apply Prog.Safe.bind
          (writeAttempts_safe hmarked hpos (by omega) 2)
        intro ok s' _ hok
        cases ok with
        | true => exact ⟨trivial, hok, hpending⟩
        | false =>
            have hfailed : Stands flash blocks bound s' := hok
            apply safe_recorded_of fun _ => id
            exact ih (hfailed.erase hpos _) hpending (by omega) hthere

theorem writeBlock_safe {data : Bytes} {ctx : WriteContext}
    (h : Stands flash blocks bound s) :
    Prog.Safe flash.recorded (fun _ => True)
      (fun r s' => Attempted flash blocks bound data r.1 s' ∧
        r.2.pending = ctx.pending)
      (writeBlock part ctx data) s := by
  refine ⟨trivial, ?_⟩
  rintro r after ⟨dev, hsame | ⟨hfail, rfl⟩, rfl⟩
  · obtain ⟨rfl, rfl⟩ := Prod.mk.inj hsame
    have hasked : Stands flash blocks bound
        (s.record .lseekCur (some s.dev.filePos) s.dev) :=
      h.congr rfl (fun _ _ => rfl) h.ahead
    exact writeBlockLoop_safe hasked rfl h.ahead part.blocksFrom_mul_le
  · cases hfail
    exact ⟨trivial, h.congr rfl (fun _ _ => rfl) h.ahead, rfl⟩

/-- Blocks that were all accepted are all verified. -/
theorem handBlocks_safe {datas : List Bytes} {ctx : WriteContext}
    (h : Stands flash blocks bound s) :
    Prog.Safe flash.recorded (fun _ => True)
      (fun r s' => ∀ ctx', r = some ctx' →
        ∃ bound', Stands flash (blocks ++ datas) bound' s')
      (handBlocks part ctx datas) s := by
  induction datas generalizing blocks bound ctx s with
  | nil =>
      refine ⟨trivial, fun _ _ => ⟨bound, ?_⟩⟩
      rwa [List.append_nil]
  | cons data datas ih =>
      rw [handBlocks]
      apply Prog.Safe.bind (Prog.Safe.bind (writeBlock_safe h) ?_)
      rotate_left
      · exact fun r s' => ∀ ctx', r = some ctx' →
          ∃ bound', Stands flash (blocks ++ [data]) bound' s'
      · rintro ⟨ok, ctx'⟩ s' - ⟨hok, -⟩
        cases ok with
        | false => exact ⟨trivial, fun _ hsome => by cases hsome⟩
        | true => exact ⟨trivial, fun _ _ => ⟨_, hok⟩⟩
      · intro r s' _ hr
        cases r with
        | none => exact ⟨trivial, fun _ hsome => by cases hsome⟩
        | some ctx' =>
            obtain ⟨bound', hstands⟩ := hr ctx' rfl
            apply (ih hstands).mono (fun _ h => h)
            intro r last _ hlast ctx'' hsome
            obtain ⟨bound'', hall⟩ := hlast ctx'' hsome
            rw [List.append_assoc] at hall
            exact ⟨bound'', hall⟩

end Steps

/-- The data was taken over: its complete blocks are verified, and the rest is
pending. -/
def TakenOver (flash : Flash part) (taken : Bytes) (ctx : WriteContext)
    (s : Recorded) : Prop :=
  ctx.pending = lastBytes part taken ∧
    ∃ bound, Stands flash (completeBlocks part taken) bound s

/-- Nothing is pending any more. -/
def Flushed (flash : Flash part) (taken : Bytes) (ctx : WriteContext)
    (s : Recorded) : Prop :=
  ctx.pending = [] ∧ Verified flash taken s

section Sessions

variable {flash : Flash part} {taken data : Bytes} {ctx : WriteContext}
  {s : Recorded}

theorem TakenOver.start (flash : Flash part) (dev : Device) :
    TakenOver flash [] ⟨[], []⟩ (.start dev) := by
  have hempty : ([] : Bytes).length < part.eraseSize := part.eraseSize_pos
  refine ⟨(lastBytes_short hempty).symm, 0, ?_⟩
  rw [completeBlocks_short hempty]
  exact .start dev

theorem mtdWritePartition_safe (dev : Device) :
    Prog.Safe flash.recorded (fun _ => True)
      (fun r s' => ∀ ctx, r = some ctx → TakenOver flash [] ctx s')
      mtdWritePartition (.start dev) := by
  refine ⟨trivial, ?_⟩
  rintro r after ⟨dev', hopen, rfl⟩
  cases r with
  | false => exact ⟨trivial, fun _ hsome => by cases hsome⟩
  | true =>
      refine ⟨trivial, ?_⟩
      intro ctx hsome
      cases hsome
      exact TakenOver.start flash dev'

theorem mtdWriteData_safe (h : TakenOver flash taken ctx s) :
    Prog.Safe flash.recorded (fun _ => True)
      (fun r s' => r.1 = true → TakenOver flash (taken ++ data) r.2 s')
      (mtdWriteData part ctx data) s := by
  obtain ⟨hpending, bound, hstands⟩ := h
  have hroom : ctx.pending.length < part.eraseSize := by
    rw [hpending]
    exact lastBytes_length taken
  obtain ⟨hblocks, hlast⟩ := cut_append part taken data
  apply Prog.Safe.of_whenOk
  rw [mtdWriteData_eq part data hroom, takeOver, Prog.andThen]
  apply Prog.Safe.bind (handBlocks_safe hstands)
  intro r s' _ hr
  cases r with
  | none => exact ⟨trivial, fun _ hsome => by cases hsome⟩
  | some ctx' =>
      obtain ⟨bound', hall⟩ := hr ctx' rfl
      refine ⟨trivial, ?_⟩
      intro ctx'' hsome
      cases hsome
      rw [hpending, ← hblocks] at hall
      refine ⟨?_, bound', hall⟩
      dsimp only
      rw [hpending, ← hlast]

/-- The last block is padded and written if there is one. -/
theorem padPending_safe (h : TakenOver flash taken ctx s) :
    Prog.Safe flash.recorded (fun _ => True)
      (fun r s' => if r.1 then Flushed flash taken r.2 s'
        else TakenOver flash taken r.2 s')
      (padPending part ctx) s := by
  obtain ⟨hpending, bound, hstands⟩ := h
  have hblocks : toBlocks part taken = completeBlocks part taken ++
      toBlocks part (lastBytes part taken) := toBlocks_eq taken
  unfold padPending
  by_cases hempty : ctx.pending = []
  · rw [if_neg (not_not.mpr hempty)]
    rw [← hpending, hempty] at hblocks
    have hnothing : toBlocks part [] = [] := rfl
    rw [hnothing, List.append_nil] at hblocks
    refine ⟨trivial, hempty, bound, ?_⟩
    rwa [hblocks]
  · rw [if_pos hempty]
    apply Prog.Safe.bind (writeBlock_safe hstands)
    rintro ⟨ok, ctx'⟩ s' - ⟨hok, hsame⟩
    cases ok with
    | false => exact ⟨trivial, hsame.trans hpending, bound, hok⟩
    | true =>
        refine ⟨trivial, rfl, s'.dev.filePos, ?_⟩
        have hroom : ctx.pending.length < part.eraseSize := by
          rw [hpending]
          exact lastBytes_length taken
        rw [hblocks, ← hpending, toBlocks_short hempty hroom]
        exact hok

/-- Data that fills its blocks leaves nothing to wait. -/
theorem TakenOver.flushed (h : TakenOver flash taken ctx s)
    (hfull : part.eraseSize ∣ taken.length) : Flushed flash taken ctx s := by
  obtain ⟨hpending, bound, hstands⟩ := h
  have hlast : lastBytes part taken = [] := by
    rw [lastBytes, Nat.div_mul_cancel hfull, List.drop_length]
  have hnothing : toBlocks part [] = [] := rfl
  refine ⟨hpending.trans hlast, bound, ?_⟩
  rw [toBlocks_eq, hlast, hnothing, List.append_nil]
  exact hstands

theorem eraseLoop_safe {blocks : List Bytes} {bound count pos : Nat}
    (h : Stands flash blocks bound s) (hpos : bound ≤ pos) :
    Prog.Safe flash.recorded (fun _ => True)
      (fun _ s' => Stands flash blocks bound s')
      (eraseLoop part count pos) s := by
  induction count generalizing pos s with
  | zero => exact ⟨trivial, h⟩
  | succ count ih =>
      rw [eraseLoop]
      apply safe_recorded_of fun _ => id
      rw [Prog.bind]
      have hmarked : Stands flash blocks bound
          (s.record (.getBadBlock pos) (flash.mark pos) s.dev) :=
        h.congr rfl (fun _ _ => rfl) h.ahead
      split
      next => exact ih hmarked (by omega)
      next =>
        apply safe_recorded_of fun _ => id
        exact ih (hmarked.erase hpos _) (by omega)

/-- If the padding fails, so does `mtd_erase_blocks`. -/
theorem mtdEraseBlocks_of_padPending (kept : WriteContext → Recorded → Prop)
    (hpad : Prog.Safe flash.recorded (fun _ => True)
      (fun r s' => if r.1 then Flushed flash taken r.2 s' else kept r.2 s')
      (padPending part ctx) s) (blocks : Int) :
    Prog.Safe flash.recorded (fun _ => True)
      (fun r s' => Flushed flash taken r.2 s' ∨ r.1 = none ∧ kept r.2 s')
      (mtdEraseBlocks part ctx blocks) s := by
  apply Prog.Safe.bind hpad
  rintro ⟨ok, ctx'⟩ s' - hpost
  cases ok with
  | false => exact ⟨trivial, .inr ⟨rfl, hpost⟩⟩
  | true =>
      obtain ⟨hempty, bound, hstands⟩ := hpost
      refine ⟨trivial, ?_⟩
      rintro r after ⟨dev, hsame | ⟨hfail, rfl⟩, rfl⟩
      · obtain ⟨rfl, rfl⟩ := Prod.mk.inj hsame
        have hasked : Stands flash (toBlocks part taken) bound
            (s'.record .lseekCur (some s'.dev.filePos) s'.dev) :=
          hstands.congr rfl (fun _ _ => rfl) hstands.ahead
        dsimp only [Prog.bind]
        generalize (if blocks < 0 then
          (((part.size - s'.dev.filePos) / part.eraseSize : Nat) : Int)
          else blocks) = count
        split
        next => exact ⟨trivial, .inl ⟨hempty, bound, hasked⟩⟩
        next =>
          apply Prog.Safe.bind (eraseLoop_safe hasked hstands.ahead)
          intro stop last _ hlast
          exact ⟨trivial, .inl ⟨hempty, bound, hlast⟩⟩
      · cases hfail
        have hasked : Stands flash (toBlocks part taken) bound
            (s'.record .lseekCur none s'.dev) :=
          hstands.congr rfl (fun _ _ => rfl) hstands.ahead
        exact ⟨trivial, .inl ⟨hempty, bound, hasked⟩⟩

theorem TakenOver.mtdEraseBlocks (h : TakenOver flash taken ctx s)
    (blocks : Int) :
    Prog.Safe flash.recorded (fun _ => True)
      (fun r s' => Flushed flash taken r.2 s' ∨
        r.1 = none ∧ TakenOver flash taken r.2 s')
      (mtdEraseBlocks part ctx blocks) s :=
  mtdEraseBlocks_of_padPending _ (padPending_safe h) blocks

theorem Flushed.mtdEraseBlocks (h : Flushed flash taken ctx s)
    (blocks : Int) :
    Prog.Safe flash.recorded (fun _ => True)
      (fun r s' => Flushed flash taken r.2 s')
      (mtdEraseBlocks part ctx blocks) s := by
  have hpad : Prog.Safe flash.recorded (fun _ => True)
      (fun r s' => if r.1 then Flushed flash taken r.2 s' else False)
      (padPending part ctx) s := by
    unfold padPending
    rw [if_neg (not_not.mpr h.1)]
    exact ⟨trivial, h⟩
  apply (mtdEraseBlocks_of_padPending (fun _ _ => False) hpad blocks).mono
    (fun _ h => h)
  rintro r s' - (hflushed | ⟨-, hfalse⟩)
  · exact hflushed
  · exact hfalse.elim

theorem Verified.close (h : Verified flash taken s) {closed : Bool}
    {dev : Device} (hclose : flash.answers .close s.dev closed dev) :
    Verified flash taken (s.record .close closed dev) := by
  obtain ⟨bound, hstands⟩ := h
  refine ⟨bound, ?_⟩
  obtain hsame | ⟨-, rfl⟩ := hclose
  · obtain ⟨-, rfl⟩ := Prod.mk.inj hsame
    exact hstands.congr rfl (fun _ _ => rfl) hstands.ahead
  · exact hstands.congr rfl (fun _ _ => rfl) hstands.ahead

/-- The close writes what is still pending. -/
theorem TakenOver.mtdWriteClose (h : TakenOver flash taken ctx s) :
    Prog.Safe flash.recorded (fun _ => True)
      (fun closed s' => closed = true → Verified flash taken s')
      (mtdWriteClose part ctx) s := by
  apply Prog.Safe.bind (h.mtdEraseBlocks 0)
  rintro ⟨erased, ctx'⟩ s' - hpost
  refine ⟨trivial, ?_⟩
  rintro closed after ⟨dev, hclose, rfl⟩
  refine ⟨trivial, fun hclosed => ?_⟩
  obtain ⟨-, hverified⟩ | ⟨hnone, -⟩ := hpost
  · exact hverified.close hclose
  · dsimp only at hnone
    rw [hnone] at hclosed
    cases hclosed

theorem Flushed.mtdWriteClose (h : Flushed flash taken ctx s) :
    Prog.Safe flash.recorded (fun _ => True)
      (fun _ s' => Verified flash taken s')
      (mtdWriteClose part ctx) s := by
  apply Prog.Safe.bind (h.mtdEraseBlocks 0)
  rintro ⟨erased, ctx'⟩ s' - ⟨-, hverified⟩
  refine ⟨trivial, ?_⟩
  rintro closed after ⟨dev, hclose, rfl⟩
  exact ⟨trivial, hverified.close hclose⟩

end Sessions

end Mtd

end MetaOS
