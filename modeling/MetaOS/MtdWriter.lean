/-
What a write session leaves on flash.

`Written` follows the writer block by block: which blocks it passed over,
which ones it used and what it left in each.  The sessions of `mtdutils` are
reduced to it whatever sizes the data comes in.
-/
import MetaOS.Flash

namespace MetaOS

namespace Mtd

variable {part : Partition} (flash : Flash part)

/-- The writer puts a list of blocks on flash, from `pos` on and up to
`stop`.  `bad` are the blocks it passes over and `used` the ones it uses. -/
inductive Written (before after : Nat → Block) :
    (pos : Nat) → (datas : List Bytes) → (bad used : List Nat) →
    (stop : Nat) → Prop
  | done {pos : Nat} : Written before after pos [] [] [] pos
  | marked {pos stop : Nat} {data : Bytes} {datas : List Bytes}
      {bad used : List Nat} (hroom : pos + part.eraseSize ≤ part.limit)
      (hmark : 0 < flash.mark pos) (hleft : after pos = before pos)
      (hnext : Written before after (pos + part.eraseSize) (data :: datas)
        bad used stop) :
      Written before after pos (data :: datas) (pos :: bad) used stop
  | givenUp {pos stop : Nat} {data : Bytes} {datas : List Bytes}
      {bad used : List Nat} (hroom : pos + part.eraseSize ≤ part.limit)
      (hmark : ¬ 0 < flash.mark pos)
      (hfail : (flash.put pos data (before pos)).1 = false)
      (hleft : after pos = (flash.put pos data (before pos)).2)
      (hnext : Written before after (pos + part.eraseSize) (data :: datas)
        bad used stop) :
      Written before after pos (data :: datas) (pos :: bad) used stop
  | used {pos stop : Nat} {data : Bytes} {datas : List Bytes}
      {bad used : List Nat} (hroom : pos + part.eraseSize ≤ part.limit)
      (hmark : ¬ 0 < flash.mark pos)
      (hok : (flash.put pos data (before pos)).1 = true)
      (hleft : after pos = (flash.put pos data (before pos)).2)
      (hnext : Written before after (pos + part.eraseSize) datas
        bad used stop) :
      Written before after pos (data :: datas) bad (pos :: used) stop

variable {flash}

theorem Written.le {before after : Nat → Block} {pos stop : Nat}
    {datas : List Bytes} {bad used : List Nat}
    (hwritten : Written flash before after pos datas bad used stop) :
    pos ≤ stop := by
  induction hwritten with
  | done => exact le_rfl
  | marked _ _ _ _ ih => omega
  | givenUp _ _ _ _ _ ih => omega
  | used _ _ _ _ _ ih => omega

/-- Only the blocks between the two positions matter. -/
theorem Written.congr {before after before' after' : Nat → Block}
    {pos stop : Nat} {datas : List Bytes} {bad used : List Nat}
    (hwritten : Written flash before after pos datas bad used stop)
    (hbefore : ∀ q, pos ≤ q → q < stop → before' q = before q)
    (hafter : ∀ q, pos ≤ q → q < stop → after' q = after q) :
    Written flash before' after' pos datas bad used stop := by
  have hsize := part.eraseSize_pos
  induction hwritten with
  | done => exact Written.done
  | @marked pos stop _ _ _ _ hroom hmark hleft hnext ih =>
      have hle := hnext.le
      apply Written.marked hroom hmark
      · rw [hbefore pos le_rfl (by omega), hafter pos le_rfl (by omega),
          hleft]
      · exact ih (fun q hq => hbefore q (by omega))
          (fun q hq => hafter q (by omega))
  | @givenUp pos stop _ _ _ _ hroom hmark hfail hleft hnext ih =>
      have hle := hnext.le
      rw [← hbefore pos le_rfl (by omega)] at hfail hleft
      rw [← hafter pos le_rfl (by omega)] at hleft
      exact Written.givenUp hroom hmark hfail hleft
        (ih (fun q hq => hbefore q (by omega))
          (fun q hq => hafter q (by omega)))
  | @used pos stop _ _ _ _ hroom hmark hok hleft hnext ih =>
      have hle := hnext.le
      rw [← hbefore pos le_rfl (by omega)] at hok hleft
      rw [← hafter pos le_rfl (by omega)] at hleft
      exact Written.used hroom hmark hok hleft
        (ih (fun q hq => hbefore q (by omega))
          (fun q hq => hafter q (by omega)))

theorem Written.append {before after : Nat → Block} {pos middle stop : Nat}
    {datas datas' : List Bytes} {bad bad' used used' : List Nat}
    (hfirst : Written flash before after pos datas bad used middle)
    (hsecond : Written flash before after middle datas' bad' used' stop) :
    Written flash before after pos (datas ++ datas') (bad ++ bad')
      (used ++ used') stop := by
  induction hfirst with
  | done => exact hsecond
  | marked hroom hmark hleft _ ih =>
      exact Written.marked hroom hmark hleft (ih hsecond)
  | givenUp hroom hmark hfail hleft _ ih =>
      exact Written.givenUp hroom hmark hfail hleft (ih hsecond)
  | used hroom hmark hok hleft _ ih =>
      exact Written.used hroom hmark hok hleft (ih hsecond)

variable (flash)

/-- A run of the writer between two states of its context and the device. -/
structure Wrote (ctx : WriteContext) (dev : Device) (datas : List Bytes)
    (ctx' : WriteContext) (dev' : Device) : Prop where
  written : ∃ bad used,
    Written flash dev.block dev'.block dev.filePos datas bad used
      dev'.filePos ∧
    ctx'.badBlockOffsets = ctx.badBlockOffsets ++ bad
  frame : ∀ q, q < dev.filePos ∨ dev'.filePos ≤ q →
    dev'.block q = dev.block q

variable {flash}

theorem Wrote.refl {ctx ctx' : WriteContext} {dev : Device}
    (hbad : ctx'.badBlockOffsets = ctx.badBlockOffsets) :
    Wrote flash ctx dev [] ctx' dev :=
  ⟨⟨[], [], Written.done, by rw [hbad, List.append_nil]⟩, fun _ _ => rfl⟩

theorem Wrote.le {ctx ctx' : WriteContext} {dev dev' : Device}
    {datas : List Bytes} (hwrote : Wrote flash ctx dev datas ctx' dev') :
    dev.filePos ≤ dev'.filePos := by
  obtain ⟨bad, used, hwritten, -⟩ := hwrote.written
  exact hwritten.le

theorem Wrote.trans {ctx ctx' ctx'' : WriteContext}
    {dev dev' dev'' : Device} {datas datas' : List Bytes}
    (hfirst : Wrote flash ctx dev datas ctx' dev')
    (hsecond : Wrote flash ctx' dev' datas' ctx'' dev'') :
    Wrote flash ctx dev (datas ++ datas') ctx'' dev'' := by
  have hle := hfirst.le
  have hle' := hsecond.le
  obtain ⟨bad, used, hwritten, hbad⟩ := hfirst.written
  obtain ⟨bad', used', hwritten', hbad'⟩ := hsecond.written
  constructor
  · have hearly := hwritten.congr (fun _ _ _ => rfl)
      fun q _ hq => hsecond.frame q (Or.inl hq)
    have hlate := hwritten'.congr
      (fun q hq _ => (hfirst.frame q (Or.inr hq)).symm) fun _ _ _ => rfl
    refine ⟨bad ++ bad', used ++ used', hearly.append hlate, ?_⟩
    rw [hbad', hbad, List.append_assoc]
  · intro q hq
    rw [hsecond.frame q (by omega), hfirst.frame q (by omega)]

/-- Moving on past a block that was not used. -/
theorem Wrote.of_passed {ctx ctx' : WriteContext} {dev dev' mid : Device}
    {data : Bytes} {pos : Nat}
    (hrest : Wrote flash (addBadBlockOffset ctx pos) mid [data] ctx' dev')
    (hpos : dev.filePos = pos) (hmid : mid.filePos = pos + part.eraseSize)
    (hframe : ∀ q, q ≠ pos → mid.block q = dev.block q)
    (hpassed : ∀ {bad used : List Nat},
      Written flash dev.block dev'.block (pos + part.eraseSize) [data] bad
        used dev'.filePos →
      dev'.block pos = mid.block pos →
      Written flash dev.block dev'.block pos [data] (pos :: bad) used
        dev'.filePos) :
    Wrote flash ctx dev [data] ctx' dev' := by
  have hsize := part.eraseSize_pos
  have hle := hrest.le
  obtain ⟨bad, used, hwritten, hbad⟩ := hrest.written
  constructor
  · refine ⟨pos :: bad, used, ?_, ?_⟩
    · rw [hpos]
      apply hpassed
      · rw [hmid] at hwritten
        exact hwritten.congr
          (fun q hq _ => (hframe q (by omega)).symm) fun _ _ _ => rfl
      · exact hrest.frame pos (by omega)
    · rw [hbad, addBadBlockOffset, List.append_assoc]
      rfl
  · intro q hq
    rw [hrest.frame q (by omega), hframe q (by omega)]

theorem attempts_of_put {pos : Nat} {data : Bytes} {block : Block}
    (hok : (flash.attempts pos data 2 block).1 = true) :
    flash.put pos data block = flash.attempts pos data 2 block := by
  simp [Flash.put, hok]

theorem put_of_attempts_false {pos : Nat} {data : Bytes} {block : Block}
    (hfail : (flash.attempts pos data 2 block).1 = false) :
    flash.put pos data block =
      (false, flash.erased pos (flash.attempts pos data 2 block).2) := by
  simp [Flash.put, hfail]

variable (flash)

/-- One pass of the loop of `write_block`. -/
theorem run_writeBlockLoop_succ (data : Bytes) (blocks pos : Nat)
    (ctx : WriteContext) (dev : Device) :
    flash.run (writeBlockLoop part data (blocks + 1) pos ctx) dev =
      if 0 < flash.mark pos then
        flash.run (writeBlockLoop part data blocks (pos + part.eraseSize)
          (addBadBlockOffset ctx pos)) dev
      else
        let tried := flash.run (writeAttempts part pos data 2) dev
        if tried.1 then ((true, ctx), tried.2)
        else flash.run (writeBlockLoop part data blocks (pos + part.eraseSize)
          (addBadBlockOffset ctx pos))
          { tried.2 with
            block := Function.update tried.2.block pos
              (flash.erased pos (tried.2.block pos)) } := by
  rw [writeBlockLoop]
  simp only [Flash.run_bind, Flash.run_memGetBadBlock, gt_iff_lt]
  by_cases hmark : 0 < flash.mark pos
  · simp [hmark]
  · by_cases htried : (flash.run (writeAttempts part pos data 2) dev).1 = true
    · simp [hmark, htried]
    · simp [hmark, htried]

/-- A successful `write_block` loop. -/
theorem run_writeBlockLoop (data : Bytes) (blocks pos : Nat)
    (ctx : WriteContext) (dev : Device)
    (hroom : blocks ≠ 0 → pos + blocks * part.eraseSize ≤ part.limit)
    (hok : (flash.run (writeBlockLoop part data blocks pos ctx) dev).1.1 =
      true) :
    Wrote flash ctx { dev with filePos := pos } [data]
      (flash.run (writeBlockLoop part data blocks pos ctx) dev).1.2
      (flash.run (writeBlockLoop part data blocks pos ctx) dev).2 ∧
    (flash.run (writeBlockLoop part data blocks pos ctx) dev).1.2.pending =
      ctx.pending := by
  have hsize := part.eraseSize_pos
  induction blocks generalizing pos ctx dev with
  | zero => simp [writeBlockLoop] at hok
  | succ blocks ih =>
      have hall := hroom (Nat.succ_ne_zero blocks)
      rw [Nat.succ_mul] at hall
      have hhere : pos + part.eraseSize ≤ part.limit := by omega
      have hthere : blocks ≠ 0 →
          pos + part.eraseSize + blocks * part.eraseSize ≤ part.limit := by
        intro _
        omega
      rw [run_writeBlockLoop_succ] at hok ⊢
      by_cases hmark : 0 < flash.mark pos
      · rw [if_pos hmark] at hok ⊢
        obtain ⟨hrest, hpending⟩ := ih _ _ _ hthere hok
        refine ⟨?_, hpending⟩
        refine hrest.of_passed rfl rfl (fun _ _ => rfl) ?_
        intro bad used hwritten hleft
        exact Written.marked hhere hmark hleft hwritten
      · rw [if_neg hmark] at hok ⊢
        obtain ⟨hresult, hblock, hdone⟩ :=
          flash.run_writeAttempts pos data 2 dev
        simp only at hok ⊢
        by_cases htried :
            (flash.run (writeAttempts part pos data 2) dev).1 = true
        · rw [if_pos htried]
          rw [hresult] at htried
          have hput := attempts_of_put htried
          refine ⟨⟨⟨[], [pos], ?_, ?_⟩, ?_⟩, rfl⟩
          · rw [hdone htried]
            apply Written.used hhere hmark
            · rw [hput]
              exact htried
            · rw [hput, hblock, Function.update_self]
            · exact Written.done
          · rw [List.append_nil]
          · intro q hq
            rw [hdone htried] at hq
            rw [hblock, Function.update_of_ne (by dsimp at hq; omega)]
        · rw [if_neg htried] at hok ⊢
          have hfail : (flash.attempts pos data 2 (dev.block pos)).1 =
              false := by
            rw [← hresult]
            simpa using htried
          have hput := put_of_attempts_false hfail
          obtain ⟨hrest, hpending⟩ := ih _ _ _ hthere hok
          refine ⟨?_, hpending⟩
          refine hrest.of_passed rfl rfl ?_ ?_
          · intro q hq
            simp [hblock, hq]
          · intro bad used hwritten hleft
            apply Written.givenUp hhere hmark
            · rw [hput]
            · rw [hput, hleft, hblock]
              simp
            · exact hwritten

theorem run_writeBlock (ctx : WriteContext) (data : Bytes) (dev : Device)
    (hok : (flash.run (writeBlock part ctx data) dev).1.1 = true) :
    Wrote flash ctx dev [data] (flash.run (writeBlock part ctx data) dev).1.2
      (flash.run (writeBlock part ctx data) dev).2 ∧
    (flash.run (writeBlock part ctx data) dev).1.2.pending = ctx.pending := by
  have hrun : flash.run (writeBlock part ctx data) dev = flash.run
      (writeBlockLoop part data (part.blocksFrom dev.filePos) dev.filePos
        ctx) dev := by
    simp [writeBlock]
  rw [hrun] at hok ⊢
  exact run_writeBlockLoop flash data _ dev.filePos ctx dev
    part.blocksFrom_mul_le hok

/-- The writer took over `data`: what was pending and the new bytes went into
whole blocks, and the rest is pending now. -/
structure Took (ctx : WriteContext) (dev : Device) (data : Bytes)
    (ctx' : WriteContext) (dev' : Device) : Prop where
  wrote : ∃ datas, (∀ block ∈ datas, block.length = part.eraseSize) ∧
    ctx.pending ++ data = datas.flatten ++ ctx'.pending ∧
    Wrote flash ctx dev datas ctx' dev'

variable {flash}

theorem Took.trans {ctx ctx' ctx'' : WriteContext} {dev dev' dev'' : Device}
    {data data' : Bytes} (hfirst : Took flash ctx dev data ctx' dev')
    (hsecond : Took flash ctx' dev' data' ctx'' dev'') :
    Took flash ctx dev (data ++ data') ctx'' dev'' := by
  obtain ⟨datas, hlength, hsplit, hwrote⟩ := hfirst.wrote
  obtain ⟨datas', hlength', hsplit', hwrote'⟩ := hsecond.wrote
  refine ⟨datas ++ datas', ?_, ?_, hwrote.trans hwrote'⟩
  · intro block hblock
    rcases List.mem_append.mp hblock with hold | hnew
    · exact hlength block hold
    · exact hlength' block hnew
  · rw [← List.append_assoc, hsplit, List.append_assoc, hsplit',
      List.flatten_append, List.append_assoc]

/-- One whole block goes to flash, and nothing is pending afterwards. -/
theorem Took.of_wrote {ctx ctx' ctx'' : WriteContext} {dev dev' : Device}
    {data block : Bytes} (hblock : ctx.pending ++ data = block)
    (hlength : block.length = part.eraseSize)
    (hwrote : Wrote flash ctx dev [block] ctx' dev')
    (hpending : ctx''.pending = [])
    (hbad : ctx''.badBlockOffsets = ctx'.badBlockOffsets) :
    Took flash ctx dev data ctx'' dev' := by
  refine ⟨[block], ?_, ?_, hbad ▸ hwrote.written, hwrote.frame⟩
  · intro block' hmem
    rw [List.mem_singleton.mp hmem, hlength]
  · rw [hblock, hpending]
    simp

variable (flash)

theorem Took.buffered (ctx : WriteContext) (dev : Device) (data : Bytes) :
    Took flash ctx dev data { ctx with pending := ctx.pending ++ data }
      dev :=
  ⟨[], by simp, rfl, Wrote.refl rfl⟩

theorem run_writePending (ctx : WriteContext) (dev : Device)
    (hok : (flash.run (writePending part ctx) dev).1.1 = true) :
    Took flash ctx dev [] (flash.run (writePending part ctx) dev).1.2
      (flash.run (writePending part ctx) dev).2 ∧
    (flash.run (writePending part ctx) dev).1.2.pending =
      if ctx.pending.length = part.eraseSize then [] else ctx.pending := by
  unfold writePending at hok ⊢
  by_cases hfull : ctx.pending.length = part.eraseSize
  · simp only [hfull, if_true, Flash.run_bind, Prog.pure_eq_ret,
      Flash.run_ret] at hok ⊢
    obtain ⟨hwrote, -⟩ := run_writeBlock flash ctx ctx.pending dev hok
    simp only [hok, if_true, and_true]
    exact Took.of_wrote (List.append_nil _) hfull hwrote rfl rfl
  · simp only [hfull, if_false, Prog.pure_eq_ret, Flash.run_ret, and_true]
    have htook := Took.buffered flash ctx dev []
    rwa [List.append_nil] at htook

theorem run_writeDirect (blocks : Nat) (ctx : WriteContext) (data : Bytes)
    (dev : Device) (hroom : blocks * part.eraseSize ≤ data.length)
    (hpending : blocks ≠ 0 → ctx.pending = [])
    (hok : (flash.run (writeDirect part blocks ctx data) dev).1.1 = true) :
    Took flash ctx dev (data.take (blocks * part.eraseSize))
      (flash.run (writeDirect part blocks ctx data) dev).1.2.1
      (flash.run (writeDirect part blocks ctx data) dev).2 ∧
    (flash.run (writeDirect part blocks ctx data) dev).1.2.1.pending =
      ctx.pending ∧
    (flash.run (writeDirect part blocks ctx data) dev).1.2.2 =
      data.drop (blocks * part.eraseSize) := by
  induction blocks generalizing ctx data dev with
  | zero =>
      rw [Nat.zero_mul, List.take_zero, List.drop_zero]
      exact ⟨⟨[], by simp, by simp [writeDirect], Wrote.refl rfl⟩, rfl, rfl⟩
  | succ blocks ih =>
      have hempty := hpending (Nat.succ_ne_zero blocks)
      rw [Nat.succ_mul] at hroom ⊢
      rw [writeDirect] at hok ⊢
      simp only [Flash.run_bind] at hok ⊢
      by_cases hfirst : (flash.run (writeBlock part ctx
          (data.take part.eraseSize)) dev).1.1 = true
      · simp only [hfirst, if_true] at hok ⊢
        obtain ⟨hwrote, hsame⟩ := run_writeBlock flash ctx _ dev hfirst
        rw [hempty] at hsame
        have hlength : (data.take part.eraseSize).length =
            part.eraseSize := by
          rw [List.length_take]
          omega
        obtain ⟨htook, hsame', hrest⟩ := ih _ (data.drop part.eraseSize) _
          (by rw [List.length_drop]; omega) (fun _ => hsame) hok
        refine ⟨?_, ?_, ?_⟩
        · have hblock := Took.of_wrote
            (by rw [hempty, List.nil_append]) hlength hwrote hsame rfl
          rw [Nat.add_comm, List.take_add]
          exact hblock.trans htook
        · rw [hsame', hsame, hempty]
        · rw [hrest, List.drop_drop, Nat.add_comm]
      · simp [hfirst] at hok

/-- One pass of `mtd_write_data` takes over the front of the data. -/
theorem run_writePass (ctx : WriteContext) (data : Bytes) (dev : Device)
    (hdata : data ≠ []) (hroom : ctx.pending.length < part.eraseSize)
    (hok : (flash.run (writePass part ctx data) dev).1.1 = true) :
    ∃ len, 0 < len ∧
      Took flash ctx dev (data.take len)
        (flash.run (writePass part ctx data) dev).1.2.1
        (flash.run (writePass part ctx data) dev).2 ∧
      (flash.run (writePass part ctx data) dev).1.2.1.pending.length <
        part.eraseSize ∧
      (flash.run (writePass part ctx data) dev).1.2.2 = data.drop len := by
  have hsize := part.eraseSize_pos
  have hpos := List.length_pos_iff.mpr hdata
  unfold writePass at hok ⊢
  simp only [Flash.run_bind] at hok ⊢
  generalize hcopy : (if ctx.pending ≠ [] ∨ data.length < part.eraseSize
    then min data.length (part.eraseSize - ctx.pending.length)
    else 0) = copy at hok ⊢
  have hbuffered := Took.buffered flash ctx dev (data.take copy)
  have hlength : (ctx.pending ++ data.take copy).length =
      ctx.pending.length + copy := by
    rw [List.length_append, List.length_take]
    split at hcopy <;> omega
  by_cases hflush : (flash.run (writePending part
      { ctx with pending := ctx.pending ++ data.take copy }) dev).1.1 = true
  · simp only [hflush, if_true] at hok ⊢
    obtain ⟨hflushed, hpending⟩ := run_writePending flash _ dev hflush
    generalize flash.run (writePending part
      { ctx with pending := ctx.pending ++ data.take copy }) dev = flushed
      at hok hflushed hpending ⊢
    have htook := hbuffered.trans hflushed
    rw [List.append_nil] at htook
    generalize hblocks : (if flushed.1.2.pending = [] then
      (data.drop copy).length / part.eraseSize else 0) = blocks at hok ⊢
    have hfits : blocks * part.eraseSize ≤ (data.drop copy).length := by
      rw [← hblocks]
      split
      · exact Nat.div_mul_le_self _ _
      · omega
    obtain ⟨hdirect, hsame, hrest⟩ := run_writeDirect flash blocks _ _ _ hfits
      (by
        intro hne
        by_contra hfull
        rw [if_neg hfull] at hblocks
        exact hne hblocks.symm) hok
    refine ⟨copy + blocks * part.eraseSize, ?_, ?_, ?_, ?_⟩
    · by_cases hcopied : copy = 0
      · have hwhole : ctx.pending = [] ∧ part.eraseSize ≤ data.length := by
          by_contra hpart
          rw [if_pos] at hcopy
          · omega
          · by_cases hnone : ctx.pending = []
            · right
              by_contra hlong
              exact hpart ⟨hnone, by omega⟩
            · exact Or.inl hnone
        have hempty : flushed.1.2.pending = [] := by
          rw [hpending, hcopied]
          simp [hwhole.1]
        rw [if_pos hempty, hcopied, List.drop_zero] at hblocks
        have hsome : 0 < blocks := by
          rw [← hblocks]
          exact Nat.div_pos hwhole.2 hsize
        have hmul := Nat.mul_pos hsome hsize
        omega
      · omega
    · rw [List.take_add]
      exact htook.trans hdirect
    · rw [hsame, hpending]
      simp only [hlength]
      split
      · exact hsize
      · rw [hlength]
        split at hcopy <;> omega
    · rw [hrest, List.drop_drop]
  · simp [hflush] at hok

/-- A successful `mtd_write_data` call. -/
theorem run_writeLoop (fuel : Nat) (ctx : WriteContext) (data : Bytes)
    (dev : Device) (hfuel : data.length ≤ fuel)
    (hroom : ctx.pending.length < part.eraseSize)
    (hok : (flash.run (writeLoop part fuel ctx data) dev).1.1 = true) :
    Took flash ctx dev data (flash.run (writeLoop part fuel ctx data) dev).1.2
      (flash.run (writeLoop part fuel ctx data) dev).2 ∧
    (flash.run (writeLoop part fuel ctx data) dev).1.2.pending.length <
      part.eraseSize := by
  have hnothing : ∀ ctx dev, Took flash ctx dev [] ctx dev := by
    intro ctx dev
    have htook := Took.buffered flash ctx dev []
    rwa [List.append_nil] at htook
  induction fuel generalizing ctx data dev with
  | zero =>
      have hempty : data = [] := List.eq_nil_of_length_eq_zero (by omega)
      subst hempty
      exact ⟨hnothing ctx dev, hroom⟩
  | succ fuel ih =>
      rw [writeLoop] at hok ⊢
      by_cases hdata : data = []
      · subst hdata
        exact ⟨hnothing ctx dev, hroom⟩
      · simp only [hdata, if_false, Flash.run_bind] at hok ⊢
        by_cases hpass : (flash.run (writePass part ctx data) dev).1.1 = true
        · simp only [hpass, if_true] at hok ⊢
          obtain ⟨len, hlen, hfirst, hroom', hrest⟩ :=
            run_writePass flash ctx data dev hdata hroom hpass
          rw [hrest] at hok ⊢
          have hpos := List.length_pos_iff.mpr hdata
          obtain ⟨hlast, hroom''⟩ := ih _ (data.drop len) _
            (by rw [List.length_drop]; omega) hroom' hok
          refine ⟨?_, hroom''⟩
          have hall := hfirst.trans hlast
          rwa [List.take_append_drop] at hall
        · simp [hpass] at hok

theorem run_mtdWriteData (ctx : WriteContext) (data : Bytes) (dev : Device)
    (hroom : ctx.pending.length < part.eraseSize)
    (hok : (flash.run (mtdWriteData part ctx data) dev).1.1 = true) :
    Took flash ctx dev data (flash.run (mtdWriteData part ctx data) dev).1.2
      (flash.run (mtdWriteData part ctx data) dev).2 ∧
    (flash.run (mtdWriteData part ctx data) dev).1.2.pending.length <
      part.eraseSize :=
  run_writeLoop flash data.length ctx data dev le_rfl hroom hok

theorem run_writeAll (ctx : WriteContext) (writes : List Bytes)
    (dev : Device) (hroom : ctx.pending.length < part.eraseSize)
    (hok : (flash.run (writeAll part ctx writes) dev).1.1 = true) :
    Took flash ctx dev writes.flatten
      (flash.run (writeAll part ctx writes) dev).1.2
      (flash.run (writeAll part ctx writes) dev).2 ∧
    (flash.run (writeAll part ctx writes) dev).1.2.pending.length <
      part.eraseSize := by
  induction writes generalizing ctx dev with
  | nil =>
      have htook := Took.buffered flash ctx dev []
      rw [List.append_nil] at htook
      exact ⟨htook, hroom⟩
  | cons data writes ih =>
      rw [writeAll] at hok ⊢
      simp only [Flash.run_bind] at hok ⊢
      by_cases hfirst :
          (flash.run (mtdWriteData part ctx data) dev).1.1 = true
      · simp only [hfirst, if_true] at hok ⊢
        obtain ⟨htook, hroom'⟩ :=
          run_mtdWriteData flash ctx data dev hroom hfirst
        obtain ⟨hrest, hroom''⟩ := ih _ _ hroom' hok
        exact ⟨htook.trans hrest, hroom''⟩
      · simp [hfirst] at hok

/-- Data cut into blocks, the last one zero padded. -/
def cutBlocks (part : Partition) : (fuel : Nat) → Bytes → List Bytes
  | 0, _ => []
  | _ + 1, [] => []
  | fuel + 1, b :: data =>
      ((b :: data).take part.eraseSize ++
          List.replicate (part.eraseSize - (b :: data).length) 0) ::
        cutBlocks part fuel ((b :: data).drop part.eraseSize)

def toBlocks (part : Partition) (data : Bytes) : List Bytes :=
  cutBlocks part data.length data

theorem cutBlocks_of_le {fuel : Nat} {data : Bytes}
    (hfuel : data.length ≤ fuel) :
    cutBlocks part fuel data = toBlocks part data := by
  have hsize := part.eraseSize_pos
  unfold toBlocks
  induction fuel using Nat.strong_induction_on generalizing data with
  | _ fuel ih =>
      cases data with
      | nil => cases fuel <;> rfl
      | cons b data =>
          cases fuel with
          | zero => simp at hfuel
          | succ fuel =>
              have hshort : ((b :: data).drop part.eraseSize).length ≤
                  data.length := by
                rw [List.length_drop, List.length_cons]
                omega
              rw [List.length_cons] at hfuel ⊢
              rw [cutBlocks, cutBlocks, ih fuel (by omega) (by omega)]
              by_cases hlt : data.length < fuel + 1
              · rw [ih data.length (by omega) hshort]
              · omega

theorem toBlocks_cons {block : Bytes} (hblock : block.length = part.eraseSize)
    (rest : Bytes) : toBlocks part (block ++ rest) =
      block :: toBlocks part rest := by
  have hsize := part.eraseSize_pos
  cases block with
  | nil => simp at hblock; omega
  | cons b block =>
      have hfuel : (b :: block ++ rest).length = (block ++ rest).length + 1 :=
        rfl
      rw [toBlocks, hfuel, List.cons_append, cutBlocks, ← List.cons_append,
        ← hblock, List.take_left, List.drop_left, cutBlocks_of_le]
      · have hnone : (b :: block).length - (b :: block ++ rest).length = 0 := by
          rw [List.length_append]
          omega
        rw [hnone, List.replicate_zero, List.append_nil]
      · rw [List.length_append]
        omega

theorem toBlocks_flatten_append {datas : List Bytes}
    (hdatas : ∀ block ∈ datas, block.length = part.eraseSize) (rest : Bytes) :
    toBlocks part (datas.flatten ++ rest) = datas ++ toBlocks part rest := by
  induction datas with
  | nil => rfl
  | cons block datas ih =>
      rw [List.flatten_cons, List.append_assoc,
        toBlocks_cons (hdatas block List.mem_cons_self),
        ih fun block' hmem => hdatas block' (List.mem_cons_of_mem _ hmem)]
      rfl

/-- The last, incomplete block. -/
theorem toBlocks_short {data : Bytes} (hne : data ≠ [])
    (hshort : data.length < part.eraseSize) :
    toBlocks part data =
      [data ++ List.replicate (part.eraseSize - data.length) 0] := by
  cases data with
  | nil => exact absurd rfl hne
  | cons b data =>
      have hlast : ∀ fuel, cutBlocks part fuel [] = [] := by
        intro fuel
        cases fuel <;> rfl
      have hfuel : (b :: data).length = data.length + 1 := rfl
      rw [toBlocks, hfuel, cutBlocks, List.take_of_length_le
        (Nat.le_of_lt hshort), List.drop_of_length_le (Nat.le_of_lt hshort),
        hlast, hfuel]

theorem toBlocks_count (part : Partition) (data : Bytes) :
    (toBlocks part data).length =
      (data.length + part.eraseSize - 1) / part.eraseSize := by
  have hsize := part.eraseSize_pos
  induction hlength : data.length using Nat.strong_induction_on
    generalizing data with
  | _ len ih =>
      subst hlength
      by_cases hshort : data.length < part.eraseSize
      · by_cases hempty : data = []
        · rw [hempty, List.length_nil, Nat.zero_add, Nat.div_eq_of_lt
            (by omega)]
          rfl
        · have hpos := List.length_pos_iff.mpr hempty
          rw [toBlocks_short hempty hshort, Nat.div_eq_sub_div hsize
            (by omega), Nat.div_eq_of_lt (by omega)]
          rfl
      · have hblock : (data.take part.eraseSize).length = part.eraseSize := by
          rw [List.length_take]
          omega
        have hrest := ih (data.drop part.eraseSize).length
          (by rw [List.length_drop]; omega) (data.drop part.eraseSize) rfl
        rw [Nat.div_eq_sub_div hsize (by omega),
          ← List.take_append_drop part.eraseSize data, toBlocks_cons hblock,
          List.length_cons, hrest, List.take_append_drop, List.length_drop]
        congr 2
        omega

/-- The blocks hold the data, and zeros behind it. -/
theorem toBlocks_flatten (part : Partition) (data : Bytes) :
    ∃ count, (toBlocks part data).flatten =
      data ++ List.replicate count 0 := by
  have hsize := part.eraseSize_pos
  induction hlength : data.length using Nat.strong_induction_on
    generalizing data with
  | _ len ih =>
      by_cases hshort : data.length < part.eraseSize
      · by_cases hempty : data = []
        · exact ⟨0, by rw [hempty]; rfl⟩
        · refine ⟨part.eraseSize - data.length, ?_⟩
          rw [toBlocks_short hempty hshort, List.flatten_singleton]
      · have hblock : (data.take part.eraseSize).length = part.eraseSize := by
          rw [List.length_take]
          omega
        obtain ⟨count, hrest⟩ := ih (data.drop part.eraseSize).length
          (by rw [List.length_drop]; omega) (data.drop part.eraseSize) rfl
        refine ⟨count, ?_⟩
        conv_lhs => rw [← List.take_append_drop part.eraseSize data]
        rw [toBlocks_cons hblock, List.flatten_cons, hrest,
          ← List.append_assoc, List.take_append_drop]

theorem toBlocks_length {data block : Bytes}
    (hmem : block ∈ toBlocks part data) : block.length = part.eraseSize := by
  unfold toBlocks at hmem
  generalize data.length = fuel at hmem
  induction fuel generalizing data with
  | zero => simp [cutBlocks] at hmem
  | succ fuel ih =>
      cases data with
      | nil => simp [cutBlocks] at hmem
      | cons b data =>
          rw [cutBlocks] at hmem
          rcases List.mem_cons.mp hmem with rfl | hrest
          · rw [List.length_append, List.length_take, List.length_replicate]
            omega
          · exact ih hrest

theorem run_padPending (ctx : WriteContext) (dev : Device)
    (hroom : ctx.pending.length < part.eraseSize)
    (hok : (flash.run (padPending part ctx) dev).1.1 = true) :
    Wrote flash ctx dev (toBlocks part ctx.pending)
      (flash.run (padPending part ctx) dev).1.2
      (flash.run (padPending part ctx) dev).2 ∧
    (flash.run (padPending part ctx) dev).1.2.pending = [] := by
  unfold padPending at hok ⊢
  by_cases hempty : ctx.pending = []
  · simp only [hempty, ne_eq, not_true_eq_false, if_false, Prog.pure_eq_ret,
      Flash.run_ret]
    exact ⟨Wrote.refl rfl, trivial⟩
  · simp only [hempty, ne_eq, not_false_eq_true, if_true, Flash.run_bind,
      Prog.pure_eq_ret, Flash.run_ret] at hok ⊢
    obtain ⟨hwrote, -⟩ := run_writeBlock flash ctx _ dev hok
    rw [toBlocks_short hempty hroom]
    simp only [hok, if_true, and_true]
    exact ⟨hwrote.written, hwrote.frame⟩

/-- Erasing only touches blocks from the start position on. -/
theorem run_eraseLoop (blocks pos : Nat) (dev : Device) :
    (flash.run (eraseLoop part blocks pos) dev).2.filePos = dev.filePos ∧
      ∀ q < pos, (flash.run (eraseLoop part blocks pos) dev).2.block q =
        dev.block q := by
  induction blocks generalizing pos dev with
  | zero => exact ⟨rfl, fun _ _ => rfl⟩
  | succ blocks ih =>
      rw [eraseLoop]
      simp only [Flash.run_bind, Flash.run_memGetBadBlock]
      by_cases hmark : flash.mark pos > 0
      · simp only [hmark, if_true]
        obtain ⟨hpos, hkept⟩ := ih (pos + part.eraseSize) dev
        exact ⟨hpos, fun q hq => hkept q (by omega)⟩
      · simp only [hmark, if_false, Flash.run_bind, Flash.run_memErase]
        obtain ⟨hpos, hkept⟩ := ih (pos + part.eraseSize) { dev with
          block := Function.update dev.block pos
            (flash.erased pos (dev.block pos)) }
        refine ⟨hpos, ?_⟩
        intro q hq
        exact (hkept q (by omega)).trans
          (Function.update_of_ne (Nat.ne_of_lt hq) _ _)

/-- A successful `mtd_erase_blocks` call: the pending data is on flash, and
what lies before it is untouched. -/
theorem run_mtdEraseBlocks (ctx : WriteContext) (blocks : Int) (dev : Device)
    (hroom : ctx.pending.length < part.eraseSize)
    (hok : (flash.run (mtdEraseBlocks part ctx blocks) dev).1.1.isSome =
      true) :
    ∃ padded : Device,
      Wrote flash ctx dev (toBlocks part ctx.pending)
        (flash.run (mtdEraseBlocks part ctx blocks) dev).1.2 padded ∧
      (flash.run (mtdEraseBlocks part ctx blocks) dev).1.2.pending = [] ∧
      (flash.run (mtdEraseBlocks part ctx blocks) dev).2.filePos =
        padded.filePos ∧
      ∀ q < padded.filePos,
        (flash.run (mtdEraseBlocks part ctx blocks) dev).2.block q =
          padded.block q := by
  unfold mtdEraseBlocks at hok ⊢
  simp only [Flash.run_bind] at hok ⊢
  by_cases hpad : (flash.run (padPending part ctx) dev).1.1 = true
  · obtain ⟨hwrote, hnone⟩ := run_padPending flash ctx dev hroom hpad
    refine ⟨(flash.run (padPending part ctx) dev).2, ?_⟩
    generalize flash.run (padPending part ctx) dev = padded
      at hok hpad hwrote hnone ⊢
    simp only [hpad, if_true, Flash.run_bind, Flash.run_lseekCur] at hok ⊢
    generalize (if blocks < 0 then
      (((part.size - padded.2.filePos) / part.eraseSize : Nat) : Int)
      else blocks) = count at hok ⊢
    by_cases hmany :
        count > (((part.size - padded.2.filePos) / part.eraseSize : Nat) : Int)
    · rw [if_pos hmany] at hok
      cases hok
    · rw [if_neg hmany]
      simp only [Flash.run_bind, Prog.pure_eq_ret, Flash.run_ret]
      obtain ⟨hpos, hkept⟩ := run_eraseLoop flash count.toNat
        padded.2.filePos padded.2
      exact ⟨hwrote, hnone, hpos, hkept⟩
  · simp [hpad] at hok

/-- Nothing is pending any more: closing leaves the device alone. -/
theorem run_mtdWriteClose (ctx : WriteContext) (dev : Device)
    (hnone : ctx.pending = []) :
    (flash.run (mtdWriteClose part ctx) dev).2 = dev := by
  simp only [mtdWriteClose, mtdEraseBlocks, padPending, hnone, ne_eq,
    not_true_eq_false, if_false, Flash.run_bind, Prog.pure_eq_ret,
    Flash.run_ret, if_true, Flash.run_lseekCur, Flash.run_closeDevice,
    lt_irrefl]
  split
  · rfl
  · rfl

/-- A successful close: the pending data is on flash. -/
theorem run_mtdWriteClose_ok (ctx : WriteContext) (dev : Device)
    (hroom : ctx.pending.length < part.eraseSize)
    (hok : (flash.run (mtdWriteClose part ctx) dev).1 = true) :
    ∃ ctx', Wrote flash ctx dev (toBlocks part ctx.pending) ctx'
      (flash.run (mtdWriteClose part ctx) dev).2 := by
  unfold mtdWriteClose mtdEraseBlocks at hok ⊢
  simp only [Flash.run_bind, Flash.run_closeDevice, Bool.and_true,
    Prog.pure_eq_ret, Flash.run_ret] at hok ⊢
  by_cases hpad : (flash.run (padPending part ctx) dev).1.1 = true
  · obtain ⟨hwrote, -⟩ := run_padPending flash ctx dev hroom hpad
    have hnone : ¬ (0 : Int) > (((part.size -
        (flash.run (padPending part ctx) dev).2.filePos) /
          part.eraseSize : Nat) : Int) :=
      not_lt.mpr (Int.natCast_nonneg _)
    refine ⟨(flash.run (padPending part ctx) dev).1.2, ?_⟩
    simp only [hpad, if_true, Flash.run_bind, Flash.run_lseekCur, lt_irrefl,
      if_false, hnone, Int.toNat_zero, eraseLoop, Prog.pure_eq_ret,
      Flash.run_ret]
    exact hwrote
  · simp [hpad] at hok

section FaultFree

/-- Programming an erased block sets it. -/
theorem program_erased {data : Bytes} (hdata : data.length = part.eraseSize) :
    List.zipWith (· &&& ·) (List.replicate part.eraseSize (255 : UInt8)) data =
      data := by
  rw [← hdata]
  clear hdata
  induction data with
  | nil => rfl
  | cons b data ih =>
      have hb : (255 : UInt8) &&& b = b := by
        rw [UInt8.and_comm]
        exact UInt8.and_neg_one
      rw [List.length_cons, List.replicate_succ, List.zipWith_cons_cons, ih,
        hb]

/-- Without faults a block takes what is written to it. -/
theorem put_faultFree (pos : Nat) {data : Bytes} (block : Block)
    (hdata : data.length = part.eraseSize) :
    ((Flash.faultFree part).put pos data block).1 = true ∧
      ((Flash.faultFree part).put pos data block).2.content = data := by
  have hprogram := program_erased hdata
  have hattempt : (Flash.faultFree part).attempt pos data block =
      (true, ⟨data, block.worn + 1 + 1⟩) := by
    simp [Flash.attempt, Flash.erased, Flash.programmed, Flash.faultFree,
      hprogram, hdata]
  simp [Flash.put, Flash.attempts, hattempt]

theorem faultFree_writeBlock (ctx : WriteContext) {data : Bytes}
    {dev : Device} (hdata : data.length = part.eraseSize)
    (hroom : dev.filePos + part.eraseSize ≤ part.limit) :
    ((Flash.faultFree part).run (writeBlock part ctx data) dev).1 =
        (true, ctx) ∧
      ((Flash.faultFree part).run (writeBlock part ctx data) dev).2.filePos =
        dev.filePos + part.eraseSize := by
  obtain ⟨hput, -⟩ := put_faultFree dev.filePos (dev.block dev.filePos) hdata
  have hok : ((Flash.faultFree part).attempts dev.filePos data 2
      (dev.block dev.filePos)).1 = true := by
    by_contra hfail
    rw [put_of_attempts_false (by simpa using hfail)] at hput
    cases hput
  obtain ⟨hresult, -, hdone⟩ := (Flash.faultFree part).run_writeAttempts
    dev.filePos data 2 dev
  rw [hok] at hresult
  have hmark : ¬ 0 < (Flash.faultFree part).mark dev.filePos := by
    simp [Flash.faultFree]
  simp only [writeBlock, Flash.run_bind, Flash.run_lseekCur]
  rw [part.blocksFrom_succ hroom, run_writeBlockLoop_succ, if_neg hmark]
  simp only [hresult, if_true]
  exact ⟨trivial, hdone hok⟩

theorem faultFree_writeDirect (blocks : Nat) {ctx : WriteContext}
    {data : Bytes} {dev : Device}
    (hdata : blocks * part.eraseSize ≤ data.length)
    (hroom : blocks ≠ 0 →
      dev.filePos + blocks * part.eraseSize ≤ part.limit) :
    ((Flash.faultFree part).run (writeDirect part blocks ctx data) dev).1.1 =
        true ∧
      ((Flash.faultFree part).run
        (writeDirect part blocks ctx data) dev).2.filePos =
        dev.filePos + blocks * part.eraseSize := by
  induction blocks generalizing ctx data dev with
  | zero => simp [writeDirect]
  | succ blocks ih =>
      have hall := hroom (Nat.succ_ne_zero blocks)
      rw [Nat.succ_mul] at hall hdata ⊢
      have hlength : (data.take part.eraseSize).length = part.eraseSize := by
        rw [List.length_take]
        omega
      obtain ⟨hok, hpos⟩ := faultFree_writeBlock ctx hlength
        (by omega : dev.filePos + part.eraseSize ≤ part.limit)
      rw [writeDirect]
      simp only [Flash.run_bind, hok, if_true]
      obtain ⟨hrest, hend⟩ := @ih ctx (data.drop part.eraseSize)
        ((Flash.faultFree part).run (writeBlock part ctx
          (data.take part.eraseSize)) dev).2
        (by rw [List.length_drop]; omega) (by rw [hpos]; omega)
      refine ⟨hrest, ?_⟩
      rw [hend, hpos]
      omega

theorem faultFree_writePending {ctx : WriteContext} {dev : Device}
    (hroom : dev.filePos + ctx.pending.length ≤ part.limit) :
    ((Flash.faultFree part).run (writePending part ctx) dev).1.1 = true ∧
      ((Flash.faultFree part).run (writePending part ctx) dev).2.filePos +
        ((Flash.faultFree part).run
          (writePending part ctx) dev).1.2.pending.length =
        dev.filePos + ctx.pending.length := by
  unfold writePending
  by_cases hfull : ctx.pending.length = part.eraseSize
  · obtain ⟨hok, hpos⟩ := faultFree_writeBlock ctx hfull
      (by omega : dev.filePos + part.eraseSize ≤ part.limit)
    simp only [hfull, if_true, Flash.run_bind, hok, Prog.pure_eq_ret,
      Flash.run_ret, hpos, List.length_nil, Nat.add_zero, and_self]
  · simp [hfull]

theorem faultFree_writePass {ctx : WriteContext} {data : Bytes}
    {dev : Device}
    (hroom : dev.filePos + ctx.pending.length + data.length ≤ part.limit) :
    ((Flash.faultFree part).run (writePass part ctx data) dev).1.1 = true ∧
      ((Flash.faultFree part).run (writePass part ctx data) dev).2.filePos +
        ((Flash.faultFree part).run
          (writePass part ctx data) dev).1.2.1.pending.length +
        ((Flash.faultFree part).run
          (writePass part ctx data) dev).1.2.2.length =
        dev.filePos + ctx.pending.length + data.length := by
  unfold writePass
  simp only [Flash.run_bind]
  generalize hcopy : (if ctx.pending ≠ [] ∨ data.length < part.eraseSize
    then min data.length (part.eraseSize - ctx.pending.length)
    else 0) = copy
  have hlength : (ctx.pending ++ data.take copy).length =
      ctx.pending.length + copy := by
    rw [List.length_append, List.length_take]
    split at hcopy <;> omega
  have hcopied : copy ≤ data.length := by
    split at hcopy <;> omega
  obtain ⟨hflush, htotal⟩ := @faultFree_writePending part
    { ctx with pending := ctx.pending ++ data.take copy } dev
    (by rw [hlength]; omega)
  rw [hlength] at htotal
  generalize (Flash.faultFree part).run (writePending part
    { ctx with pending := ctx.pending ++ data.take copy }) dev = flushed
    at hflush htotal ⊢
  simp only [hflush, if_true]
  generalize hblocks : (if flushed.1.2.pending = [] then
    (data.drop copy).length / part.eraseSize else 0) = blocks
  have hdrop : (data.drop copy).length = data.length - copy :=
    List.length_drop
  have hfits : blocks * part.eraseSize ≤ (data.drop copy).length := by
    rw [← hblocks]
    split
    · exact Nat.div_mul_le_self _ _
    · omega
  have hdirect : blocks ≠ 0 → flushed.1.2.pending = [] := by
    intro hne
    by_contra hfull
    rw [if_neg hfull] at hblocks
    exact hne hblocks.symm
  obtain ⟨hok, hpos⟩ := @faultFree_writeDirect part blocks flushed.1.2
    (data.drop copy) flushed.2 hfits (by omega)
  obtain ⟨-, hpending, hrest⟩ := run_writeDirect _ blocks _ _ _ hfits hdirect
    hok
  refine ⟨hok, ?_⟩
  rw [hpending, hrest, List.length_drop, hpos]
  omega

theorem faultFree_writeLoop (fuel : Nat) {ctx : WriteContext} {data : Bytes}
    {dev : Device} (hfuel : data.length ≤ fuel)
    (hpending : ctx.pending.length < part.eraseSize)
    (hroom : dev.filePos + ctx.pending.length + data.length ≤ part.limit) :
    ((Flash.faultFree part).run (writeLoop part fuel ctx data) dev).1.1 =
        true ∧
      ((Flash.faultFree part).run
        (writeLoop part fuel ctx data) dev).2.filePos +
        ((Flash.faultFree part).run
          (writeLoop part fuel ctx data) dev).1.2.pending.length =
        dev.filePos + ctx.pending.length + data.length := by
  induction fuel generalizing ctx data dev with
  | zero =>
      have hempty : data = [] := List.eq_nil_of_length_eq_zero (by omega)
      subst hempty
      exact ⟨rfl, rfl⟩
  | succ fuel ih =>
      rw [writeLoop]
      by_cases hdata : data = []
      · subst hdata
        exact ⟨rfl, rfl⟩
      · simp only [hdata, if_false, Flash.run_bind]
        obtain ⟨hpass, htotal⟩ := faultFree_writePass hroom
        obtain ⟨len, hlen, -, hshort, hrest⟩ :=
          run_writePass _ ctx data dev hdata hpending hpass
        have hpos := List.length_pos_iff.mpr hdata
        rw [hrest] at htotal ⊢
        simp only [hpass, if_true]
        rw [← htotal] at hroom ⊢
        exact ih (by rw [List.length_drop]; omega) hshort hroom

/-- Without faults `mtd_write_data` succeeds while there is room. -/
theorem faultFree_mtdWriteData {ctx : WriteContext} {data : Bytes}
    {dev : Device} (hpending : ctx.pending.length < part.eraseSize)
    (hroom : dev.filePos + ctx.pending.length + data.length ≤ part.limit) :
    ((Flash.faultFree part).run (mtdWriteData part ctx data) dev).1.1 =
        true ∧
      ((Flash.faultFree part).run
        (mtdWriteData part ctx data) dev).2.filePos +
        ((Flash.faultFree part).run
          (mtdWriteData part ctx data) dev).1.2.pending.length =
        dev.filePos + ctx.pending.length + data.length :=
  faultFree_writeLoop data.length le_rfl hpending hroom

/-- Without faults a close succeeds when the last block fits. -/
theorem faultFree_mtdWriteClose {ctx : WriteContext} {dev : Device}
    (hpending : ctx.pending.length < part.eraseSize)
    (hroom : ctx.pending ≠ [] →
      dev.filePos + part.eraseSize ≤ part.limit) :
    ((Flash.faultFree part).run (mtdWriteClose part ctx) dev).1 = true := by
  have hpad : ((Flash.faultFree part).run (padPending part ctx) dev).1.1 =
      true := by
    unfold padPending
    by_cases hempty : ctx.pending = []
    · simp [hempty]
    · have hlength : (ctx.pending ++ List.replicate
          (part.eraseSize - ctx.pending.length) (0 : UInt8)).length =
          part.eraseSize := by
        rw [List.length_append, List.length_replicate]
        omega
      obtain ⟨hok, -⟩ := faultFree_writeBlock ctx hlength (hroom hempty)
      simp only [hempty, ne_eq, not_false_eq_true, if_true, Flash.run_bind,
        hok, Prog.pure_eq_ret, Flash.run_ret]
  have hnone : ¬ (0 : Int) > (((part.size -
      ((Flash.faultFree part).run (padPending part ctx) dev).2.filePos) /
        part.eraseSize : Nat) : Int) :=
    not_lt.mpr (Int.natCast_nonneg _)
  simp only [mtdWriteClose, mtdEraseBlocks, Flash.run_bind, hpad, if_true,
    Flash.run_lseekCur, lt_irrefl, if_false, hnone, Int.toNat_zero,
    eraseLoop, Prog.pure_eq_ret, Flash.run_ret, Flash.run_closeDevice,
    Option.isSome_some, Bool.and_self]

end FaultFree

/-- **What a write session leaves behind.** -/
theorem run_writeSession (writes : List Bytes) (dev : Device)
    {ctx : WriteContext}
    (hok : (flash.run (writeSession part writes) dev).1 = some ctx) :
    ∃ used, Written flash dev.block
      (flash.run (writeSession part writes) dev).2.block 0
      (toBlocks part writes.flatten) ctx.badBlockOffsets used
      (flash.run (writeSession part writes) dev).2.filePos := by
  unfold writeSession mtdWritePartition at hok ⊢
  simp only [Flash.run_bind, Flash.run_openDevice, if_true, Prog.pure_eq_ret,
    Flash.run_ret] at hok ⊢
  by_cases hwrites : (flash.run (writeAll part ⟨[], []⟩ writes)
      { dev with filePos := 0 }).1.1 = true
  · obtain ⟨htook, hroom⟩ := run_writeAll flash ⟨[], []⟩ writes
      { dev with filePos := 0 } part.eraseSize_pos hwrites
    obtain ⟨datas, hlength, hsplit, hwrote⟩ := htook.wrote
    generalize flash.run (writeAll part ⟨[], []⟩ writes)
      { dev with filePos := 0 } = wrote at *
    simp only [hwrites, if_true, Flash.run_bind] at hok ⊢
    by_cases herase : (flash.run (mtdEraseBlocks part wrote.1.2 (-1))
        wrote.2).1.1.isSome = true
    · obtain ⟨padded, hpad, hnone, hpos, hkept⟩ :=
        run_mtdEraseBlocks flash wrote.1.2 (-1) wrote.2 hroom herase
      generalize flash.run (mtdEraseBlocks part wrote.1.2 (-1)) wrote.2 =
        finished at *
      simp only [herase, if_true, Flash.run_bind, Flash.run_ret] at hok ⊢
      rw [run_mtdWriteClose flash _ _ hnone]
      have hctx : finished.1.2 = ctx := by
        split at hok
        · exact Option.some.inj hok
        · cases hok
      obtain ⟨bad, used, hwritten, hbad⟩ := (hwrote.trans hpad).written
      refine ⟨used, ?_⟩
      rw [← hctx, hbad, hpos, List.nil_append]
      rw [List.nil_append] at hsplit
      rw [hsplit, toBlocks_flatten_append hlength]
      exact hwritten.congr (fun _ _ _ => rfl) fun q _ hq => hkept q hq
    · simp [herase] at hok
  · simp [hwrites] at hok

end Mtd

end MetaOS
