/-
How the data was cut up does not matter to `mtd_write_data`.

The calls are compared as programs, so that what follows holds whatever the
device answers.  `takeOver` is what taking data over comes to: the complete
blocks go to `write_block`, the rest waits in the buffer.
-/
import MetaOS.MtdWriter

namespace MetaOS

namespace Mtd

variable (part : Partition)

/-- The complete blocks at the front of the data. -/
def completeBlocks (data : Bytes) : List Bytes :=
  (toBlocks part data).take (data.length / part.eraseSize)

/-- The bytes behind the complete blocks. -/
def lastBytes (data : Bytes) : Bytes :=
  data.drop (data.length / part.eraseSize * part.eraseSize)

/-- Hand blocks to `write_block` one after the other, until one fails. -/
def handBlocks : WriteContext → List Bytes → MtdProg (Option WriteContext)
  | ctx, [] => pure (some ctx)
  | ctx, block :: blocks =>
      (writeBlock part ctx block).whenOk.andThen fun ctx =>
        handBlocks ctx blocks

/-- Take data over behind what is pending. -/
def takeOver (ctx : WriteContext) (data : Bytes) :
    MtdProg (Option WriteContext) :=
  (handBlocks part { ctx with pending := [] }
      (completeBlocks part (ctx.pending ++ data))).andThen fun ctx' =>
    pure (some { ctx' with pending := lastBytes part (ctx.pending ++ data) })

/-- A fresh context, the writes one by one, and the close. -/
def writeAndClose (writes : List Bytes) : MtdProg Bool := do
  let (ok, ctx) ← writeAll part ⟨[], []⟩ writes
  if ok then mtdWriteClose part ctx else pure false

/-- Close a context that took its data over. -/
def closeTaken : Option WriteContext → MtdProg Bool
  | none => pure false
  | some ctx => mtdWriteClose part ctx

/-- Hand blocks over, the first `count` of them before the close and the
others during the close. -/
def handOver (count : Nat) (blocks : List Bytes) : MtdProg Bool := do
  match ← handBlocks part ⟨[], []⟩ (blocks.take count) with
  | none => pure false
  | some ctx =>
      let written ← handBlocks part ctx (blocks.drop count)
      let pos ← if written.isSome then lseekCur else pure none
      let closed ← closeDevice
      pure (pos.isSome && closed)

section Cutting

variable {part}

theorem completeBlocks_short {data : Bytes}
    (hshort : data.length < part.eraseSize) :
    completeBlocks part data = [] := by
  rw [completeBlocks, Nat.div_eq_of_lt hshort, List.take_zero]

theorem lastBytes_short {data : Bytes}
    (hshort : data.length < part.eraseSize) : lastBytes part data = data := by
  rw [lastBytes, Nat.div_eq_of_lt hshort, Nat.zero_mul, List.drop_zero]

theorem completeBlocks_cons {block : Bytes}
    (hblock : block.length = part.eraseSize) (rest : Bytes) :
    completeBlocks part (block ++ rest) =
      block :: completeBlocks part rest := by
  rw [completeBlocks, completeBlocks, toBlocks_cons hblock,
    List.length_append, hblock, Nat.add_div_left _ part.eraseSize_pos,
    List.take_succ_cons]

theorem lastBytes_cons {block : Bytes}
    (hblock : block.length = part.eraseSize) (rest : Bytes) :
    lastBytes part (block ++ rest) = lastBytes part rest := by
  rw [lastBytes, lastBytes, List.length_append, hblock,
    Nat.add_div_left _ part.eraseSize_pos, Nat.succ_mul, Nat.add_comm,
    ← hblock, List.drop_length_add_append]

theorem lastBytes_length (data : Bytes) :
    (lastBytes part data).length < part.eraseSize := by
  rw [lastBytes, List.length_drop, Nat.mul_comm, ← Nat.mod_eq_sub]
  exact Nat.mod_lt _ part.eraseSize_pos

/-- Cutting can stop anywhere and go on from the rest. -/
theorem cut_append (part : Partition) (first second : Bytes) :
    completeBlocks part (first ++ second) = completeBlocks part first ++
        completeBlocks part (lastBytes part first ++ second) ∧
      lastBytes part (first ++ second) =
        lastBytes part (lastBytes part first ++ second) := by
  have hsize := part.eraseSize_pos
  induction hlength : first.length using Nat.strong_induction_on
    generalizing first with
  | _ len ih =>
      by_cases hshort : first.length < part.eraseSize
      · rw [completeBlocks_short hshort, lastBytes_short hshort]
        exact ⟨rfl, rfl⟩
      · have hblock : (first.take part.eraseSize).length =
            part.eraseSize := by
          rw [List.length_take]
          omega
        have hrest := ih (first.drop part.eraseSize).length
          (by rw [List.length_drop]; omega) (first.drop part.eraseSize) rfl
        rw [← List.take_append_drop part.eraseSize first, List.append_assoc,
          completeBlocks_cons hblock, completeBlocks_cons hblock,
          lastBytes_cons hblock, lastBytes_cons hblock, hrest.1, hrest.2]
        exact ⟨rfl, rfl⟩

/-- All blocks of the data: the complete ones and the padded rest. -/
theorem toBlocks_eq (data : Bytes) : toBlocks part data =
    completeBlocks part data ++ toBlocks part (lastBytes part data) := by
  have hsize := part.eraseSize_pos
  induction hlength : data.length using Nat.strong_induction_on
    generalizing data with
  | _ len ih =>
      by_cases hshort : data.length < part.eraseSize
      · rw [completeBlocks_short hshort, lastBytes_short hshort]
        rfl
      · have hblock : (data.take part.eraseSize).length =
            part.eraseSize := by
          rw [List.length_take]
          omega
        have hrest := ih (data.drop part.eraseSize).length
          (by rw [List.length_drop]; omega) (data.drop part.eraseSize) rfl
        rw [← List.take_append_drop part.eraseSize data,
          toBlocks_cons hblock, completeBlocks_cons hblock,
          lastBytes_cons hblock, hrest]
        rfl

/-- The blocks of data that starts with whole blocks. -/
theorem toBlocks_append (part : Partition) {first : Bytes} (second : Bytes)
    (hfirst : part.eraseSize ∣ first.length) :
    toBlocks part (first ++ second) =
      toBlocks part first ++ toBlocks part second := by
  have hlast : lastBytes part first = [] := by
    rw [lastBytes, Nat.div_mul_cancel hfirst, List.drop_length]
  obtain ⟨hblocks, hrest⟩ := cut_append part first second
  rw [hlast, List.nil_append] at hblocks hrest
  rw [toBlocks_eq, hblocks, hrest, List.append_assoc, ← toBlocks_eq,
    toBlocks_eq first, hlast]
  simp [toBlocks, cutBlocks]

theorem completeBlocks_length (data : Bytes) :
    (completeBlocks part data).length = data.length / part.eraseSize := by
  rw [completeBlocks, List.length_take, toBlocks_count]
  apply Nat.min_eq_left
  apply Nat.div_le_div_right
  have hsize := part.eraseSize_pos
  omega

end Cutting

section Handing

/-- `write_block` does not look at what is pending. -/
theorem writeBlockLoop_pending (data : Bytes) (blocks pos : Nat)
    (ctx : WriteContext) (pending : Bytes) :
    writeBlockLoop part data blocks pos { ctx with pending := pending } =
      (writeBlockLoop part data blocks pos ctx >>= fun r =>
        pure (r.1, { r.2 with pending := pending })) := by
  induction blocks generalizing pos ctx with
  | zero => rfl
  | succ blocks ih =>
      have hpast : addBadBlockOffset { ctx with pending := pending } pos =
          { addBadBlockOffset ctx pos with pending := pending } := rfl
      rw [writeBlockLoop, writeBlockLoop, bind_assoc]
      congr 1
      funext mark
      split
      · rw [hpast, ih]
      · rw [bind_assoc]
        congr 1
        funext ok
        cases ok with
        | true => rfl
        | false =>
            simp only [Bool.false_eq_true, if_false, bind_assoc]
            rw [hpast, ih]

theorem writeBlock_pending (data : Bytes) (ctx : WriteContext)
    (pending : Bytes) :
    writeBlock part { ctx with pending := pending } data =
      (writeBlock part ctx data >>= fun r =>
        pure (r.1, { r.2 with pending := pending })) := by
  rw [writeBlock, writeBlock, bind_assoc]
  congr 1
  funext pos
  cases pos with
  | none => rfl
  | some pos => exact writeBlockLoop_pending part data _ pos ctx pending

theorem whenOk_writeBlock_pending (data : Bytes) (ctx : WriteContext)
    (pending : Bytes) :
    (writeBlock part { ctx with pending := pending } data).whenOk =
      (writeBlock part ctx data).whenOk.andThen fun ctx' =>
        pure (some { ctx' with pending := pending }) := by
  rw [writeBlock_pending]
  exact Prog.whenOk_map _ fun ctx' : WriteContext =>
    { ctx' with pending := pending }

theorem handBlocks_pending (ctx : WriteContext) (pending : Bytes)
    (blocks : List Bytes) :
    handBlocks part { ctx with pending := pending } blocks =
      (handBlocks part ctx blocks).andThen fun ctx' =>
        pure (some { ctx' with pending := pending }) := by
  induction blocks generalizing ctx with
  | nil => rfl
  | cons block blocks ih =>
      simp only [handBlocks]
      rw [whenOk_writeBlock_pending, Prog.andThen_assoc, Prog.andThen_assoc]
      congr 1
      funext ctx'
      exact ih ctx'

theorem handBlocks_append (ctx : WriteContext) (first second : List Bytes) :
    handBlocks part ctx (first ++ second) =
      (handBlocks part ctx first).andThen fun ctx =>
        handBlocks part ctx second := by
  induction first generalizing ctx with
  | nil => rfl
  | cons block first ih =>
      rw [List.cons_append, handBlocks, handBlocks, Prog.andThen_assoc]
      congr 1
      funext ctx
      exact ih ctx

/-- Taking data over piece by piece. -/
theorem takeOver_append (ctx : WriteContext) (first second : Bytes) :
    takeOver part ctx (first ++ second) =
      (takeOver part ctx first).andThen fun ctx =>
        takeOver part ctx second := by
  obtain ⟨hblocks, hlast⟩ := cut_append part (ctx.pending ++ first)
    second
  simp only [takeOver, Prog.andThen_assoc, ← List.append_assoc, hblocks,
    hlast, handBlocks_append, Prog.pure_eq_ret, Prog.ret_some_andThen]
  -- the second piece starts from the context that the first one leaves
  conv_lhs => rw [handBlocks_pending, Prog.andThen_assoc]
  conv_rhs => rw [handBlocks_pending, Prog.andThen_assoc]
  rfl

theorem takeOver_nil {ctx : WriteContext}
    (hroom : ctx.pending.length < part.eraseSize) :
    takeOver part ctx [] = pure (some ctx) := by
  rw [takeOver, List.append_nil, completeBlocks_short hroom,
    lastBytes_short hroom]
  rfl

/-- Data that does not fill the block waits. -/
theorem takeOver_short {ctx : WriteContext} {data : Bytes}
    (hshort : (ctx.pending ++ data).length < part.eraseSize) :
    takeOver part ctx data =
      pure (some { ctx with pending := ctx.pending ++ data }) := by
  rw [takeOver, completeBlocks_short hshort, lastBytes_short hshort]
  rfl

/-- Data that fills the block exactly. -/
theorem takeOver_block {ctx : WriteContext} {data : Bytes}
    (hblock : (ctx.pending ++ data).length = part.eraseSize) :
    takeOver part ctx data =
      (writeBlock part ctx (ctx.pending ++ data)).whenOk.andThen fun ctx' =>
        pure (some { ctx' with pending := [] }) := by
  have hempty : ([] : Bytes).length < part.eraseSize := part.eraseSize_pos
  have hcut := completeBlocks_cons hblock []
  have hlast := lastBytes_cons hblock []
  rw [List.append_nil, completeBlocks_short hempty] at hcut
  rw [List.append_nil, lastBytes_short hempty] at hlast
  rw [takeOver, hcut, hlast]
  simp only [handBlocks, Prog.pure_eq_ret, Prog.andThen_ret]
  rw [whenOk_writeBlock_pending, Prog.andThen_assoc]
  rfl

/-- The rest never fills a block. -/
theorem takeOver_room (ctx : WriteContext) (data : Bytes) :
    (takeOver part ctx data).Yields fun r =>
      ∀ ctx', r = some ctx' → ctx'.pending.length < part.eraseSize := by
  refine (Prog.yields_true _).andThen (fun ctx hnone => by cases hnone) ?_
  rintro ctx - ctx' hctx'
  cases hctx'
  exact lastBytes_length _

/-- What follows finds a context whose buffer has room. -/
theorem takeOver_andThen_congr {α : Type} {ctx : WriteContext} {data : Bytes}
    {f g : WriteContext → MtdProg (Option α)}
    (hsame : ∀ ctx', ctx'.pending.length < part.eraseSize →
      f ctx' = g ctx') :
    (takeOver part ctx data).andThen f =
      (takeOver part ctx data).andThen g := by
  refine (takeOver_room part ctx data).bind_congr ?_
  intro r hroom
  cases r with
  | none => rfl
  | some ctx' => exact hsame ctx' (hroom ctx' rfl)

end Handing

section Passes

/-- Buffered data goes to `write_block` when it fills the block. -/
theorem writePending_eq {ctx : WriteContext} {data : Bytes}
    (hroom : (ctx.pending ++ data).length ≤ part.eraseSize) :
    (writePending part
        { ctx with pending := ctx.pending ++ data }).whenOk =
      takeOver part ctx data := by
  by_cases hfull : (ctx.pending ++ data).length = part.eraseSize
  · rw [takeOver_block part hfull, writePending, if_pos hfull,
      writeBlock_pending, bind_assoc]
    refine Eq.trans ?_ (Prog.whenOk_map _ fun ctx' : WriteContext =>
      { ctx' with pending := [] })
    simp only [Prog.whenOk, bind_assoc, Prog.pure_eq_ret, Prog.ret_bind]
    congr 1
    funext r
    cases r.1 with
    | false => rfl
    | true => rfl
  · rw [takeOver_short part (lt_of_le_of_ne hroom hfull), writePending,
      if_neg hfull]
    rfl

/-- Complete blocks go to `write_block` directly. -/
theorem writeDirect_eq (count : Nat) (ctx : WriteContext) (data : Bytes)
    (hcount : count * part.eraseSize ≤ data.length)
    (hroom : ctx.pending.length < part.eraseSize)
    (hpending : count ≠ 0 → ctx.pending = []) :
    (writeDirect part count ctx data).whenOk =
      (takeOver part ctx (data.take (count * part.eraseSize))).andThen
        fun ctx => pure (some (ctx, data.drop (count * part.eraseSize))) := by
  induction count generalizing ctx data with
  | zero =>
      rw [Nat.zero_mul, List.take_zero, List.drop_zero,
        takeOver_nil part hroom]
      rfl
  | succ count ih =>
      have hnone := hpending (Nat.succ_ne_zero count)
      have hsame : { ctx with pending := [] } = ctx := by
        rw [← hnone]
      rw [Nat.succ_mul] at hcount ⊢
      have hblock : (ctx.pending ++ data.take part.eraseSize).length =
          part.eraseSize := by
        rw [hnone, List.nil_append, List.length_take]
        omega
      have hfirst := whenOk_writeBlock_pending part
        (data.take part.eraseSize) ctx []
      rw [hsame] at hfirst
      have hrest : count * part.eraseSize ≤
          (data.drop part.eraseSize).length := by
        rw [List.length_drop]
        omega
      rw [Nat.add_comm (count * _), List.take_add, takeOver_append,
        takeOver_block part hblock, hnone, List.nil_append, ← hfirst,
        writeDirect, Prog.andThen_assoc]
      refine (Prog.whenOk_bind _ (fun ctx => writeDirect part count ctx
        (data.drop part.eraseSize)) fun r => (r.2, data)).trans ?_
      rw [hfirst, Prog.andThen_assoc, Prog.andThen_assoc]
      congr 1
      funext ctx'
      simp only [Prog.pure_eq_ret, Prog.ret_some_andThen]
      rw [ih { ctx' with pending := [] } _ hrest part.eraseSize_pos
        fun _ => rfl, List.drop_drop]
      rfl

/-- One pass takes over the front of the data. -/
theorem writePass_eq {ctx : WriteContext} {data : Bytes}
    (hroom : ctx.pending.length < part.eraseSize) (hdata : data ≠ []) :
    ∃ len, 0 < len ∧ (writePass part ctx data).whenOk =
      (takeOver part ctx (data.take len)).andThen fun ctx =>
        pure (some (ctx, data.drop len)) := by
  have hsome := List.length_pos_iff.mpr hdata
  have hsize := part.eraseSize_pos
  obtain ⟨copy, hcopy⟩ : ∃ copy,
      (if ctx.pending ≠ [] ∨ data.length < part.eraseSize then
        min data.length (part.eraseSize - ctx.pending.length) else 0) = copy :=
    ⟨_, rfl⟩
  have hbuffered : (ctx.pending ++ data.take copy).length =
      ctx.pending.length + copy := by
    rw [List.length_append, List.length_take]
    split at hcopy <;> omega
  have hfits : ctx.pending.length + copy ≤ part.eraseSize := by
    split at hcopy <;> omega
  have hpass : (writePass part ctx data).whenOk =
      (takeOver part ctx (data.take copy)).andThen fun ctx' =>
        (writeDirect part (if ctx'.pending = [] then
          (data.drop copy).length / part.eraseSize else 0) ctx'
          (data.drop copy)).whenOk := by
    rw [← writePending_eq part (by omega), writePass, hcopy]
    exact Prog.whenOk_bind _ (fun ctx' => writeDirect part
      (if ctx'.pending = [] then
        (data.drop copy).length / part.eraseSize else 0) ctx' (data.drop copy))
      fun r => (r.2, data.drop copy)
  by_cases hshort : ctx.pending.length + copy < part.eraseSize
  · rw [takeOver_short part (by omega), Prog.pure_eq_ret,
      Prog.ret_some_andThen] at hpass
    by_cases hempty : ctx.pending ++ data.take copy = []
    · have hnone : copy = 0 ∧ ctx.pending = [] := by
        rw [hempty, List.length_nil] at hbuffered
        exact ⟨by omega, List.eq_nil_of_length_eq_zero (by omega)⟩
      obtain ⟨rfl, hpending⟩ := hnone
      have hlarge : part.eraseSize ≤ data.length := by
        rw [hpending] at hcopy
        simp only [List.length_nil] at hcopy
        split at hcopy <;> omega
      refine ⟨data.length / part.eraseSize * part.eraseSize,
        Nat.mul_pos (Nat.div_pos hlarge hsize) hsize, ?_⟩
      rw [hpass, if_pos hempty, List.drop_zero, List.take_zero,
        List.append_nil]
      exact writeDirect_eq part _ ctx data (Nat.div_mul_le_self _ _) hroom
        fun _ => hpending
    · have hcopied : copy ≠ 0 := by
        rintro rfl
        rw [List.take_zero, List.append_nil] at hempty
        rw [if_pos (Or.inl hempty)] at hcopy
        omega
      refine ⟨copy, Nat.pos_of_ne_zero hcopied, ?_⟩
      rw [hpass, if_neg hempty, takeOver_short part (by omega)]
      rfl
  · -- the block is full, and what follows it starts a block
    have hfull : ctx.pending.length + copy = part.eraseSize := by omega
    refine ⟨copy + (data.drop copy).length / part.eraseSize * part.eraseSize,
      by omega, ?_⟩
    rw [hpass, List.take_add, takeOver_append,
      takeOver_block part (hbuffered.trans hfull), Prog.andThen_assoc,
      Prog.andThen_assoc, Prog.andThen_assoc]
    congr 1
    funext ctx'
    simp only [Prog.pure_eq_ret, Prog.ret_some_andThen, if_true]
    rw [writeDirect_eq part _ { ctx' with pending := [] } _
      (Nat.div_mul_le_self _ _) hsize fun _ => rfl, List.drop_drop]
    rfl

/-- The loop of `mtd_write_data` takes all of the data over. -/
theorem writeLoop_eq (fuel : Nat) (ctx : WriteContext) (data : Bytes)
    (hroom : ctx.pending.length < part.eraseSize)
    (hfuel : data.length ≤ fuel) :
    (writeLoop part fuel ctx data).whenOk = takeOver part ctx data := by
  induction fuel generalizing ctx data with
  | zero =>
      obtain rfl := List.eq_nil_of_length_eq_zero (Nat.le_zero.mp hfuel)
      rw [takeOver_nil part hroom]
      rfl
  | succ fuel ih =>
      rw [writeLoop]
      split
      · rename_i hnil
        rw [hnil, takeOver_nil part hroom]
        rfl
      · rename_i hdata
        obtain ⟨len, hlen, hpass⟩ := writePass_eq part hroom hdata
        have hrest : (data.drop len).length ≤ fuel := by
          rw [List.length_drop]
          omega
        refine (Prog.whenOk_bind _ (fun (r : WriteContext × Bytes) =>
          writeLoop part fuel r.1 r.2) fun r => r.2.1).trans ?_
        rw [hpass, Prog.andThen_assoc]
        conv_rhs => rw [← List.take_append_drop len data, takeOver_append]
        refine takeOver_andThen_congr part fun ctx' hroom' => ?_
        rw [Prog.pure_eq_ret, Prog.ret_some_andThen]
        exact ih ctx' _ hroom' hrest

/-- `mtd_write_data` takes its data over. -/
theorem mtdWriteData_eq {ctx : WriteContext} (data : Bytes)
    (hroom : ctx.pending.length < part.eraseSize) :
    (mtdWriteData part ctx data).whenOk = takeOver part ctx data :=
  writeLoop_eq part data.length ctx data hroom le_rfl

/-- Successive calls take over what one call would. -/
theorem writeAll_eq (ctx : WriteContext) (writes : List Bytes)
    (hroom : ctx.pending.length < part.eraseSize) :
    (writeAll part ctx writes).whenOk =
      takeOver part ctx writes.flatten := by
  induction writes generalizing ctx with
  | nil =>
      rw [List.flatten_nil, takeOver_nil part hroom]
      rfl
  | cons data writes ih =>
      rw [List.flatten_cons, takeOver_append, writeAll]
      refine (Prog.whenOk_bind _ (fun ctx => writeAll part ctx writes)
        fun r => r.2).trans ?_
      rw [mtdWriteData_eq part data hroom]
      exact takeOver_andThen_congr part fun ctx' hroom' => ih ctx' hroom'

end Passes

section Close

/-- The rest goes to `write_block` as a padded block. -/
theorem padPending_eq {ctx : WriteContext}
    (hroom : ctx.pending.length < part.eraseSize) :
    (padPending part ctx).whenOk =
      handBlocks part { ctx with pending := [] }
        (toBlocks part ctx.pending) := by
  rw [padPending]
  split
  · rename_i hsome
    rw [toBlocks_short hsome hroom]
    simp only [handBlocks, Prog.pure_eq_ret, Prog.andThen_ret]
    rw [whenOk_writeBlock_pending]
    refine Eq.trans ?_ (Prog.whenOk_map _ fun ctx' : WriteContext =>
      { ctx' with pending := [] })
    simp only [Prog.whenOk, bind_assoc, Prog.ret_bind]
    congr 1
    funext r
    cases r.1 with
    | false => rfl
    | true => rfl
  · rename_i hnone
    obtain ⟨pending, badBlockOffsets⟩ := ctx
    obtain rfl : pending = [] := not_not.mp hnone
    rfl

/-- The close hands the rest over and asks for the position once more. -/
theorem mtdWriteClose_eq {ctx : WriteContext}
    (hroom : ctx.pending.length < part.eraseSize) :
    mtdWriteClose part ctx = (do
      let written ← handBlocks part { ctx with pending := [] }
        (toBlocks part ctx.pending)
      let pos ← if written.isSome then lseekCur else pure none
      let closed ← closeDevice
      pure (pos.isSome && closed)) := by
  rw [← padPending_eq part hroom]
  simp only [mtdWriteClose, mtdEraseBlocks, Prog.whenOk, bind_assoc,
    Prog.pure_eq_ret, Prog.ret_bind]
  congr 1
  funext r
  cases r.1 with
  | false => rfl
  | true =>
      simp only [if_true, Option.isSome_some, bind_assoc]
      congr 1
      funext pos
      cases pos with
      | none => rfl
      | some pos =>
          have htotal : ¬ (0 : Int) >
              ((part.size - pos) / part.eraseSize : Nat) :=
            not_lt.mpr (Int.natCast_nonneg _)
          simp only [lt_irrefl, if_false, if_neg htotal]
          rfl

/-- Taking data over and closing, on a fresh context. -/
theorem takeOver_close (data : Bytes) :
    (takeOver part ⟨[], []⟩ data >>= closeTaken part) =
      handOver part (data.length / part.eraseSize) (toBlocks part data) := by
  have hcut : (toBlocks part data).drop (data.length / part.eraseSize) =
      toBlocks part (lastBytes part data) := by
    rw [toBlocks_eq, ← completeBlocks_length, List.drop_left]
  have hclose : ∀ ctx : WriteContext,
      mtdWriteClose part { ctx with pending := lastBytes part data } = (do
        let written ← handBlocks part ctx
          (toBlocks part (lastBytes part data))
        let pos ← if written.isSome then lseekCur else pure none
        let closed ← closeDevice
        pure (pos.isSome && closed)) := by
    intro ctx
    rw [mtdWriteClose_eq part (lastBytes_length _)]
    simp only [handBlocks_pending part ctx []]
    rw [Prog.andThen, bind_assoc]
    congr 1
    funext written
    cases written with
    | none => rfl
    | some ctx => rfl
  rw [handOver, hcut, ← completeBlocks, takeOver, List.nil_append,
    Prog.andThen, bind_assoc]
  congr 1
  funext written
  cases written with
  | none => rfl
  | some ctx => exact hclose ctx

end Close

/-- `mtd_write_data` and `mtd_write_close` hand the blocks of all the data to
`write_block`, the last one padded, wherever the data was cut; no call that
went well leaves a complete block behind. -/
theorem writeAndClose_eq (writes : List Bytes) :
    writeAndClose part writes =
      handOver part (writes.flatten.length / part.eraseSize)
        (toBlocks part writes.flatten) ∧
    (writeAll part ⟨[], []⟩ writes).Yields fun r =>
      r.1 = true → r.2.pending.length < part.eraseSize := by
  have hroom : (⟨[], []⟩ : WriteContext).pending.length < part.eraseSize :=
    part.eraseSize_pos
  have hall := writeAll_eq part ⟨[], []⟩ writes hroom
  constructor
  · refine (Prog.bind_of_whenOk _ (mtdWriteClose part) false).trans ?_
    rw [hall, ← takeOver_close]
    congr 1
    funext taken
    cases taken with
    | none => rfl
    | some ctx => rfl
  · have hlast := takeOver_room part ⟨[], []⟩ writes.flatten
    rw [← hall] at hlast
    exact Prog.yields_of_whenOk (fun ctx : WriteContext =>
      ctx.pending.length < part.eraseSize) hlast

end Mtd

end MetaOS
